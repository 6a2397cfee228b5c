/-
`class NetFS` (`client_src/netfs.hpp`, `netfs.cpp`): one client, its block
cache and the requests it sends.

An operation is a program over the client's state that stops at every
request. The four callbacks of the cache are `do_write`, `do_read`,
`do_read_attr` and `do_write_attr`; each sends one request (`Call.req`) and
makes the callback's answer from the response (`Call.ans`), so an operation
of the cache becomes one of the client by translating its requests
(`onCache`).

A response is modelled with what its message carries apart from the message
id, which every responder copies from the request. The client asserts that
a read response holds no more bytes than were asked for; here that bound is
part of the response.
-/
import Nfs.Cache

namespace Nfs

open PlainFile Resume

/-! ## Requests and responses -/

inductive Req
  | access (filename : Str)
  | create (filename : Str)
  | stat (filename : Str)
  | statfs
  | readdir (filename : Str)
  | read (filename : Str) (offset size : Nat)
  | write (filename : Str) (offset : Nat) (data : Bytes)
  | truncate (filename : Str) (offset : Nat)
  | unlink (filename : Str)
  | rmdir (filename : Str)
  | mkdir (filename : Str) (mode : UInt32)
  | rename (fromName toName : Str) (flags : UInt32)

/-- `MsgCreateResp` and the others that carry an error only. -/
structure ErrorResp where
  error : Int

structure AccessResp where
  error : Int
  time : FileTime

structure StatResp where
  error : Int
  size : Nat
  mode : UInt64
  time : FileTime

structure FsStat where
  bsize : UInt64
  frsize : UInt64
  blocks : UInt64
  bfree : UInt64
  bavail : UInt64
  files : UInt64
  ffree : UInt64
  namemax : UInt64
  deriving DecidableEq

structure StatfsResp where
  error : Int
  stat : FsStat

structure ReaddirResp where
  error : Int
  dirNames : List Str

structure ReadResp (size : Nat) where
  error : Int
  data : Bytes
  bound : data.length ≤ size

/-- `MsgWriteResp` and `MsgTruncateResp`. -/
structure ChangeResp where
  error : Int
  beforeChange : FileTime
  afterChange : FileTime
  deriving DecidableEq

abbrev Req.Resp : Req → Type
  | .access _ => AccessResp
  | .stat _ => StatResp
  | .statfs => StatfsResp
  | .readdir _ => ReaddirResp
  | .read _ _ size => ReadResp size
  | .write .. => ChangeResp
  | .truncate .. => ChangeResp
  | _ => ErrorResp

/-- The error code of a response. -/
def Req.error : (r : Req) → r.Resp → Int
  | .access _, a => a.error
  | .create _, a => a.error
  | .stat _, a => a.error
  | .statfs, a => a.error
  | .readdir _, a => a.error
  | .read .., a => a.error
  | .write .., a => a.error
  | .truncate .., a => a.error
  | .unlink _, a => a.error
  | .rmdir _, a => a.error
  | .mkdir .., a => a.error
  | .rename .., a => a.error

/-! ## The callbacks -/

/-- `do_write`: an error, or a stamp before the change that is not the cached
one, marks the file stale. -/
def doWrite (cachedTime : FileTime) (stale : Bool) (resp : ChangeResp) : ContentWbAns :=
  if resp.error ≠ 0 then { err := resp.error, time := cachedTime, stale := true }
  else { err := 0, time := resp.afterChange, stale := if resp.beforeChange.ne cachedTime then true else stale }

def doRead {size : Nat} (resp : ReadResp size) : ContentFtAns :=
  if resp.error ≠ 0 then { err := resp.error, data := [] } else { err := 0, data := resp.data }

/-- `do_read_attr`; after an error the attributes are not set, and not used. -/
def doReadAttr (resp : StatResp) : AttrFtAns :=
  { err := resp.error, attr := { size := resp.size, mode := resp.mode.toUInt32, time := resp.time } }

def doWriteAttr (attr : FileAttr) (stale : Bool) (resp : ChangeResp) : AttrWbAns :=
  if resp.error ≠ 0 then { err := resp.error, attr := attr, stale := true }
  else { err := 0, attr := { attr with time := resp.afterChange },
         stale := if resp.beforeChange.ne attr.time then true else stale }

section
variable {time : FileTime} {attr : FileAttr} {stale : Bool} {resp : ChangeResp} {size : Nat} {data : ReadResp size}

@[simp] theorem doWrite_error : (doWrite time stale resp).err = resp.error := by
  rw [doWrite]
  split
  · rfl
  · rename_i h; exact (not_not.mp h).symm

@[simp] theorem doRead_error : (doRead data).err = data.error := by
  rw [doRead]
  split
  · rfl
  · rename_i h; exact (not_not.mp h).symm

@[simp] theorem doWriteAttr_error : (doWriteAttr attr stale resp).err = resp.error := by
  rw [doWriteAttr]
  split
  · rfl
  · rename_i h; exact (not_not.mp h).symm

theorem doWriteAttr_size : (doWriteAttr attr stale resp).attr.size = attr.size := by
  rw [doWriteAttr]
  split <;> rfl

theorem doWrite_ok (h : resp.error = 0) : doWrite time stale resp =
    { err := 0, time := resp.afterChange, stale := if resp.beforeChange.ne time then true else stale } :=
  if_neg (not_not.mpr h)

theorem doWrite_err (h : resp.error ≠ 0) :
    doWrite time stale resp = { err := resp.error, time := time, stale := true } :=
  if_pos h

theorem doRead_ok (h : data.error = 0) : doRead data = { err := 0, data := data.data } := if_neg (not_not.mpr h)

theorem doWriteAttr_ok (h : resp.error = 0) : doWriteAttr attr stale resp =
    { err := 0, attr := { attr with time := resp.afterChange },
      stale := if resp.beforeChange.ne attr.time then true else stale } :=
  if_neg (not_not.mpr h)

theorem doWriteAttr_err (h : resp.error ≠ 0) :
    doWriteAttr attr stale resp = { err := resp.error, attr := attr, stale := true } :=
  if_pos h

end

/-- The request a callback sends. -/
def Call.req : Call → Req
  | .contentWb fname offset data _ _ => .write fname offset data
  | .attrWb fname attr _ => .truncate fname attr.size
  | .contentFt filename offset size => .read filename offset size
  | .attrFt filename => .stat filename

/-- What a callback makes of the response. -/
def Call.ans : (r : Call) → r.req.Resp → r.Ans
  | .contentWb _ _ _ time stale, resp => doWrite time stale resp
  | .attrWb _ attr stale, resp => doWriteAttr attr stale resp
  | .contentFt .., resp => doRead resp
  | .attrFt _, resp => doReadAttr resp

/-! ## The operations -/

/-- What the constructor is given, and the order in which the client's hash
maps are visited. -/
structure Config where
  blockSize : Nat
  maxCacheEntry : Nat
  evictCount : Nat
  flushInterval : Nat
  order : HashOrder

structure NetFS where
  writeOpCount : Nat
  cache : Cache

abbrev NetFSM := Prog NetFS Req.Resp

namespace NetFS

/-- A client that has just connected. -/
def new : NetFS := { writeOpCount := 0, cache := .empty }

/-- An operation of the cache. -/
def onCache {α : Type} (p : CacheM α) : NetFSM α := fun s =>
  (p s.cache).lift (fun c => { s with cache := c }) Call.req Call.ans

def invalidate (filename : Str) : NetFSM Unit := onCache (Cache.local_ (Cache.invalidate filename))

/-- The part `access` and `stat` share: a file that is marked stale, or whose
cached time is not the server's, is invalidated. -/
def checkTime (filename : Str) (time : FileTime) : NetFSM Unit := do
  let s ← Prog.get
  if s.cache.isStale filename then
    invalidate filename
  else
    match s.cache.getFileTime filename with
    | some cachedTime => if cachedTime.ne time then invalidate filename else pure ()
    | none => pure ()

def access (filename : Str) : NetFSM Unit := do
  let resp : AccessResp ← Prog.ask (Req.access filename)
  if resp.error ≠ 0 then
    invalidate filename
    Prog.throw resp.error
  else
    checkTime filename resp.time

/-- Send a request whose response is an error code. -/
def simply (r : Req) : NetFSM Unit := do
  let resp ← Prog.ask r
  if r.error resp ≠ 0 then Prog.throw (r.error resp) else pure ()

def create (filename : Str) : NetFSM Unit := simply (.create filename)

/-- `stat`; what it puts into `stbuf` are the attributes. -/
def stat (filename : Str) : NetFSM FileAttr := do
  let resp : StatResp ← Prog.ask (Req.stat filename)
  let ans := doReadAttr resp
  if ans.err ≠ 0 then
    invalidate filename
    Prog.throw ans.err
  else
    checkTime filename ans.attr.time
    pure ans.attr

def statfs : NetFSM FsStat := do
  let resp : StatfsResp ← Prog.ask Req.statfs
  if resp.error ≠ 0 then Prog.throw resp.error else pure resp.stat

def readdir (filename : Str) : NetFSM (List Str) := do
  let resp : ReaddirResp ← Prog.ask (Req.readdir filename)
  if resp.error ≠ 0 then Prog.throw resp.error else pure resp.dirNames

def evict (cfg : Config) : NetFSM Unit := do
  let s ← Prog.get
  if s.cache.countCachedBlocks > cfg.maxCacheEntry then
    onCache (Cache.evictBlocks cfg.blockSize cfg.order cfg.evictCount)
  else
    pure ()

def read (cfg : Config) (filename : Str) (offset size : Nat) : NetFSM Bytes := do
  let data ← onCache (Cache.read cfg.blockSize filename offset size)
  evict cfg
  pure data

/-- The end of `write`: every `flush_interval` writes the dirty blocks are
written back, and what that returns is ignored. -/
def countWrite (cfg : Config) : NetFSM Unit := do
  let s ← Prog.get
  Prog.set { s with writeOpCount := s.writeOpCount + 1 }
  if s.writeOpCount + 1 ≥ cfg.flushInterval then
    Prog.set { s with writeOpCount := 0 }
    (onCache (Cache.flushDirtyBlocks cfg.blockSize cfg.order)).swallow
  else
    pure ()

def write (cfg : Config) (filename : Str) (offset : Nat) (buf : Bytes) : NetFSM Unit := do
  onCache (Cache.write cfg.blockSize filename offset buf)
  evict cfg
  countWrite cfg

def truncate (cfg : Config) (filename : Str) (offset : Nat) : NetFSM Unit :=
  onCache (Cache.truncate cfg.blockSize filename offset)

/-- `unlink` and `rmdir`: what the request has removed is invalidated. -/
def remove (r : Req) (filename : Str) : NetFSM Unit := do
  let resp ← Prog.ask r
  if r.error resp ≠ 0 then Prog.throw (r.error resp) else invalidate filename

def unlink (filename : Str) : NetFSM Unit := remove (.unlink filename) filename

def rmdir (filename : Str) : NetFSM Unit := remove (.rmdir filename) filename

def mkdir (filename : Str) (mode : UInt32) : NetFSM Unit := simply (.mkdir filename mode)

def flush (cfg : Config) (filename : Str) : NetFSM Unit := onCache (Cache.flush cfg.blockSize filename)

def rename (fromName toName : Str) (flags : UInt32) : NetFSM Unit := do
  let resp : ErrorResp ← Prog.ask (Req.rename fromName toName flags)
  if resp.error ≠ 0 then
    Prog.throw resp.error
  else
    invalidate fromName
    invalidate toName

end NetFS

/-- The public operations of a client. -/
inductive Op
  | access (filename : Str)
  | create (filename : Str)
  | stat (filename : Str)
  | statfs
  | readdir (filename : Str)
  | read (filename : Str) (offset size : Nat)
  | write (filename : Str) (offset : Nat) (buf : Bytes)
  | truncate (filename : Str) (offset : Nat)
  | unlink (filename : Str)
  | rmdir (filename : Str)
  | mkdir (filename : Str) (mode : UInt32)
  | flush (filename : Str)
  | rename (fromName toName : Str) (flags : UInt32)

/-- What an operation returns beside the error code. -/
abbrev Op.Ret : Op → Type
  | .stat _ => FileAttr
  | .statfs => FsStat
  | .readdir _ => List Str
  | .read .. => Bytes
  | _ => Unit

def Op.run (cfg : Config) : (op : Op) → NetFSM op.Ret
  | .access filename => NetFS.access filename
  | .create filename => NetFS.create filename
  | .stat filename => NetFS.stat filename
  | .statfs => NetFS.statfs
  | .readdir filename => NetFS.readdir filename
  | .read filename offset size => NetFS.read cfg filename offset size
  | .write filename offset buf => NetFS.write cfg filename offset buf
  | .truncate filename offset => NetFS.truncate cfg filename offset
  | .unlink filename => NetFS.unlink filename
  | .rmdir filename => NetFS.rmdir filename
  | .mkdir filename mode => NetFS.mkdir filename mode
  | .flush filename => NetFS.flush cfg filename
  | .rename fromName toName flags => NetFS.rename fromName toName flags

end Nfs
