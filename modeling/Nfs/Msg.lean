/-
The messages (`common/msg*.hpp`, `common/msg.cpp`): 12 requests and their
responses, each with its tag, its body as it is written and its body as it
is read.

The bodies are written and read by separate functions, field by field. Where
several messages have the same fields, the functions are one with the message
as a parameter.
-/
import Nfs.Serial

namespace Nfs

open PlainFile Resume Codec

/-- `struct Stat` of `MsgStatResp`. -/
structure MsgStatResp.Stat where
  size : Int64
  mode : UInt64
  time : FileTime
  deriving DecidableEq

instance : Pod MsgStatResp.Stat :=
  Pod.map (α := Int64 × UInt64 × FileTime)
    ⟨fun p => ⟨p.1, p.2.1, p.2.2⟩, fun t => (t.size, t.mode, t.time), fun _ => rfl, fun _ => rfl⟩

inductive Msg
  | access (id : Int32) (filename : Str)
  | accessResp (id error : Int32) (time : FileTime)
  | statfs (id : Int32)
  | statfsResp (id error : Int32) (stat : FsStat)
  | create (id : Int32) (filename : Str)
  | createResp (id error : Int32)
  | stat (id : Int32) (filename : Str)
  | statResp (id error : Int32) (stat : MsgStatResp.Stat)
  | readdir (id : Int32) (filename : Str)
  | readdirResp (id error : Int32) (dirNames : List Str)
  | read (id : Int32) (filename : Str) (offset size : Int64)
  | readResp (id error : Int32) (data : Bytes)
  | write (id : Int32) (filename : Str) (offset : Int64) (data : Bytes)
  | writeResp (id error : Int32) (beforeChange afterChange : FileTime)
  | truncate (id : Int32) (filename : Str) (offset : Int64)
  | truncateResp (id error : Int32) (beforeChange afterChange : FileTime)
  | unlink (id : Int32) (filename : Str)
  | unlinkResp (id error : Int32)
  | rmdir (id : Int32) (filename : Str)
  | rmdirResp (id error : Int32)
  | mkdir (id : Int32) (filename : Str) (mode : Int32)
  | mkdirResp (id error : Int32)
  | rename (id : Int32) (fromName toName : Str) (flags : UInt32)
  | renameResp (id error : Int32)
  deriving DecidableEq

/-- `Msg::Type` -/
inductive MsgType
  | access
  | accessResp
  | statfs
  | statfsResp
  | create
  | createResp
  | stat
  | statResp
  | readdir
  | readdirResp
  | read
  | readResp
  | write
  | writeResp
  | truncate
  | truncateResp
  | unlink
  | unlinkResp
  | rmdir
  | rmdirResp
  | mkdir
  | mkdirResp
  | rename
  | renameResp
  deriving DecidableEq

def Msg.type : Msg → MsgType
  | .access .. => .access
  | .accessResp .. => .accessResp
  | .statfs .. => .statfs
  | .statfsResp .. => .statfsResp
  | .create .. => .create
  | .createResp .. => .createResp
  | .stat .. => .stat
  | .statResp .. => .statResp
  | .readdir .. => .readdir
  | .readdirResp .. => .readdirResp
  | .read .. => .read
  | .readResp .. => .readResp
  | .write .. => .write
  | .writeResp .. => .writeResp
  | .truncate .. => .truncate
  | .truncateResp .. => .truncateResp
  | .unlink .. => .unlink
  | .unlinkResp .. => .unlinkResp
  | .rmdir .. => .rmdir
  | .rmdirResp .. => .rmdirResp
  | .mkdir .. => .mkdir
  | .mkdirResp .. => .mkdirResp
  | .rename .. => .rename
  | .renameResp .. => .renameResp

/-- The enumerators, in the order of their values. -/
def MsgType.all : List MsgType :=
  [.access, .accessResp, .statfs, .statfsResp, .create, .createResp, .stat, .statResp, .readdir, .readdirResp, .read,
    .readResp, .write, .writeResp, .truncate, .truncateResp, .unlink, .unlinkResp, .rmdir, .rmdirResp, .mkdir,
    .mkdirResp, .rename, .renameResp]

/-- `(uint32_t)type` -/
def MsgType.toUInt32 (ty : MsgType) : UInt32 := UInt32.ofNat (MsgType.all.idxOf ty)

/-- `(Msg::Type)tag`, if it is one of the enumerators. -/
def MsgType.ofUInt32 (tag : UInt32) : Option MsgType := MsgType.all[tag.toNat]?

/-! ## Bodies that several messages share -/

def serializeNamed (id : Int32) (filename : Str) : List Bytes := serializePod id ++ serializeString filename

def unserializeNamed (make : Int32 → Str → Msg) : Reader Msg := do
  let id ← unserializePod Int32
  let filename ← unserializeString
  pure (make id filename)

def serializeError (id error : Int32) : List Bytes := serializePod id ++ serializePod error

def unserializeError (make : Int32 → Int32 → Msg) : Reader Msg := do
  let id ← unserializePod Int32
  let error ← unserializePod Int32
  pure (make id error)

def serializeChange (id error : Int32) (beforeChange afterChange : FileTime) : List Bytes :=
  serializePod id ++ serializePod error ++ serializePod beforeChange ++ serializePod afterChange

def unserializeChange (make : Int32 → Int32 → FileTime → FileTime → Msg) : Reader Msg := do
  let id ← unserializePod Int32
  let error ← unserializePod Int32
  let beforeChange ← unserializePod FileTime
  let afterChange ← unserializePod FileTime
  pure (make id error beforeChange afterChange)

/-- A response with one more field. -/
def unserializeResp {α : Type} (field : Reader α) (make : Int32 → Int32 → α → Msg) : Reader Msg := do
  let id ← unserializePod Int32
  let error ← unserializePod Int32
  let a ← field
  pure (make id error a)

/-! ## Writing -/

def Msg.serializeBody : Msg → List Bytes
  | .access id filename => serializeNamed id filename
  | .accessResp id error time => serializePod id ++ serializePod error ++ serializePod time
  | .statfs id => serializePod id
  | .statfsResp id error st => serializePod id ++ serializePod error ++ serializePod st
  | .create id filename => serializeNamed id filename
  | .createResp id error => serializeError id error
  | .stat id filename => serializeNamed id filename
  | .statResp id error st => serializePod id ++ serializePod error ++ serializePod st
  | .readdir id filename => serializeNamed id filename
  | .readdirResp id error dirNames =>
    serializePod id ++ serializePod error ++ serializeVector dirNames serializeString
  | .read id filename offset size =>
    serializePod id ++ serializeString filename ++ serializePod offset ++ serializePod size
  | .readResp id error data => serializePod id ++ serializePod error ++ serializeVectorChar data
  | .write id filename offset data =>
    serializePod id ++ serializeString filename ++ serializePod offset ++ serializeVectorChar data
  | .writeResp id error beforeChange afterChange => serializeChange id error beforeChange afterChange
  | .truncate id filename offset => serializePod id ++ serializeString filename ++ serializePod offset
  | .truncateResp id error beforeChange afterChange => serializeChange id error beforeChange afterChange
  | .unlink id filename => serializeNamed id filename
  | .unlinkResp id error => serializeError id error
  | .rmdir id filename => serializeNamed id filename
  | .rmdirResp id error => serializeError id error
  | .mkdir id filename mode => serializePod id ++ serializeString filename ++ serializePod mode
  | .mkdirResp id error => serializeError id error
  | .rename id fromName toName flags =>
    serializePod id ++ serializeString fromName ++ serializeString toName ++ serializePod flags
  | .renameResp id error => serializeError id error

def serializeMsg (msg : Msg) : List Bytes := serializePod msg.type.toUInt32 ++ msg.serializeBody

/-- What goes over the wire. -/
def Msg.encoding (msg : Msg) : Bytes := (serializeMsg msg).flatten

/-! ## Reading -/

def MsgAccess.unserialize : Reader Msg := unserializeNamed .access

def MsgAccessResp.unserialize : Reader Msg := unserializeResp (unserializePod FileTime) .accessResp

def MsgStatfs.unserialize : Reader Msg := do
  let id ← unserializePod Int32
  pure (.statfs id)

def MsgStatfsResp.unserialize : Reader Msg := unserializeResp (unserializePod FsStat) .statfsResp

def MsgCreate.unserialize : Reader Msg := unserializeNamed .create

def MsgCreateResp.unserialize : Reader Msg := unserializeError .createResp

def MsgStat.unserialize : Reader Msg := unserializeNamed .stat

def MsgStatResp.unserialize : Reader Msg := unserializeResp (unserializePod MsgStatResp.Stat) .statResp

def MsgReaddir.unserialize : Reader Msg := unserializeNamed .readdir

def MsgReaddirResp.unserialize : Reader Msg :=
  unserializeResp (unserializeVector sizeofString unserializeString) .readdirResp

def MsgRead.unserialize : Reader Msg := do
  let id ← unserializePod Int32
  let filename ← unserializeString
  let offset ← unserializePod Int64
  let size ← unserializePod Int64
  pure (.read id filename offset size)

def MsgReadResp.unserialize : Reader Msg := unserializeResp unserializeVectorChar .readResp

def MsgWrite.unserialize : Reader Msg := do
  let id ← unserializePod Int32
  let filename ← unserializeString
  let offset ← unserializePod Int64
  let data ← unserializeVectorChar
  pure (.write id filename offset data)

def MsgWriteResp.unserialize : Reader Msg := unserializeChange .writeResp

def MsgTruncate.unserialize : Reader Msg := do
  let id ← unserializePod Int32
  let filename ← unserializeString
  let offset ← unserializePod Int64
  pure (.truncate id filename offset)

def MsgTruncateResp.unserialize : Reader Msg := unserializeChange .truncateResp

def MsgUnlink.unserialize : Reader Msg := unserializeNamed .unlink

def MsgUnlinkResp.unserialize : Reader Msg := unserializeError .unlinkResp

def MsgRmdir.unserialize : Reader Msg := unserializeNamed .rmdir

def MsgRmdirResp.unserialize : Reader Msg := unserializeError .rmdirResp

def MsgMkdir.unserialize : Reader Msg := do
  let id ← unserializePod Int32
  let filename ← unserializeString
  let mode ← unserializePod Int32
  pure (.mkdir id filename mode)

def MsgMkdirResp.unserialize : Reader Msg := unserializeError .mkdirResp

def MsgRename.unserialize : Reader Msg := do
  let id ← unserializePod Int32
  let fromName ← unserializeString
  let toName ← unserializeString
  let flags ← unserializePod UInt32
  pure (.rename id fromName toName flags)

def MsgRenameResp.unserialize : Reader Msg := unserializeError .renameResp

def unserializorLookup : MsgType → Reader Msg
  | .access => MsgAccess.unserialize
  | .accessResp => MsgAccessResp.unserialize
  | .statfs => MsgStatfs.unserialize
  | .statfsResp => MsgStatfsResp.unserialize
  | .create => MsgCreate.unserialize
  | .createResp => MsgCreateResp.unserialize
  | .stat => MsgStat.unserialize
  | .statResp => MsgStatResp.unserialize
  | .readdir => MsgReaddir.unserialize
  | .readdirResp => MsgReaddirResp.unserialize
  | .read => MsgRead.unserialize
  | .readResp => MsgReadResp.unserialize
  | .write => MsgWrite.unserialize
  | .writeResp => MsgWriteResp.unserialize
  | .truncate => MsgTruncate.unserialize
  | .truncateResp => MsgTruncateResp.unserialize
  | .unlink => MsgUnlink.unserialize
  | .unlinkResp => MsgUnlinkResp.unserialize
  | .rmdir => MsgRmdir.unserialize
  | .rmdirResp => MsgRmdirResp.unserialize
  | .mkdir => MsgMkdir.unserialize
  | .mkdirResp => MsgMkdirResp.unserialize
  | .rename => MsgRename.unserialize
  | .renameResp => MsgRenameResp.unserialize

/-- `std::out_of_range`, which `at` throws. -/
def outOfRange : Int := 2

/-- `unserializorLookup.at((Msg::Type)tag)` -/
def unserializorAt (tag : UInt32) : Reader Msg :=
  match MsgType.ofUInt32 tag with
  | some type => unserializorLookup type
  | none => Prog.throw outOfRange

def unserializeMsg : Reader Msg := do
  let tag ← unserializePod UInt32
  unserializorAt tag

end Nfs
