/-
`client_src/main.cpp`: the mounted file system.

A callback calls an operation of the client and returns what the kernel
expects: the negated error, or a count. What it leaves in its buffers is
part of the result. `Mount.nfsInit` makes the client's parameters of the
options; `atoi` is that of the C library, which reads a `long` and cuts it.

The callbacks are called one at a time.
-/
import Mathlib.Algebra.Ring.Int.Defs
import Nfs.Client
import Nfs.FileOp
import Nfs.Lib.Layers

namespace Nfs

open PlainFile Resume

/-! ## Options -/

namespace Mount

def isSpace (c : UInt8) : Bool := c = 32 || (9 ≤ c && c ≤ 13)

def isDigit (c : UInt8) : Bool := 48 ≤ c && c ≤ 57

/-- The decimal digits at the beginning. -/
def digits (s : Str) : Int := (s.takeWhile isDigit).foldl (fun n c => 10 * n + (c.toNat - 48)) 0

/-- `strtol(s, NULL, 10)` -/
def strtol (s : Str) : Int :=
  let v := match s.dropWhile isSpace with
    | 45 :: s => - digits s
    | 43 :: s => digits s
    | s => digits s
  max (-2 ^ 63) (min (2 ^ 63 - 1) v)

def atoi (s : Str) : Int := toInt (strtol s)

/-- Conversion of an `int` to `size_t`. -/
def sizeT (v : Int) : Nat := (v % 2 ^ 64).toNat

/-- Zero stands for the default. -/
def orDefault (n default : Nat) : Nat := if n = 0 then default else n

structure Options where
  /-- in kb -/
  blockSize : Str
  /-- in MB -/
  cacheSize : Str
  evictCount : Str
  flushInterval : Str

/-- The `NetFS` that is constructed. -/
def nfsInit (options : Options) (order : HashOrder) : Config :=
  let k := 2 ^ 10
  let blockSize := orDefault (sizeT (atoi options.blockSize)) 4
  let cacheSize := orDefault (sizeT (atoi options.cacheSize)) 256
  let maxEntry := orDefault (cacheSize * k % 2 ^ 64 / blockSize) 1024
  let evictCount := orDefault (sizeT (atoi options.evictCount)) 100
  let flushInterval := orDefault (sizeT (atoi options.flushInterval)) 10000
  { blockSize := blockSize * k % 2 ^ 64, maxCacheEntry := maxEntry, evictCount := evictCount,
    flushInterval := flushInterval, order := order }

/-- What `main` sets before it parses the options. -/
def defaults : Options := ⟨[], [], [], []⟩

theorem toInt_bounds (v : Int) : -2 ^ 31 ≤ toInt v ∧ toInt v < 2 ^ 31 := by
  have hm : ((2 ^ 32 : Nat) : Int) = 4294967296 := rfl
  rw [toInt, Int.bmod_def, hm]
  split <;> omega

theorem orDefault_pos {n d : Nat} (hd : 0 < d) : 0 < orDefault n d := by
  unfold orDefault
  split <;> omega

/-- **Whatever the options are**, the client gets parameters it can work with. -/
theorem nfsInit_pos (options : Options) (order : HashOrder) :
    0 < (nfsInit options order).blockSize ∧ 0 < (nfsInit options order).maxCacheEntry ∧
      0 < (nfsInit options order).evictCount ∧ 0 < (nfsInit options order).flushInterval := by
  refine ⟨?_, orDefault_pos (by decide), orDefault_pos (by decide), orDefault_pos (by decide)⟩
  obtain ⟨hlo, hhi⟩ := toInt_bounds (strtol options.blockSize)
  show 0 < orDefault (sizeT (atoi options.blockSize)) 4 * 2 ^ 10 % 2 ^ 64
  unfold atoi
  generalize toInt (strtol options.blockSize) = v at hlo hhi
  unfold orDefault sizeT
  split <;> omega

example : (nfsInit defaults .inserted).blockSize = 4096 ∧ (nfsInit defaults .inserted).maxCacheEntry = 65536 := by
  decide

end Mount

/-! ## Callbacks -/

/-- The error an operation returns. -/
def NetFS.code (p : NetFSM Unit) : NetFSM Int := do
  match ← p.attempt with
  | .error err => pure err
  | .ok _ => pure 0

section
variable (cfg : Config)

/-- What is put into `stbuf`, unless there is an error. -/
def nfsGetattr (path : Str) : NetFSM (Int × Option FileAttr) := do
  match ← (NetFS.stat path).attempt with
  | .error err => pure (-err, none)
  | .ok attr => pure (0, some attr)

/-- The names `filler` is called with. -/
def nfsReaddir (path : Str) : NetFSM (Int × List Str) := do
  match ← (NetFS.readdir path).attempt with
  | .error err => pure (-err, [])
  | .ok dirs => pure (0, dirs.map cStr)

def nfsRead (path : Str) (size offset : Nat) : NetFSM (Int × Bytes) := do
  match ← (NetFS.read cfg path offset size).attempt with
  | .error err => pure (-err, [])
  | .ok buf => pure (toInt buf.length, buf)

def nfsWrite (path : Str) (buf : Bytes) (offset : Nat) : NetFSM Int := do
  let err ← NetFS.code (NetFS.write cfg path offset buf)
  if err ≠ 0 then pure (-err) else pure (toInt buf.length)

/-- `trunc` is the flag `O_TRUNC`. -/
def nfsOpen (path : Str) (trunc : Bool) : NetFSM Int := do
  let err ← NetFS.code (NetFS.access path)
  if err = 0 ∧ trunc then do
    let err ← NetFS.code (NetFS.truncate cfg path 0)
    pure (-err)
  else pure (-err)

/-- The callbacks that only return the negated error. -/
def negated (p : NetFSM Unit) : NetFSM Int := do
  let err ← NetFS.code p
  pure (-err)

def nfsCreate (path : Str) : NetFSM Int := negated (NetFS.create path)

def nfsTruncate (path : Str) (offset : Nat) : NetFSM Int := negated (NetFS.truncate cfg path offset)

def nfsUnlink (path : Str) : NetFSM Int := negated (NetFS.unlink path)

def nfsRmdir (path : Str) : NetFSM Int := negated (NetFS.rmdir path)

/-- `S_IRWXU | S_IRWXG | S_IRWXO`, whatever mode is asked for. -/
def nfsMkdir (path : Str) : NetFSM Int := negated (NetFS.mkdir path 511)

def nfsFlush (path : Str) : NetFSM Int := negated (NetFS.flush cfg path)

def nfsStatfs : NetFSM (Int × Option FsStat) := do
  match ← NetFS.statfs.attempt with
  | .error err => pure (-err, none)
  | .ok buf => pure (0, some buf)

def nfsChmod : NetFSM Int := pure 0

def nfsChown : NetFSM Int := pure 0

def nfsRename (fromPath toPath : Str) (flags : UInt32) : NetFSM Int := negated (NetFS.rename fromPath toPath flags)

end

/-- The callbacks in `nfs_oper`, with the arguments that are used. -/
inductive Callback
  | getattr (path : Str)
  | readdir (path : Str)
  | read (path : Str) (size offset : Nat)
  | write (path : Str) (buf : Bytes) (offset : Nat)
  | open_ (path : Str) (trunc : Bool)
  | create (path : Str)
  | truncate (path : Str) (offset : Nat)
  | unlink (path : Str)
  | rmdir (path : Str)
  | mkdir (path : Str)
  | flush (path : Str)
  | statfs
  | chmod
  | chown
  | rename (fromPath toPath : Str) (flags : UInt32)

abbrev Callback.Ret : Callback → Type
  | .getattr _ => Int × Option FileAttr
  | .readdir _ => Int × List Str
  | .read .. => Int × Bytes
  | .statfs => Int × Option FsStat
  | _ => Int

def Callback.run (cfg : Config) : (c : Callback) → NetFSM c.Ret
  | .getattr path => nfsGetattr path
  | .readdir path => nfsReaddir path
  | .read path size offset => nfsRead cfg path size offset
  | .write path buf offset => nfsWrite cfg path buf offset
  | .open_ path trunc => nfsOpen cfg path trunc
  | .create path => nfsCreate path
  | .truncate path offset => nfsTruncate cfg path offset
  | .unlink path => nfsUnlink path
  | .rmdir path => nfsRmdir path
  | .mkdir path => nfsMkdir path
  | .flush path => nfsFlush cfg path
  | .statfs => nfsStatfs
  | .chmod => nfsChmod
  | .chown => nfsChown
  | .rename fromPath toPath flags => nfsRename fromPath toPath flags

/-- A program that uses the mounted file system: its requests are callbacks. -/
abbrev UserM := Prog Unit Callback.Ret

/-- The program, running over the client's connection. -/
def mounted {α : Type} (cfg : Config) (u : Act Unit Callback.Ret α) : NetFSM (Unit × Outcome α) :=
  u.via (Callback.run cfg)

end Nfs
