/-
The rest of `class FileOp` (`server_src/fileop.cpp`), over all the system
calls the server makes.

`write` and `truncate` are programs over the calls of `SysCall`; here these
are among the calls of `HostCall`. As before the state of a program is
`errno`, and what the functions leave in their reference parameters is part
of the result.
-/
import Nfs.FileOp

namespace Nfs

open PlainFile Resume

/-! ## Host calls -/

inductive HostCall
  | sys (c : SysCall)
  /-- `access(path, R_OK | W_OK)` -/
  | access (path : Str)
  /-- `open(path, O_RDONLY)` -/
  | openR (path : Str)
  /-- `open(path, O_WRONLY | O_CREAT | O_TRUNC, 00777)` -/
  | openT (path : Str)
  | read (fd size : Nat)
  | statvfs (path : Str)
  | opendir (path : Str)
  /-- `readdir(dir)`, called until it returns a null pointer -/
  | readdir (dir : Nat)
  | closedir (dir : Nat)
  | unlink (path : Str)
  | rmdir (path : Str)
  | mkdir (path : Str) (mode : UInt32)
  | rename (fromPath toPath : Str)

/-- `d_name`, an array of 256 characters with a zero at the end. -/
abbrev EntryName := { name : Str // name.length < 256 }

/-- The entries `readdir` has delivered, and the error it has ended with, if
that is why it has ended. -/
structure Listing where
  names : List EntryName
  error : Option Int
  countable : names.length < 2 ^ 64

/-- What a call returns that succeeds. -/
abbrev HostCall.Val : HostCall → Type
  | .sys c => c.Val
  | .access _ => Unit
  | .openR _ => Nat
  | .openT _ => Nat
  | .read _ size => { buf : Bytes // buf.length ≤ size }
  | .statvfs _ => FsStat
  | .opendir _ => Nat
  | .readdir _ => Listing
  | .closedir _ => Unit
  | .unlink _ => Unit
  | .rmdir _ => Unit
  | .mkdir .. => Unit
  | .rename .. => Unit

abbrev HostCall.Ans (c : HostCall) : Type := Except Int c.Val

abbrev HostM := Prog Int HostCall.Ans

/-- Make a call; `none` is the return value -1, or a null pointer. -/
def host (c : HostCall) : HostM (Option c.Val) := do
  match ← Prog.ask c with
  | .ok v => pure (some v)
  | .error e => do
    Prog.set e
    pure none

/-- A program over `SysCall`. -/
def onHost {α : Type} (p : ServerM α) : HostM α := fun s => (p s).lift id HostCall.sys fun _ a => a

/-! ## The functions -/

namespace FileOp

variable (root : Str)

def access (fpath : Str) (time : FileTime) : HostM (Int × FileTime) := do
  let filename := root ++ fpath
  match ← host (.access (cStr filename)) with
  | none => pure (← Prog.get, time)
  | some _ => do
    let (err, time) ← onHost (loadTime filename time)
    if err < 0 then pure (← Prog.get, time) else pure (0, time)

def creat (fpath : Str) : HostM Int := do
  let filename := root ++ fpath
  match ← host (.openT (cStr filename)) with
  | none => Prog.get
  | some fd => do
    let _ ← host (.sys (.close fd))
    pure 0

def stat (fpath : Str) (stbuf : StatBuf) : HostM (Int × StatBuf) := do
  let filename := root ++ fpath
  match ← host (.sys (.stat (cStr filename))) with
  | none => pure (← Prog.get, stbuf)
  | some stbuf => pure (0, stbuf)

def statfs (stat : FsStat) : HostM (Int × FsStat) := do
  match ← host (.statvfs (cStr root)) with
  | none => pure (← Prog.get, stat)
  | some stbuf => pure (0, stbuf)

/-- The entries are appended to an empty list. -/
def readdir (fpath : Str) : HostM (Int × List Str) := do
  let filename := root ++ fpath
  match ← host (.opendir (cStr filename)) with
  | none => pure (← Prog.get, [])
  | some dirs => do
    Prog.set 0
    let names ← match ← host (.readdir dirs) with
      | none => pure []
      | some listing => do
        match listing.error with
        | some e => Prog.set e
        | none => pure ()
        pure (listing.names.map (·.1))
    let _ ← host (.closedir dirs)
    pure (← Prog.get, names)

/-- The loop of `read`, which has `buf` so far and whose last call returned
`readSize`. Every round but the last one gets something, so `size` rounds are
enough. -/
def readLoop (fd size : Nat) : Nat → Int → Bytes → HostM (Int × Bytes)
  | 0, readSize, buf => pure (readSize, buf)
  | rounds + 1, readSize, buf =>
    if buf.length < size then do
      match ← host (.read fd (size - buf.length)) with
      | none => pure (-1, buf)
      | some got =>
        if got.1.length ≤ 0 then pure (got.1.length, buf) else readLoop fd size rounds got.1.length (buf ++ got.1)
    else pure (readSize, buf)

/-- The error and the first `total_read` bytes of the buffer. -/
def read (fpath : Str) (offset : Int) (size : Nat) : HostM (Int × Bytes) := do
  let filename := root ++ fpath
  match ← host (.openR (cStr filename)) with
  | none => pure (← Prog.get, [])
  | some fd => do
    let pos ← host (.sys (.lseek fd offset))
    if toInt (pos.getD (-1)) < 0 then do
      let _ ← host (.sys (.close fd))
      pure (← Prog.get, [])
    else do
      let (readSize, buf) ← readLoop fd size size 0 []
      Prog.assert (buf.length ≤ size)
      let _ ← host (.sys (.close fd))
      if readSize ≥ 0 then pure (0, buf) else pure (← Prog.get, buf)

/-- `unlink`, `rmdir`, `mkdir` and `rename`: 0, or `errno`. -/
def plainly (c : HostCall) : HostM Int := do
  match ← host c with
  | none => Prog.get
  | some _ => pure 0

def unlink (fpath : Str) : HostM Int := plainly (.unlink (cStr (root ++ fpath)))

def rmdir (fpath : Str) : HostM Int := plainly (.rmdir (cStr (root ++ fpath)))

def mkdir (fpath : Str) (mode : UInt32) : HostM Int := plainly (.mkdir (cStr (root ++ fpath)) mode)

/-- The flags are not looked at. -/
def rename (fromName toName : Str) (_flags : UInt32) : HostM Int :=
  plainly (.rename (cStr (root ++ fromName)) (cStr (root ++ toName)))

end FileOp

end Nfs
