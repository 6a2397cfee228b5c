/-
Types the client, the server and the messages share: strings as the byte
sequences `std::string` holds, and the time stamps of `common/time.hpp`.
-/
import Nfs.Lib.PlainFile

namespace Nfs

/-- `std::string`: any sequence of bytes. -/
abbrev Str := List UInt8

structure TimeSpec where
  timeSec : Int64
  timeNsec : Int64
  deriving DecidableEq, Repr

structure FileTime where
  atime : TimeSpec
  ctime : TimeSpec
  mtime : TimeSpec
  deriving DecidableEq, Repr

def FileTime.epoch : FileTime := ⟨⟨0, 0⟩, ⟨0, 0⟩, ⟨0, 0⟩⟩

/-- `operator==(TimeSpec, TimeSpec)`. -/
def TimeSpec.eq (t1 t2 : TimeSpec) : Bool := t1.timeSec == t2.timeSec && t1.timeNsec == t2.timeNsec

/-- `operator==(FileTime, FileTime)`: the access time is not compared. -/
def FileTime.eq (t1 t2 : FileTime) : Bool := t1.mtime.eq t2.mtime && t1.ctime.eq t2.ctime

/-- `operator!=(FileTime, FileTime)`. -/
def FileTime.ne (t1 t2 : FileTime) : Bool := !(t1.eq t2)

/-- What `FileTime.eq` compares. -/
def FileTime.stamp (t : FileTime) : TimeSpec × TimeSpec := (t.mtime, t.ctime)

theorem TimeSpec.eq_iff {t1 t2 : TimeSpec} : t1.eq t2 = true ↔ t1 = t2 := by
  cases t1; cases t2; simp [TimeSpec.eq]

theorem FileTime.eq_iff {t1 t2 : FileTime} : t1.eq t2 = true ↔ t1.stamp = t2.stamp := by
  simp [FileTime.eq, FileTime.stamp, TimeSpec.eq_iff]

theorem FileTime.ne_iff {t1 t2 : FileTime} : t1.ne t2 = true ↔ t1.stamp ≠ t2.stamp := by
  rw [FileTime.ne, Bool.not_eq_true', ← Bool.not_eq_true, FileTime.eq_iff]

end Nfs
