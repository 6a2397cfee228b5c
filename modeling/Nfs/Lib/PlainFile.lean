/-
A plain file: a list of bytes that reads as zero past its end, with the
three calls that touch it (`pread`, `pwrite`, `ftruncate`), each described
byte by byte (`byteAt`) and by its length. Two files are equal when their
lengths and their bytes are (`ext_byteAt`), so a fact about content is
proved one offset at a time.
-/
import Mathlib.Algebra.Ring.Nat
import Mathlib.Data.List.Basic

namespace PlainFile

abbrev Bytes := List UInt8

/-- The byte at an offset, zero past the end. -/
def byteAt (c : Bytes) (i : Nat) : UInt8 := c.getD i 0

/-- At most `n` bytes from `off`, cut at the end of the file. -/
def pread (c : Bytes) (off n : Nat) : Bytes := (c.drop off).take n

/-- The file at exactly `n` bytes: cut, or filled up with zeros. -/
def ftruncate (c : Bytes) (n : Nat) : Bytes := c.take n ++ List.replicate (n - c.length) 0

/-- `data` stored at `off`. A write of nothing changes nothing; one past the
end leaves zeros in the gap. -/
def pwrite (c : Bytes) (off : Nat) (data : Bytes) : Bytes :=
  if data = [] then c else ftruncate c off ++ data ++ c.drop (off + data.length)

variable {c c' data : Bytes} {i off n : Nat}

theorem byteAt_of_lt {b : Bytes} (h : i < b.length) : byteAt b i = b[i] := by
  simp [byteAt, List.getD_eq_getElem?_getD, h]

theorem byteAt_of_le (h : c.length ≤ i) : byteAt c i = 0 := by
  simp [byteAt, List.getD_eq_getElem?_getD, h]

theorem byteAt_append : byteAt (c ++ c') i = if i < c.length then byteAt c i else byteAt c' (i - c.length) := by
  simp only [byteAt, List.getD_eq_getElem?_getD, List.getElem?_append]
  split <;> rfl

theorem byteAt_take : byteAt (c.take n) i = if i < n then byteAt c i else 0 := by
  simp only [byteAt, List.getD_eq_getElem?_getD, List.getElem?_take]
  split <;> rfl

@[simp] theorem byteAt_drop : byteAt (c.drop n) i = byteAt c (n + i) := by
  simp [byteAt, List.getD_eq_getElem?_getD]

@[simp] theorem byteAt_replicate_zero : byteAt (List.replicate n 0) i = 0 := by
  simp only [byteAt, List.getD_eq_getElem?_getD, List.getElem?_replicate]
  split <;> rfl

theorem ext_byteAt (hlen : c.length = c'.length) (h : ∀ i, byteAt c i = byteAt c' i) : c = c' := by
  refine List.ext_getElem hlen fun i h₁ h₂ => ?_
  rw [← byteAt_of_lt h₁, ← byteAt_of_lt h₂, h]

/-! ## The calls -/

@[simp] theorem length_pread : (pread c off n).length = min n (c.length - off) := by simp [pread]

theorem byteAt_pread : byteAt (pread c off n) i = if i < n then byteAt c (off + i) else 0 := by
  simp [pread, byteAt_take]

@[simp] theorem length_ftruncate : (ftruncate c n).length = n := by simp [ftruncate]; omega

theorem byteAt_ftruncate : byteAt (ftruncate c n) i = if i < n then byteAt c i else 0 := by
  simp only [ftruncate, byteAt_append, byteAt_take, byteAt_replicate_zero, List.length_take]
  split
  · rfl
  · split
    · rw [byteAt_of_le (by omega)]
    · rfl

@[simp] theorem pwrite_nil : pwrite c off [] = c := by simp [pwrite]

theorem length_pwrite (h : data ≠ []) : (pwrite c off data).length = max c.length (off + data.length) := by
  simp [pwrite, h]; omega

theorem byteAt_pwrite :
    byteAt (pwrite c off data) i =
      if off ≤ i ∧ i < off + data.length then byteAt data (i - off) else byteAt c i := by
  by_cases h : data = []
  · subst h
    rw [pwrite_nil, if_neg (by simp)]
  simp only [pwrite, h, if_false, byteAt_append, byteAt_drop, byteAt_ftruncate, length_ftruncate,
    List.length_append]
  by_cases h₁ : i < off
  · have h₂ : i < off + data.length := by omega
    simp only [h₁, h₂, if_true, show ¬ off ≤ i by omega, false_and, if_false]
  · by_cases h₂ : i < off + data.length
    · simp only [h₁, h₂, if_true, if_false, show off ≤ i by omega, and_self]
    · rw [if_neg h₂, if_neg fun h => h₂ h.2]
      congr 1; omega

theorem ftruncate_self (h : c.length = n) : ftruncate c n = c :=
  ext_byteAt (by simp [h]) fun i => by
    rw [byteAt_ftruncate]
    split
    · rfl
    · exact (byteAt_of_le (by omega)).symm

/-- Two reads that follow one another. -/
theorem pread_add {m : Nat} : pread c off (m + n) = pread c off m ++ pread c (off + m) n := by
  rw [pread, pread, pread, List.take_add, List.drop_drop]

end PlainFile
