/-
`class CacheEntry` (`client_src/cache.hpp`): one cached block, with the
ranges of it that are valid.

An entry is judged by its valid bytes (`CacheEntry.byte`): a write sets the
bytes it covers and makes the block dirty (`write_spec`), a fetch sets only
the bytes that were not valid (`fetch_spec`), and the syntactic test for a
full block is right for well-formed entries (`isFull_iff`).
-/
import Nfs.Range
import Nfs.Types

namespace Nfs

open Intervals PlainFile

/-- `CacheEntry::State`. -/
inductive State
  | clean
  | dirty
  deriving DecidableEq, Repr

structure CacheEntry where
  state : State
  data : Bytes
  validRanges : RangeList
  /-- The list node `_use_record` points to. -/
  useRecord : Nat
  deriving DecidableEq, Repr

/-- `std::copy(src, src + size, &dst[off])`. -/
def copyInto (dst : Bytes) (off : Nat) (src : Bytes) : Bytes :=
  dst.take off ++ src ++ dst.drop (off + src.length)

namespace CacheEntry

/-- The constructor: all zeros, nothing valid. -/
def new (blockSize useRecord : Nat) : CacheEntry :=
  { state := .clean, data := List.replicate blockSize 0, validRanges := [], useRecord := useRecord }

def blockSize (e : CacheEntry) : Nat := e.data.length

def fetch (e : CacheEntry) (fetchData : Bytes) : Option CacheEntry :=
  -- `assert(fetch_data.size() == blockSize())`
  if fetchData.length = e.blockSize then do
    let ranges ← e.validRanges.insertRange 0 e.blockSize
    some { e with data := overlay e.data e.validRanges fetchData, validRanges := ranges }
  else none

def write (e : CacheEntry) (offset : Nat) (buf : Bytes) : Option CacheEntry :=
  -- `assert(offset + size <= blockSize())`
  if offset + buf.length ≤ e.blockSize then do
    let ranges ← e.validRanges.insertRange offset (offset + buf.length)
    some { e with data := copyInto e.data offset buf, validRanges := ranges, state := .dirty }
  else none

/-- `entry.clean()`. -/
def cleaned (e : CacheEntry) : CacheEntry := { e with state := .clean }

/-- The test of `Cache::isFullBlock` on an entry that is there. -/
def isFull (blockSize : Nat) (e : CacheEntry) : Bool :=
  match e.validRanges with
  | [r] => r.start == 0 && r.stop == blockSize
  | _ => false

/-- The byte at an offset of the block, when it is valid. -/
def byte (e : CacheEntry) (i : Nat) : Option UInt8 :=
  if Covers e.validRanges i then some (byteAt e.data i) else none

/-- The data fills the block, and the valid ranges are gapped and inside it. -/
structure Wf (B : Nat) (e : CacheEntry) : Prop where
  length : e.data.length = B
  gapped : Gapped e.validRanges
  inside : ∀ i, Covers e.validRanges i → i < B

variable {B : Nat} {e : CacheEntry}

theorem byte_eq_some {i : Nat} {v : UInt8} :
    e.byte i = some v ↔ Covers e.validRanges i ∧ byteAt e.data i = v := by
  simp [byte]

theorem new_wf {a : Nat} : (new B a).Wf B := ⟨by simp [new], Gapped.nil, by simp [new]⟩

@[simp] theorem new_byte {a i : Nat} : (new B a).byte i = none := by simp [new, byte]

theorem length_copyInto {dst src : Bytes} {off : Nat} (h : off + src.length ≤ dst.length) :
    (copyInto dst off src).length = dst.length := by
  simp [copyInto]; omega

theorem byteAt_copyInto {dst src : Bytes} {off i : Nat} (h : off + src.length ≤ dst.length) :
    byteAt (copyInto dst off src) i =
      if off ≤ i ∧ i < off + src.length then byteAt src (i - off) else byteAt dst i := by
  simp only [copyInto, byteAt_append, byteAt_take, byteAt_drop, List.length_append, List.length_take]
  rw [Nat.min_eq_left (by omega)]
  by_cases h₁ : i < off
  · simp only [h₁, if_true, show i < off + src.length by omega, show ¬ off ≤ i by omega, false_and, if_false]
  · by_cases h₂ : i < off + src.length
    · simp only [h₁, h₂, if_true, if_false, show off ≤ i by omega, and_self]
    · rw [if_neg h₂, if_neg fun h => h₂ h.2]
      congr 1; omega

/-- A write inside the block sets its bytes, keeps the others, and makes the
block dirty. -/
theorem write_spec (h : e.Wf B) {offset : Nat} {buf : Bytes} (hne : buf ≠ []) (hle : offset + buf.length ≤ B) :
    ∃ e', e.write offset buf = some e' ∧ e'.Wf B ∧ e'.state = .dirty ∧ e'.useRecord = e.useRecord ∧
      ∀ i, e'.byte i =
        if offset ≤ i ∧ i < offset + buf.length then some (byteAt buf (i - offset)) else e.byte i := by
  have hpos : 0 < buf.length := List.length_pos_iff.mpr hne
  have hlen := h.length
  obtain ⟨ranges, hr, hg, hc⟩ := RangeList.insertRange_spec h.gapped (show offset < offset + buf.length by omega)
  refine ⟨{ e with data := copyInto e.data offset buf, validRanges := ranges, state := .dirty }, ?_, ?_, rfl, rfl,
    fun i => ?_⟩
  · simp only [write, blockSize, hlen, hle, if_true, hr]; rfl
  · refine ⟨(length_copyInto (by omega)).trans hlen, hg, fun i hi => ?_⟩
    rcases (hc i).mp hi with hi | hi
    · exact h.inside i hi
    · omega
  · simp only [byte, hc, byteAt_copyInto (show offset + buf.length ≤ e.data.length by omega)]
    by_cases hi : offset ≤ i ∧ i < offset + buf.length <;> simp [hi]

/-- A fetch makes every byte valid and changes none that was. -/
theorem fetch_spec (h : e.Wf B) (hB : 0 < B) {data : Bytes} (hd : data.length = B) :
    ∃ e', e.fetch data = some e' ∧ e'.Wf B ∧ e'.state = e.state ∧ e'.useRecord = e.useRecord ∧
      ∀ i, e'.byte i = if i < B then some ((e.byte i).getD (byteAt data i)) else none := by
  have hlen := h.length
  obtain ⟨ranges, hr, hg, hc⟩ := RangeList.insertRange_spec h.gapped hB
  obtain ⟨hl, hb⟩ := overlay_spec e.data e.validRanges data
  have hcov : ∀ i, Covers ranges i ↔ i < B := fun i => by
    rw [hc]; exact ⟨fun hi => hi.elim (h.inside i) (·.2), fun hi => .inr ⟨Nat.zero_le _, hi⟩⟩
  refine ⟨{ e with data := overlay e.data e.validRanges data, validRanges := ranges }, ?_, ?_, rfl, rfl,
    fun i => ?_⟩
  · simp only [fetch, blockSize, hlen, hd, if_true, hr]; rfl
  · exact ⟨hl.trans hd, hg, fun i hi => (hcov i).mp hi⟩
  · simp only [byte, hcov, hb, hd]
    by_cases hi : i < B <;> by_cases hv : Covers e.validRanges i <;> simp [hi, hv]

@[simp] theorem cleaned_byte {i : Nat} : e.cleaned.byte i = e.byte i := rfl

theorem Wf.cleaned (h : e.Wf B) : e.cleaned.Wf B := ⟨h.length, h.gapped, h.inside⟩

theorem isSome_byte {i : Nat} : (e.byte i).isSome ↔ Covers e.validRanges i := by simp [byte]

/-- The test for a full block finds out whether every byte is valid. -/
theorem isFull_iff (h : e.Wf B) (hB : 0 < B) : e.isFull B = true ↔ ∀ i, i < B → (e.byte i).isSome := by
  simp only [isSome_byte]
  constructor
  · intro hf i hi
    unfold isFull at hf
    split at hf
    · rename_i r hr
      simp only [Bool.and_eq_true, beq_iff_eq] at hf
      rw [hr]
      exact covers_cons.mpr (.inl ⟨by omega, by omega⟩)
    · simp at hf
  · intro hall
    have : e.validRanges = [⟨0, B⟩] := Gapped.ext h.gapped ⟨by simpa using hB, by simp⟩ fun i => by
      simp only [covers_cons, covers_nil, or_false, Interval.Mem, Nat.zero_le, true_and]
      exact ⟨h.inside i, hall i⟩
    simp [isFull, this]

end CacheEntry

end Nfs
