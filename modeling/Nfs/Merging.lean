/-
What a block holds after any sequence of writes, fetches and `clean()`.

A byte is that of the last write to it, or else that of the first fetch
(`mergedByte`); a block is dirty if it has been written to since it was last
cleaned. One operation keeps this (`HasHistory.step`), so a sequence does
(`CacheEntry.runs_hasHistory`).
-/
import Mathlib.Data.List.DropRight
import Nfs.Cache

namespace Nfs

open PlainFile Intervals

/-- What changes an entry. -/
inductive EntryOp
  | write (offset : Nat) (buf : Bytes)
  | fetch (fetchData : Bytes)
  | clean
  deriving DecidableEq

namespace EntryOp

def run : EntryOp → CacheEntry → Option CacheEntry
  | .write offset buf, e => e.write offset buf
  | .fetch fetchData, e => e.fetch fetchData
  | .clean, e => some e.cleaned

/-- The asserts of `write`, `insertRange` and `fetch`, for blocks of `B`
bytes. -/
def Fits (B : Nat) : EntryOp → Prop
  | .write offset buf => offset + buf.length ≤ B ∧ 0 < buf.length
  | .fetch fetchData => fetchData.length = B
  | .clean => True

instance (B : Nat) : (op : EntryOp) → Decidable (op.Fits B)
  | .write offset buf => inferInstanceAs (Decidable (offset + buf.length ≤ B ∧ 0 < buf.length))
  | .fetch fetchData => inferInstanceAs (Decidable (fetchData.length = B))
  | .clean => inferInstanceAs (Decidable True)

/-- A write that covers byte `i`. -/
def WritesTo (i : Nat) : EntryOp → Prop
  | .write offset buf => offset ≤ i ∧ i < offset + buf.length
  | _ => False

def isWrite : EntryOp → Bool
  | .write .. => true
  | _ => false

def isFetch : EntryOp → Bool
  | .fetch _ => true
  | _ => false

def isClean : EntryOp → Bool
  | .clean => true
  | _ => false

/-- What a write stores in byte `i`. -/
def stored (i : Nat) : EntryOp → Option UInt8
  | .write offset buf => if offset ≤ i ∧ i < offset + buf.length then some (byteAt buf (i - offset)) else none
  | _ => none

/-- What a fetch brings for byte `i`. -/
def fetched (i : Nat) : EntryOp → Option UInt8
  | .fetch fetchData => some (byteAt fetchData i)
  | _ => none

variable {i : Nat} {op : EntryOp}

theorem isSome_stored : (op.stored i).isSome ↔ op.WritesTo i := by
  cases op <;> simp [stored, WritesTo]

theorem isSome_fetched : (op.fetched i).isSome ↔ op.isFetch = true := by
  cases op <;> simp [fetched, isFetch]

theorem stored_eq_none (h : ¬ op.WritesTo i) : op.stored i = none := by
  rw [← isSome_stored] at h
  simpa using h

theorem fetched_eq_none (h : op.isFetch = false) : op.fetched i = none := by
  cases op with
  | fetch => cases h
  | _ => rfl

end EntryOp

/-! ## The history of a block -/

/-- Byte `i` after `ops`: that of the last write to it, or else that of the
first fetch. -/
def mergedByte (i : Nat) (ops : List EntryOp) : Option UInt8 :=
  (ops.reverse.findSome? (·.stored i)).or (ops.findSome? (·.fetched i))

/-- The operations since the last `clean()`, or since the start. -/
def sinceLastClean (ops : List EntryOp) : List EntryOp := ops.rtakeWhile fun op => !op.isClean

section
variable {i : Nat} {ops pre post : List EntryOp} {op : EntryOp}

theorem mergedByte_concat : mergedByte i (ops ++ [op]) =
    ((op.stored i).or (ops.reverse.findSome? (·.stored i))).or ((ops.findSome? (·.fetched i)).or (op.fetched i)) := by
  simp only [mergedByte, List.reverse_append, List.findSome?_append]
  cases hs : op.stored i <;> cases hf : op.fetched i <;> simp [hs, hf]

theorem isSome_mergedByte : (mergedByte i ops).isSome ↔
    (∃ op ∈ ops, op.WritesTo i) ∨ ∃ op ∈ ops, op.isFetch = true := by
  simp only [mergedByte, Option.isSome_or, Bool.or_eq_true, List.findSome?_isSome_iff, List.mem_reverse,
    EntryOp.isSome_stored, EntryOp.isSome_fetched]

/-- A write to the byte with none after it. -/
theorem mergedByte_of_write {offset : Nat} {buf : Bytes} (h₁ : offset ≤ i) (h₂ : i < offset + buf.length)
    (hpost : ∀ op ∈ post, ¬ op.WritesTo i) :
    mergedByte i (pre ++ .write offset buf :: post) = some (byteAt buf (i - offset)) := by
  have hlater : post.reverse.findSome? (·.stored i) = none :=
    List.findSome?_eq_none_iff.mpr fun op hop => EntryOp.stored_eq_none (hpost op (List.mem_reverse.mp hop))
  have hthis : (EntryOp.write offset buf).stored i = some (byteAt buf (i - offset)) := if_pos ⟨h₁, h₂⟩
  simp [mergedByte, hlater, hthis]

/-- A fetch with none before it, and no write to the byte. -/
theorem mergedByte_of_fetch {data : Bytes} (hpre : ∀ op ∈ pre, op.isFetch = false)
    (hnone : ∀ op ∈ pre ++ .fetch data :: post, ¬ op.WritesTo i) :
    mergedByte i (pre ++ .fetch data :: post) = some (byteAt data i) := by
  have hwrite : (pre ++ .fetch data :: post).reverse.findSome? (·.stored i) = none :=
    List.findSome?_eq_none_iff.mpr fun op hop => EntryOp.stored_eq_none (hnone op (List.mem_reverse.mp hop))
  have hearlier : pre.findSome? (·.fetched i) = none :=
    List.findSome?_eq_none_iff.mpr fun op hop => EntryOp.fetched_eq_none (hpre op hop)
  rw [mergedByte, hwrite, List.findSome?_append, hearlier]
  rfl

theorem sinceLastClean_concat :
    sinceLastClean (ops ++ [op]) = if op.isClean then [] else sinceLastClean ops ++ [op] := by
  rw [sinceLastClean, List.rtakeWhile_concat]
  cases op.isClean <;> rfl

end

/-! ## Runs -/

/-- One operation after the other. -/
def CacheEntry.runs (e : CacheEntry) (ops : List EntryOp) : Option CacheEntry := ops.foldlM (fun e op => op.run e) e

/-- The entry holds what its history says. -/
structure HasHistory (B : Nat) (ops : List EntryOp) (e : CacheEntry) : Prop where
  wf : e.Wf B
  byte : ∀ i, i < B → e.byte i = mergedByte i ops
  dirty : e.state = .dirty ↔ ∃ op ∈ sinceLastClean ops, op.isWrite = true

section
variable {B : Nat} {e : CacheEntry} {ops : List EntryOp} {op : EntryOp}

theorem HasHistory.new (B a : Nat) : HasHistory B [] (CacheEntry.new B a) where
  wf := CacheEntry.new_wf
  byte _ _ := CacheEntry.new_byte
  dirty := by simp [CacheEntry.new, sinceLastClean]

/-- **One operation.** -/
theorem HasHistory.step (hB : 0 < B) (h : HasHistory B ops e) (hop : op.Fits B) :
    ∃ e', op.run e = some e' ∧ HasHistory B (ops ++ [op]) e' := by
  cases op with
  | write offset buf =>
    obtain ⟨e', he', hw', hs', -, hb'⟩ := CacheEntry.write_spec h.wf (List.length_pos_iff.mp hop.2) hop.1
    refine ⟨e', he', hw', fun i hi => ?_, ?_⟩
    · rw [hb', mergedByte_concat, h.byte i hi, mergedByte]
      by_cases hc : offset ≤ i ∧ i < offset + buf.length <;> simp [EntryOp.stored, EntryOp.fetched, hc]
    · simp [hs', sinceLastClean_concat, EntryOp.isClean, EntryOp.isWrite]
  | fetch data =>
    obtain ⟨e', he', hw', hs', -, hb'⟩ := CacheEntry.fetch_spec h.wf hB hop
    refine ⟨e', he', hw', fun i hi => ?_, ?_⟩
    · -- What was valid stays, be it written or fetched before.
      rw [hb', if_pos hi, mergedByte_concat, h.byte i hi, mergedByte]
      cases ops.reverse.findSome? (·.stored i) <;> cases ops.findSome? (·.fetched i) <;>
        simp [EntryOp.stored, EntryOp.fetched]
    · rw [hs', h.dirty]
      simp [sinceLastClean_concat, EntryOp.isClean, EntryOp.isWrite]
  | clean =>
    refine ⟨e.cleaned, rfl, h.wf.cleaned, fun i hi => ?_, ?_⟩
    · rw [CacheEntry.cleaned_byte, mergedByte_concat, h.byte i hi, mergedByte]
      simp [EntryOp.stored, EntryOp.fetched]
    · simp [sinceLastClean_concat, EntryOp.isClean, CacheEntry.cleaned]

/-- **A sequence.** -/
theorem CacheEntry.runs_hasHistory (hB : 0 < B) {more : List EntryOp} (h : HasHistory B ops e)
    (hfits : ∀ op ∈ more, op.Fits B) : ∃ e', e.runs more = some e' ∧ HasHistory B (ops ++ more) e' := by
  induction more generalizing ops e with
  | nil => exact ⟨e, rfl, by rwa [List.append_nil]⟩
  | cons op more ih =>
    obtain ⟨e₁, h₁, hist₁⟩ := h.step hB (hfits op (by simp))
    obtain ⟨e₂, h₂, hist₂⟩ := ih hist₁ fun op hop => hfits op (by simp [hop])
    rw [List.append_assoc] at hist₂
    refine ⟨e₂, ?_, hist₂⟩
    unfold runs at h₂ ⊢
    simp only [List.foldlM_cons, h₁, Option.bind_eq_bind, Option.bind_some, h₂]

/-- **Merging.** After any sequence of operations on a new entry, none of
which fails a check, a byte is valid if a write has covered it or a fetch has
happened. It is that of the last write to it, or else that of the first
fetch. The block is full if all its bytes are valid, and dirty if it has been
written to since the last `clean()`. -/
theorem block_merges (hB : 0 < B) (a : Nat) (ops : List EntryOp) (hops : ∀ op ∈ ops, op.Fits B) :
    ∃ e, (CacheEntry.new B a).runs ops = some e ∧ e.data.length = B ∧
      (∀ i, Covers e.validRanges i ↔
        i < B ∧ ((∃ op ∈ ops, op.WritesTo i) ∨ ∃ op ∈ ops, op.isFetch = true)) ∧
      (∀ i pre offset buf post, ops = pre ++ .write offset buf :: post → offset ≤ i → i < offset + buf.length →
        (∀ op ∈ post, ¬ op.WritesTo i) → byteAt e.data i = byteAt buf (i - offset)) ∧
      (∀ i pre data post, i < B → ops = pre ++ .fetch data :: post → (∀ op ∈ pre, op.isFetch = false) →
        (∀ op ∈ ops, ¬ op.WritesTo i) → byteAt e.data i = byteAt data i) ∧
      (∀ fc b, fc.entries.lookup b = some e →
        (Cache.isFullBlock B fc b = true ↔ ∀ i, i < B → Covers e.validRanges i)) ∧
      (e.state = .dirty ↔ ∃ op ∈ sinceLastClean ops, op.isWrite = true) := by
  obtain ⟨e, he, hm⟩ := CacheEntry.runs_hasHistory hB (HasHistory.new B a) hops
  rw [List.nil_append] at hm
  have hvalue : ∀ i v, i < B → mergedByte i ops = some v → byteAt e.data i = v := by
    intro i v hi hv
    exact (CacheEntry.byte_eq_some.mp ((hm.byte i hi).trans hv)).2
  refine ⟨e, he, hm.wf.length, fun i => ?_, ?_, ?_, fun fc b hb => ?_, hm.dirty⟩
  · constructor
    · intro hc
      have hi := hm.wf.inside i hc
      rw [← CacheEntry.isSome_byte, hm.byte i hi, isSome_mergedByte] at hc
      exact ⟨hi, hc⟩
    · intro hc
      rw [← CacheEntry.isSome_byte, hm.byte i hc.1, isSome_mergedByte]
      exact hc.2
  · intro i pre offset buf post hsplit h₁ h₂ hpost
    have hfit : offset + buf.length ≤ B ∧ 0 < buf.length := hops (.write offset buf) (by simp [hsplit])
    refine hvalue i _ (by omega) ?_
    rw [hsplit]
    exact mergedByte_of_write h₁ h₂ hpost
  · intro i pre data post hi hsplit hpre hnone
    refine hvalue i _ hi ?_
    rw [hsplit] at hnone ⊢
    exact mergedByte_of_fetch hpre hnone
  · simp only [Cache.isFullBlock, hb, CacheEntry.isFull_iff hm.wf hB, CacheEntry.isSome_byte]

/-- Byte 0 is written, fetched and written again, byte 1 is fetched twice. -/
theorem block_merges_two : ∃ e,
    (CacheEntry.new 2 0).runs [.write 0 [7], .fetch [8, 9], .clean, .write 0 [5], .fetch [3, 4]] = some e ∧
      byteAt e.data 0 = 5 ∧ byteAt e.data 1 = 9 ∧ e.state = .dirty := by
  obtain ⟨e, he, -, -, hwrite, hfetch, -, hdirty⟩ := block_merges (B := 2) (by decide) 0
    [.write 0 [7], .fetch [8, 9], .clean, .write 0 [5], .fetch [3, 4]] (by decide)
  refine ⟨e, he, ?_, ?_, ?_⟩
  · exact hwrite 0 [.write 0 [7], .fetch [8, 9], .clean] 0 [5] [.fetch [3, 4]] rfl (by decide) (by decide)
      (by simp [EntryOp.WritesTo])
  · exact hfetch 1 [.write 0 [7]] [8, 9] [.clean, .write 0 [5], .fetch [3, 4]] (by decide) rfl (by decide)
      (by simp [EntryOp.WritesTo])
  · exact hdirty.mpr ⟨.write 0 [5], by decide, rfl⟩

end

end Nfs
