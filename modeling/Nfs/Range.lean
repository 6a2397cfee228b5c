/-
`client_src/range.hpp` and `range.cpp`: the list of valid ranges of a block,
with insertion by a scan for the overlapping stretch, and the overlay of one
buffer on another along such a list.

`insertRange_spec`: inserting into a gapped list gives the gapped list of
the union. The scan keeps two indices and the bounds of the merged range;
erasing the index segment `[over_start, over_end)` is right because the
ranges a new one overlaps stand next to each other (`insertRange_split`).
The indices are an `int` in the source; lists of 2³¹ ranges and more are not
considered.
-/
import Nfs.Lib.Intervals
import Nfs.Lib.PlainFile

namespace Nfs

open Intervals PlainFile

/-- `struct Range` (its `end` is `stop` here). -/
abbrev Range := Intervals.Interval

/-- `class RangeList`: the vector `_ranges`. -/
abbrev RangeList := List Range

namespace RangeList

def overlap (r1 r2 : Range) : Bool :=
  if r1.start ≤ r2.start then
    if r1.stop ≥ r2.start then true else false
  else
    if r2.stop ≥ r1.start then true else false

/-- The locals of the loop in `insertRange`. -/
structure Scan where
  overStart : Int
  overEnd : Int
  newStart : Nat
  newEnd : Nat

/-- The loop of `insertRange` over `_ranges[i], ...`. -/
def scan (newRange : Range) : Nat → List Range → Scan → Scan
  | _, [], acc => acc
  | i, r :: rs, acc =>
    scan newRange (i + 1) rs <|
      if overlap r newRange then
        { overStart := if acc.overStart = -1 then i else acc.overStart
          overEnd := i + 1
          newStart := min acc.newStart r.start
          newEnd := max acc.newEnd r.stop }
      else acc

/-- `iter` past the ranges that start before `newStart`. -/
def insertBefore (r : Range) : List Range → List Range
  | [] => [r]
  | q :: rs => if q.start < r.start then q :: insertBefore r rs else r :: q :: rs

/-- `RangeList::insertRange`; `none` is the failed `assert(start < end)`. -/
def insertRange (ranges : RangeList) (start stop : Nat) : Option RangeList :=
  if start < stop then
    let acc := scan ⟨start, stop⟩ 0 ranges ⟨-1, -1, start, stop⟩
    if acc.overStart ≥ 0 then
      some (ranges.take acc.overStart.toNat ++ ⟨acc.newStart, acc.newEnd⟩ :: ranges.drop acc.overEnd.toNat)
    else
      some (insertBefore ⟨acc.newStart, acc.newEnd⟩ ranges)
  else none

/-! ## The scan -/

theorem overlap_iff {r q : Range} (hr : r.start < r.stop) (hq : q.start < q.stop) :
    overlap r q = true ↔ r.start ≤ q.stop ∧ q.start ≤ r.stop := by
  unfold overlap
  split <;> split <;> simp <;> omega

theorem scan_append {q : Range} : ∀ {rs rs' : List Range} {i : Nat} {acc : Scan},
    scan q i (rs ++ rs') acc = scan q (i + rs.length) rs' (scan q i rs acc)
  | [], _, _, _ => rfl
  | r :: rs, rs', i, acc => by
    simp only [List.cons_append, scan, List.length_cons]
    rw [scan_append]
    congr 1; omega

theorem scan_apart {q : Range} : ∀ {rs : List Range} {i : Nat} {acc : Scan},
    (∀ r ∈ rs, overlap r q = false) → scan q i rs acc = acc
  | [], _, _, _ => rfl
  | r :: rs, i, acc, h => by
    simp only [scan, h r (by simp), Bool.false_eq_true, if_false]
    exact scan_apart fun r hr => h r (by simp [hr])

/-- Over ranges that all overlap, the scan keeps the first index it was
given, moves the last one along and widens the bounds to the hull. -/
theorem scan_touching {q : Range} : ∀ (rs seen : List Range) (i : Nat) (acc : Scan),
    (∀ r ∈ rs, overlap r q = true) → 0 ≤ acc.overStart → acc.overEnd = i →
    Hull q.start q.stop seen acc.newStart acc.newEnd →
    (scan q i rs acc).overStart = acc.overStart ∧ (scan q i rs acc).overEnd = ((i + rs.length : Nat) : Int) ∧
      Hull q.start q.stop (seen ++ rs) (scan q i rs acc).newStart (scan q i rs acc).newEnd
  | [], seen, i, acc, _, _, he, hh => by
    simp only [List.append_nil]
    exact ⟨rfl, by simpa [scan] using he, hh⟩
  | r :: rs, seen, i, acc, ho, hs, he, hh => by
    simp only [scan, ho r (by simp), if_true]
    have hne : acc.overStart ≠ -1 := by omega
    simp only [hne, if_false]
    obtain ⟨h₁, h₂, h₃⟩ := scan_touching rs (seen ++ [r]) (i + 1)
      ⟨acc.overStart, ((i : Int) + 1), min acc.newStart r.start, max acc.newEnd r.stop⟩
      (fun p hp => ho p (by simp [hp])) hs (by simp) (hh.snoc r)
    refine ⟨h₁, ?_, by simpa using h₃⟩
    rw [h₂]; simp only [List.length_cons]; omega

/-- What `insertRange` computes on a list split into the ranges before the
new one, those overlapping it and those after it. -/
theorem insertRange_split (pre mid post : List Range) {start stop : Nat} (hlt : start < stop)
    (hpre : ∀ r ∈ pre, overlap r ⟨start, stop⟩ = false) (hmid : ∀ r ∈ mid, overlap r ⟨start, stop⟩ = true)
    (hpost : ∀ r ∈ post, overlap r ⟨start, stop⟩ = false) (hlow : ∀ r ∈ pre, r.start < start)
    (hhigh : ∀ r ∈ post, start ≤ r.start) :
    ∃ lo hi, insertRange (pre ++ mid ++ post) start stop = some (pre ++ ⟨lo, hi⟩ :: post) ∧
      Hull start stop mid lo hi := by
  cases mid with
  | nil =>
    refine ⟨start, stop, ?_, Hull.nil⟩
    simp only [insertRange, hlt, if_true, List.append_nil, scan_append, scan_apart hpre, scan_apart hpost]
    simp only [ge_iff_le, Int.reduceNeg, Int.reduceLE, if_false, Option.some.injEq]
    induction pre with
    | nil =>
      cases post with
      | nil => rfl
      | cons q post => simp [insertBefore, Nat.not_lt.mpr (hhigh q (by simp))]
    | cons q pre ih =>
      simp only [List.cons_append, insertBefore, hlow q (by simp), if_true, List.cons.injEq, true_and]
      exact ih (fun r hr => hpre r (by simp [hr])) (fun r hr => hlow r (by simp [hr]))
  | cons m mid =>
    have hfirst := hmid m (by simp)
    obtain ⟨h₁, h₂, h₃⟩ := scan_touching (q := ⟨start, stop⟩) mid [m] (pre.length + 1)
      ⟨pre.length, ((pre.length : Int) + 1), min start m.start, max stop m.stop⟩
      (fun r hr => hmid r (by simp [hr])) (by simp) (by simp) (Hull.nil.snoc m)
    refine ⟨_, _, ?_, h₃⟩
    simp only [insertRange, hlt, if_true, scan_append, scan_apart hpre, scan_apart hpost, scan, hfirst,
      Nat.zero_add] at h₁ h₂ ⊢
    simp only [h₁, h₂]
    simp only [ge_iff_le, Int.natCast_nonneg, if_true, Int.toNat_natCast, Option.some.injEq]
    rw [List.append_assoc, List.take_left' rfl]
    congr 2
    rw [← List.append_assoc, List.drop_left']
    simp; omega

/-! ## Insertion -/

/-- A gapped list splits at the ranges a new one touches. -/
theorem exists_split {ranges : RangeList} (h : Gapped ranges) (start stop : Nat) :
    ∃ pre mid post, ranges = pre ++ mid ++ post ∧ (∀ r ∈ pre, r.stop < start) ∧
      (∀ r ∈ mid, r.start ≤ stop ∧ start ≤ r.stop) ∧ (∀ r ∈ post, stop < r.start) := by
  induction ranges with
  | nil => exact ⟨[], [], [], rfl, by simp, by simp, by simp⟩
  | cons r ranges ih =>
    obtain ⟨pre, mid, post, rfl, hpre, hmid, hpost⟩ := ih h.tail
    have hgap := (List.pairwise_cons.mp h.gaps).1
    have hne := h.nonempty r (by simp)
    by_cases h₁ : r.stop < start
    · refine ⟨r :: pre, mid, post, rfl, fun q hq => ?_, hmid, hpost⟩
      rcases List.mem_cons.mp hq with rfl | hq
      · exact h₁
      · exact hpre q hq
    -- The ranges after `r` all start past its end, so none ends before `start`.
    have hnil : pre = [] := by
      rw [List.eq_nil_iff_forall_not_mem]
      intro q hq
      have := hgap q (by simp [hq]); have := hpre q hq; have := h.nonempty q (by simp [hq])
      omega
    subst hnil
    by_cases h₂ : stop < r.start
    · refine ⟨[], [], r :: (mid ++ post), rfl, by simp, by simp, fun q hq => ?_⟩
      rcases List.mem_cons.mp hq with rfl | hq
      · exact h₂
      · have := hgap q (by simpa using hq); omega
    · refine ⟨[], r :: mid, post, rfl, by simp, fun q hq => ?_, hpost⟩
      rcases List.mem_cons.mp hq with rfl | hq
      · exact ⟨by omega, by omega⟩
      · exact hmid q hq

/-- **Insertion into a gapped list** succeeds, keeps it gapped and adds
exactly the points of the inserted range. -/
theorem insertRange_spec {ranges : RangeList} (h : Gapped ranges) {start stop : Nat} (hlt : start < stop) :
    ∃ ranges', insertRange ranges start stop = some ranges' ∧ Gapped ranges' ∧
      ∀ x, Covers ranges' x ↔ Covers ranges x ∨ (start ≤ x ∧ x < stop) := by
  obtain ⟨pre, mid, post, rfl, hpre, hmid, hpost⟩ := exists_split h start stop
  have hov : ∀ r ∈ pre ++ mid ++ post, overlap r ⟨start, stop⟩ = true ↔ r.start ≤ stop ∧ start ≤ r.stop :=
    fun r hr => overlap_iff (h.nonempty r hr) hlt
  obtain ⟨lo, hi, he, hh⟩ := insertRange_split pre mid post hlt
    (fun r hr => by
      have h₁ := hpre r hr
      rw [← Bool.not_eq_true, hov r (by simp [hr])]; omega)
    (fun r hr => (hov r (by simp [hr])).mpr (hmid r hr))
    (fun r hr => by
      have h₁ := hpost r hr
      rw [← Bool.not_eq_true, hov r (by simp [hr])]; omega)
    (fun r hr => by have := hpre r hr; have := h.nonempty r (by simp [hr]); omega)
    (fun r hr => by have := hpost r hr; omega)
  refine ⟨_, he, h.hull hlt hpre hpost hh, fun x => ?_⟩
  have hx := hh.mem (x := x) hmid
  simp only [covers_append, covers_cons, Interval.Mem, hx]
  tauto

/-- Inserting a range right after the only one extends it. -/
theorem insertRange_adjacent {a b c : Nat} (hab : a < b) (hbc : b < c) :
    insertRange [⟨a, b⟩] b c = some [⟨a, c⟩] := by
  have hg : Gapped [(⟨a, b⟩ : Range)] := ⟨by simpa using hab, by simp⟩
  obtain ⟨rs, he, hg', hc⟩ := insertRange_spec hg hbc
  have : rs = [⟨a, c⟩] := Gapped.ext hg' ⟨by simp; omega, by simp⟩ fun x => by
    rw [hc]; simp [Interval.Mem]; omega
  rw [he, this]

theorem insertRange_nil {a b : Nat} (hab : a < b) : insertRange [] a b = some [⟨a, b⟩] := by
  obtain ⟨rs, he, hg', hc⟩ := insertRange_spec Gapped.nil hab
  have : rs = [⟨a, b⟩] := Gapped.ext hg' ⟨by simpa using hab, by simp⟩ fun x => by
    rw [hc]; simp [Interval.Mem]
  rw [he, this]

example : (insertRange [⟨10, 20⟩] 5 8).bind (insertRange · 100 200) = some [⟨5, 8⟩, ⟨10, 20⟩, ⟨100, 200⟩] := by
  decide

/-- Inserting `[a, b)` and then `[b, c)` is inserting `[a, c)`. -/
theorem insertRange_insertRange {ranges : RangeList} (h : Gapped ranges) {a b c : Nat} (hab : a < b) (hbc : b < c) :
    (insertRange ranges a b).bind (insertRange · b c) = insertRange ranges a c := by
  obtain ⟨rs₁, h₁, hg₁, hc₁⟩ := insertRange_spec h hab
  obtain ⟨rs₂, h₂, hg₂, hc₂⟩ := insertRange_spec hg₁ hbc
  obtain ⟨rs, hr, hg, hc⟩ := insertRange_spec h (Nat.lt_trans hab hbc)
  have heq : rs₂ = rs := hg₂.ext hg fun x => by
    rw [hc₂, hc₁, hc, or_assoc]
    exact or_congr_right (by omega)
  rw [h₁, Option.bind_some, h₂, hr, heq]

/-! ## Runs of insertions -/

/-- `RangeList()` and `RangeList(start, end)`; `none` is the failed
`assert(start < end)`. -/
def construct : Option Range → Option RangeList
  | none => some []
  | some r => if r.start < r.stop then some [r] else none

/-- `insertRange` for one range after the other. -/
def insertRanges (ranges : RangeList) (inserted : List Range) : Option RangeList :=
  inserted.foldlM (fun ranges r => insertRange ranges r.start r.stop) ranges

/-- A list that has been constructed, and then been inserted into. -/
def build (first : Option Range) (inserted : List Range) : Option RangeList :=
  (construct first).bind (insertRanges · inserted)

theorem insertRanges_spec : ∀ (inserted : List Range) {ranges : RangeList}, Gapped ranges →
    (∀ r ∈ inserted, r.start < r.stop) →
    ∃ ranges', insertRanges ranges inserted = some ranges' ∧ Gapped ranges' ∧
      ∀ x, Covers ranges' x ↔ Covers ranges x ∨ Covers inserted x
  | [], ranges, hg, _ => ⟨ranges, rfl, hg, fun x => by simp⟩
  | r :: inserted, ranges, hg, hlt => by
    obtain ⟨rs₁, h₁, hg₁, hc₁⟩ := insertRange_spec hg (hlt r (by simp))
    obtain ⟨rs₂, h₂, hg₂, hc₂⟩ := insertRanges_spec inserted hg₁ fun q hq => hlt q (by simp [hq])
    refine ⟨rs₂, ?_, hg₂, fun x => ?_⟩
    · simp only [insertRanges, List.foldlM_cons, h₁, Option.bind_eq_bind, Option.bind_some]
      exact h₂
    · rw [hc₂, hc₁, covers_cons, or_assoc, Interval.Mem]

theorem build_spec {first : Option Range} {inserted : List Range} (hfirst : ∀ r ∈ first, r.start < r.stop)
    (hlt : ∀ r ∈ inserted, r.start < r.stop) :
    ∃ ranges, build first inserted = some ranges ∧ Gapped ranges ∧
      ∀ x, Covers ranges x ↔ Covers (first.toList ++ inserted) x := by
  have hstart : construct first = some first.toList ∧ Gapped first.toList := by
    cases first with
    | none => exact ⟨rfl, Gapped.nil⟩
    | some r =>
      have hr := hfirst r rfl
      exact ⟨if_pos hr, by simpa using hr, by simp⟩
  obtain ⟨ranges, h, hg, hc⟩ := insertRanges_spec inserted hstart.2 hlt
  refine ⟨ranges, ?_, hg, fun x => by rw [hc, covers_append]⟩
  rw [build, hstart.1, Option.bind_some, h]

/-- **A range list is canonical**: whatever has been inserted, in whatever
order, its ranges are non-empty, sorted and separated by gaps, and they
cover the union of what has been inserted. So the union determines the list. -/
theorem rangeList_canonical (first : Option Range) (inserted : List Range)
    (hfirst : ∀ r ∈ first, r.start < r.stop) (hlt : ∀ r ∈ inserted, r.start < r.stop) :
    ∃ ranges, build first inserted = some ranges ∧ (∀ r ∈ ranges, r.start < r.stop) ∧
      (ranges.Pairwise fun r r' => r.stop < r'.start) ∧
      (∀ x, Covers ranges x ↔ Covers (first.toList ++ inserted) x) ∧
      ∀ (first' : Option Range) (inserted' : List Range), (∀ r ∈ first', r.start < r.stop) →
        (∀ r ∈ inserted', r.start < r.stop) →
        (∀ x, Covers (first'.toList ++ inserted') x ↔ Covers (first.toList ++ inserted) x) →
        build first' inserted' = some ranges := by
  obtain ⟨ranges, h, hg, hc⟩ := build_spec hfirst hlt
  refine ⟨ranges, h, hg.nonempty, hg.gaps, hc, fun first' inserted' hfirst' hlt' hsame => ?_⟩
  obtain ⟨ranges', h', hg', hc'⟩ := build_spec hfirst' hlt'
  rw [h', hg'.ext hg fun x => by rw [hc', hsame, hc]]

/-- Two ways to cover `[0, 6)` and `[8, 9)`. -/
theorem rangeList_canonical_two : build none [⟨4, 6⟩, ⟨8, 9⟩, ⟨0, 3⟩, ⟨2, 4⟩] = some [⟨0, 6⟩, ⟨8, 9⟩] ∧
    build (some ⟨2, 5⟩) [⟨8, 9⟩, ⟨0, 6⟩] = some [⟨0, 6⟩, ⟨8, 9⟩] := by
  obtain ⟨ranges, h, -, -, -, hsame⟩ :=
    rangeList_canonical none [⟨4, 6⟩, ⟨8, 9⟩, ⟨0, 3⟩, ⟨2, 4⟩] (by simp) (by decide)
  have hval : build none [⟨4, 6⟩, ⟨8, 9⟩, ⟨0, 3⟩, ⟨2, 4⟩] = some [⟨0, 6⟩, ⟨8, 9⟩] := by decide
  obtain rfl := Option.some.inj (hval.symm.trans h)
  refine ⟨h, hsame (some ⟨2, 5⟩) [⟨8, 9⟩, ⟨0, 6⟩] (by simp) (by decide) fun x => ?_⟩
  simp only [Option.toList, List.cons_append, List.nil_append, covers_cons, covers_nil, or_false, Interval.Mem]
  omega

end RangeList

/-! ## Overlay -/

/-- `overlay(upper, Range, lower)`: the loop over `[start, end)`. -/
def overlayRange (upper : Bytes) (r : Range) (lower : Bytes) : Bytes :=
  (List.range' r.start (r.stop - r.start)).foldl (fun low i => low.set i (byteAt upper i)) lower

/-- `overlay(upper, RangeList, lower)`. -/
def overlay (upper : Bytes) (ranges : RangeList) (lower : Bytes) : Bytes :=
  ranges.foldl (fun low r => overlayRange upper r low) lower

theorem byteAt_set {c : Bytes} {i j : Nat} {v : UInt8} :
    byteAt (c.set j v) i = if i = j ∧ j < c.length then v else byteAt c i := by
  simp only [byteAt, List.getD_eq_getElem?_getD, List.getElem?_set]
  by_cases h : j = i
  · subst h
    by_cases hj : j < c.length <;> simp [hj]
  · simp [h, show ¬ i = j from fun e => h e.symm]

theorem overlay_fold (upper lower : Bytes) (js : List Nat) :
    (js.foldl (fun low i => low.set i (byteAt upper i)) lower).length = lower.length ∧
    ∀ i, byteAt (js.foldl (fun low i => low.set i (byteAt upper i)) lower) i =
      if i ∈ js ∧ i < lower.length then byteAt upper i else byteAt lower i := by
  induction js generalizing lower with
  | nil => simp
  | cons j js ih =>
    obtain ⟨hl, hb⟩ := ih (lower.set j (byteAt upper j))
    refine ⟨by simpa using hl, fun i => ?_⟩
    simp only [List.foldl_cons, hb, List.length_set, byteAt_set, List.mem_cons]
    by_cases hi : i ∈ js ∧ i < lower.length
    · simp [hi]
    · by_cases hij : i = j
      · subst hij
        by_cases hlt : i < lower.length <;> simp [hlt]
      · simp [hij, hi]

theorem overlayRange_spec (upper : Bytes) (r : Range) (lower : Bytes) :
    (overlayRange upper r lower).length = lower.length ∧
    ∀ i, byteAt (overlayRange upper r lower) i =
      if r.Mem i ∧ i < lower.length then byteAt upper i else byteAt lower i := by
  obtain ⟨hl, hb⟩ := overlay_fold upper lower (List.range' r.start (r.stop - r.start))
  refine ⟨hl, fun i => ?_⟩
  rw [overlayRange, hb]
  have : i ∈ List.range' r.start (r.stop - r.start) ↔ r.Mem i := by
    rw [List.mem_range'_1, Interval.Mem]; omega
  simp only [this]

/-- The overlay takes the covered bytes from above and leaves the others. -/
theorem overlay_spec (upper : Bytes) (ranges : RangeList) (lower : Bytes) :
    (overlay upper ranges lower).length = lower.length ∧
    ∀ i, byteAt (overlay upper ranges lower) i =
      if Covers ranges i ∧ i < lower.length then byteAt upper i else byteAt lower i := by
  induction ranges generalizing lower with
  | nil => simp [overlay]
  | cons r ranges ih =>
    obtain ⟨hl, hb⟩ := ih (overlayRange upper r lower)
    obtain ⟨hl', hb'⟩ := overlayRange_spec upper r lower
    simp only [overlay, List.foldl_cons] at hl hb ⊢
    refine ⟨by rw [hl, hl'], fun i => ?_⟩
    rw [hb, hl', hb']
    by_cases hr : r.Mem i <;> by_cases hc : Covers ranges i <;> by_cases hlt : i < lower.length <;>
      simp [hr, hc, hlt]

end Nfs
