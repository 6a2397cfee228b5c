/-
Pieces of a store: an offset with the values from there on. `coalesce` joins
neighbours that touch, with one piece in hand. For pieces in order the result
is a gapped list of ranges (`Intervals.Gapped`) that covers the same offsets
with the same values, so it is the only way to send what the pieces hold in
as few ranges as possible.
-/
import Nfs.Lib.Intervals

namespace Extents

open Intervals

variable {α : Type}

structure Piece (α : Type) where
  start : Nat
  data : List α
  deriving DecidableEq, Repr

namespace Piece

def stop (p : Piece α) : Nat := p.start + p.data.length

def interval (p : Piece α) : Interval := ⟨p.start, p.stop⟩

/-- The piece and, right after it, more values. -/
def extend (p : Piece α) (data : List α) : Piece α := ⟨p.start, p.data ++ data⟩

/-- The piece holds values of the store `g`. -/
def Of (g : Nat → Option α) (p : Piece α) : Prop := ∀ i, i < p.data.length → g (p.start + i) = p.data[i]?

end Piece

/-- The ranges of the pieces. -/
def ranges (ps : List (Piece α)) : List Interval := ps.map Piece.interval

/-- Nonempty pieces, none of which starts before an earlier one ends. -/
structure Ordered (ps : List (Piece α)) : Prop where
  nonempty : ∀ p ∈ ps, p.data ≠ []
  sorted : ps.Pairwise fun p q => p.stop ≤ q.start

/-- The pieces with neighbours joined; the first one is in hand. -/
def coalesceFrom : Piece α → List (Piece α) → List (Piece α)
  | p, [] => [p]
  | p, q :: qs => if p.stop = q.start then coalesceFrom (p.extend q.data) qs else p :: coalesceFrom q qs

def coalesce : List (Piece α) → List (Piece α)
  | [] => []
  | p :: ps => coalesceFrom p ps

variable {p q : Piece α} {ps qs : List (Piece α)} {x : Nat} {g : Nat → Option α}

theorem Piece.stop_extend {data : List α} : (p.extend data).stop = p.stop + data.length := by
  simp only [stop, extend, List.length_append]
  omega

theorem Piece.mem_extend (h : p.stop = q.start) :
    (p.extend q.data).interval.Mem x ↔ p.interval.Mem x ∨ q.interval.Mem x := by
  simp only [Interval.Mem, interval, stop_extend]
  simp only [stop, extend] at h ⊢
  omega

theorem Piece.Of.extend (h : p.stop = q.start) (hp : p.Of g) (hq : q.Of g) : (p.extend q.data).Of g := by
  intro i hi
  simp only [Piece.extend, List.length_append] at hi ⊢
  by_cases hlt : i < p.data.length
  · rw [hp i hlt, List.getElem?_append_left hlt]
  · rw [List.getElem?_append_right (by omega), ← hq _ (by omega), ← h, stop]
    congr 1
    omega

theorem Ordered.tail (h : Ordered (p :: ps)) : Ordered ps :=
  ⟨fun q hq => h.nonempty q (by simp [hq]), (List.pairwise_cons.mp h.sorted).2⟩

theorem Ordered.extend (h : Ordered (p :: q :: qs)) (hadj : p.stop = q.start) : Ordered (p.extend q.data :: qs) := by
  obtain ⟨-, hrest⟩ := List.pairwise_cons.mp h.sorted
  obtain ⟨hq, hqs⟩ := List.pairwise_cons.mp hrest
  constructor
  · intro r hr
    rcases List.mem_cons.mp hr with rfl | hr
    · simp only [Piece.extend, ne_eq, List.append_eq_nil_iff, not_and]
      exact fun hp => absurd hp (h.nonempty p (by simp))
    · exact h.nonempty r (by simp [hr])
  · refine List.pairwise_cons.mpr ⟨fun r hr => ?_, hqs⟩
    rw [Piece.stop_extend, hadj]
    exact hq r hr

theorem Ordered.start_lt (h : Ordered (p :: ps)) : p.start < p.stop := by
  have := List.length_pos_iff.mpr (h.nonempty p (by simp))
  rw [Piece.stop]
  omega

/-- What the pieces cover lies at or after the first start. -/
theorem Ordered.start_le (h : Ordered (p :: ps)) (hx : Covers (ranges (p :: ps)) x) : p.start ≤ x := by
  have hlt := h.start_lt
  rcases covers_cons.mp hx with hm | ⟨r, hr, hm⟩
  · exact hm.1
  · obtain ⟨q, hq, rfl⟩ := List.mem_map.mp hr
    have := (List.pairwise_cons.mp h.sorted).1 q hq
    have : q.start ≤ x := hm.1
    omega

theorem covers_coalesceFrom : ∀ (ps : List (Piece α)) (p : Piece α),
    Covers (ranges (coalesceFrom p ps)) x ↔ Covers (ranges (p :: ps)) x
  | [], p => Iff.rfl
  | q :: qs, p => by
    unfold coalesceFrom
    split
    · rename_i hadj
      rw [covers_coalesceFrom qs]
      simp only [ranges, List.map_cons, covers_cons, Piece.mem_extend hadj, or_assoc]
    · have ih := covers_coalesceFrom qs q
      simp only [ranges, List.map_cons, covers_cons] at ih ⊢
      rw [ih]

theorem coalesceFrom_gapped : ∀ (ps : List (Piece α)) (p : Piece α), Ordered (p :: ps) →
    Gapped (ranges (coalesceFrom p ps))
  | [], p, h => ⟨by simpa [coalesceFrom, ranges, Piece.interval] using h.start_lt, by simp [coalesceFrom, ranges]⟩
  | q :: qs, p, h => by
    unfold coalesceFrom
    split
    · rename_i hadj
      exact coalesceFrom_gapped qs _ (h.extend hadj)
    · rename_i hadj
      have ih := coalesceFrom_gapped qs q h.tail
      refine ⟨fun r hr => ?_, List.pairwise_cons.mpr ⟨fun r hr => ?_, ih.gaps⟩⟩
      · rcases List.mem_cons.mp hr with rfl | hr
        · exact h.start_lt
        · exact ih.nonempty r hr
      · -- The start of a later range is covered by the later pieces.
        have hc : Covers (ranges (coalesceFrom q qs)) r.start := ⟨r, hr, le_refl _, ih.nonempty r hr⟩
        have hle := h.tail.start_le ((covers_coalesceFrom qs q).mp hc)
        have hpq : p.stop ≤ q.start := (List.pairwise_cons.mp h.sorted).1 q (by simp)
        show p.stop < r.start
        omega

theorem coalesceFrom_of : ∀ (ps : List (Piece α)) (p : Piece α), (∀ q ∈ p :: ps, q.Of g) →
    ∀ q ∈ coalesceFrom p ps, q.Of g
  | [], p, h => h
  | q :: qs, p, h => by
    unfold coalesceFrom
    split
    · rename_i hadj
      refine coalesceFrom_of qs _ fun r hr => ?_
      rcases List.mem_cons.mp hr with rfl | hr
      · exact (h p (by simp)).extend hadj (h q (by simp))
      · exact h r (by simp [hr])
    · intro r hr
      rcases List.mem_cons.mp hr with rfl | hr
      · exact h r (by simp)
      · exact coalesceFrom_of qs q (fun r hr => h r (List.mem_cons_of_mem _ hr)) r hr

/-! ## The whole list -/

theorem covers_coalesce : Covers (ranges (coalesce ps)) x ↔ Covers (ranges ps) x := by
  cases ps with
  | nil => exact Iff.rfl
  | cons p ps => exact covers_coalesceFrom ps p

theorem Ordered.coalesce (h : Ordered ps) : Gapped (ranges (coalesce ps)) := by
  cases ps with
  | nil => exact .nil
  | cons p ps => exact coalesceFrom_gapped ps p h

theorem coalesce_of (h : ∀ p ∈ ps, p.Of g) : ∀ p ∈ coalesce ps, p.Of g := by
  cases ps with
  | nil => exact h
  | cons p ps => exact coalesceFrom_of ps p h

end Extents
