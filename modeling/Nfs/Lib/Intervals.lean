/-
Sorted lists of half-open intervals of naturals, separated by gaps. Such a
list is determined by the set it covers (`Gapped.ext`), so a computation on
lists can be judged by its effect on sets. `Gapped.hull` is the insertion
law: replacing the stretch of intervals that a new one touches by their
common hull keeps the list gapped and adds exactly the new points.
-/
import Mathlib.Data.Nat.Basic

namespace Intervals

structure Interval where
  start : Nat
  stop : Nat
  deriving DecidableEq, Repr

def Interval.Mem (r : Interval) (x : Nat) : Prop := r.start ≤ x ∧ x < r.stop

instance (r : Interval) (x : Nat) : Decidable (r.Mem x) := inferInstanceAs (Decidable (_ ∧ _))

/-- `x` lies in one of the intervals. -/
def Covers (rs : List Interval) (x : Nat) : Prop := ∃ r ∈ rs, r.Mem x

instance (rs : List Interval) (x : Nat) : Decidable (Covers rs x) :=
  inferInstanceAs (Decidable (∃ r ∈ rs, r.Mem x))

/-- Every interval is nonempty and ends strictly before the next one starts. -/
structure Gapped (rs : List Interval) : Prop where
  nonempty : ∀ r ∈ rs, r.start < r.stop
  gaps : rs.Pairwise fun r r' => r.stop < r'.start

variable {r : Interval} {rs rs' pre mid post : List Interval} {x : Nat}

@[simp] theorem covers_nil : ¬ Covers [] x := by simp [Covers]

@[simp] theorem covers_cons : Covers (r :: rs) x ↔ r.Mem x ∨ Covers rs x := by simp [Covers]

@[simp] theorem covers_append : Covers (rs ++ rs') x ↔ Covers rs x ∨ Covers rs' x := by
  simp [Covers, or_and_right, exists_or]

theorem Gapped.nil : Gapped [] := ⟨by simp, .nil⟩

theorem Gapped.tail (h : Gapped (r :: rs)) : Gapped rs :=
  ⟨fun q hq => h.nonempty q (by simp [hq]), (List.pairwise_cons.mp h.gaps).2⟩

/-- What the rest of a gapped list covers lies past its first interval. -/
theorem Gapped.tail_gt (h : Gapped (r :: rs)) (hx : Covers rs x) : r.stop < x := by
  obtain ⟨q, hq, hm⟩ := hx
  have := (List.pairwise_cons.mp h.gaps).1 q hq
  exact lt_of_lt_of_le this hm.1

theorem Gapped.start_le (h : Gapped (r :: rs)) (hx : Covers (r :: rs) x) : r.start ≤ x := by
  rcases covers_cons.mp hx with hm | hx
  · exact hm.1
  · have := h.tail_gt hx
    have := h.nonempty r (by simp)
    omega

theorem Gapped.covers_start (h : Gapped (r :: rs)) : Covers (r :: rs) r.start :=
  covers_cons.mpr (.inl ⟨le_refl _, h.nonempty r (by simp)⟩)

theorem Gapped.not_covers_stop (h : Gapped (r :: rs)) : ¬ Covers (r :: rs) r.stop := by
  intro hx
  rcases covers_cons.mp hx with hm | hx
  · exact absurd hm.2 (lt_irrefl _)
  · exact absurd (h.tail_gt hx) (lt_irrefl _)

theorem Gapped.covers_tail (h : Gapped (r :: rs)) : Covers rs x ↔ Covers (r :: rs) x ∧ r.stop ≤ x := by
  constructor
  · exact fun hx => ⟨covers_cons.mpr (.inr hx), le_of_lt (h.tail_gt hx)⟩
  · rintro ⟨hx, hle⟩
    rcases covers_cons.mp hx with hm | hx
    · exact absurd hm.2 (by omega)
    · exact hx

/-- Gapped lists that cover the same points start with the same interval. -/
theorem Gapped.head_eq {r' : Interval} (h : Gapped (r :: rs)) (h' : Gapped (r' :: rs'))
    (hc : ∀ x, Covers (r :: rs) x ↔ Covers (r' :: rs') x) : r = r' := by
  have hs : r.start = r'.start := le_antisymm (h.start_le ((hc _).mpr h'.covers_start))
    (h'.start_le ((hc _).mp h.covers_start))
  have hlt := h.nonempty r (by simp)
  have hlt' := h'.nonempty r' (by simp)
  have he : r.stop = r'.stop := by
    rcases lt_trichotomy r.stop r'.stop with hlt'' | he | hgt
    · exact absurd ((hc _).mpr (covers_cons.mpr (.inl ⟨by omega, hlt''⟩))) h.not_covers_stop
    · exact he
    · exact absurd ((hc _).mp (covers_cons.mpr (.inl ⟨by omega, hgt⟩))) h'.not_covers_stop
  cases r; cases r'; simp_all

/-- A gapped list is determined by what it covers. -/
theorem Gapped.ext : ∀ {rs rs' : List Interval}, Gapped rs → Gapped rs' →
    (∀ x, Covers rs x ↔ Covers rs' x) → rs = rs'
  | [], [], _, _, _ => rfl
  | [], _ :: _, _, h', hc => absurd ((hc _).mpr h'.covers_start) covers_nil
  | _ :: _, [], h, _, hc => absurd ((hc _).mp h.covers_start) covers_nil
  | r :: rs, r' :: rs', h, h', hc => by
    obtain rfl := h.head_eq h' hc
    have ht : rs = rs' := Gapped.ext h.tail h'.tail fun x => by rw [h.covers_tail, h'.covers_tail, hc]
    rw [ht]

/-! ## Insertion -/

/-- `[lo, hi)` is the hull of `[start, stop)` and the intervals of `mid`. -/
structure Hull (start stop : Nat) (mid : List Interval) (lo hi : Nat) : Prop where
  lo_le : lo ≤ start
  le_hi : stop ≤ hi
  lo_mid : ∀ r ∈ mid, lo ≤ r.start
  mid_hi : ∀ r ∈ mid, r.stop ≤ hi
  lo_eq : lo = start ∨ ∃ r ∈ mid, lo = r.start
  hi_eq : hi = stop ∨ ∃ r ∈ mid, hi = r.stop

theorem Hull.nil {start stop : Nat} : Hull start stop [] start stop :=
  ⟨le_refl _, le_refl _, by simp, by simp, .inl rfl, .inl rfl⟩

theorem Hull.snoc {start stop lo hi : Nat} (h : Hull start stop mid lo hi) (r : Interval) :
    Hull start stop (mid ++ [r]) (min lo r.start) (max hi r.stop) := by
  refine ⟨?_, ?_, fun q hq => ?_, fun q hq => ?_, ?_, ?_⟩
  · have := h.lo_le; omega
  · have := h.le_hi; omega
  · simp only [List.mem_append, List.mem_singleton] at hq
    rcases hq with hq | rfl
    · have := h.lo_mid q hq; omega
    · omega
  · simp only [List.mem_append, List.mem_singleton] at hq
    rcases hq with hq | rfl
    · have := h.mid_hi q hq; omega
    · omega
  · rcases Nat.le_total lo r.start with hle | hle
    · rw [Nat.min_eq_left hle]
      exact h.lo_eq.imp_right fun ⟨q, hq, e⟩ => ⟨q, by simp [hq], e⟩
    · rw [Nat.min_eq_right hle]; exact .inr ⟨r, by simp, rfl⟩
  · rcases Nat.le_total hi r.stop with hle | hle
    · rw [Nat.max_eq_right hle]; exact .inr ⟨r, by simp, rfl⟩
    · rw [Nat.max_eq_left hle]
      exact h.hi_eq.imp_right fun ⟨q, hq, e⟩ => ⟨q, by simp [hq], e⟩

/-- The hull covers nothing more when every interval touches `[start, stop)`. -/
theorem Hull.mem {start stop lo hi : Nat} (h : Hull start stop mid lo hi)
    (htouch : ∀ r ∈ mid, r.start ≤ stop ∧ start ≤ r.stop) :
    (lo ≤ x ∧ x < hi) ↔ Covers mid x ∨ (start ≤ x ∧ x < stop) := by
  constructor
  · rintro ⟨hlo, hhi⟩
    by_cases h₁ : x < start
    · rcases h.lo_eq with rfl | ⟨r, hr, rfl⟩
      · omega
      · exact .inl ⟨r, hr, hlo, by have := (htouch r hr).2; omega⟩
    · by_cases h₂ : x < stop
      · exact .inr ⟨by omega, h₂⟩
      · rcases h.hi_eq with rfl | ⟨r, hr, rfl⟩
        · omega
        · exact .inl ⟨r, hr, by have := (htouch r hr).1; omega, hhi⟩
  · rintro (⟨r, hr, h₁, h₂⟩ | ⟨h₁, h₂⟩)
    · exact ⟨le_trans (h.lo_mid r hr) h₁, lt_of_lt_of_le h₂ (h.mid_hi r hr)⟩
    · exact ⟨le_trans h.lo_le h₁, lt_of_lt_of_le h₂ h.le_hi⟩

/-- **Insertion.** In a gapped list split into the intervals before
`[start, stop)`, those touching it and those after it, the touching ones and
`[start, stop)` become their hull. -/
theorem Gapped.hull {start stop lo hi : Nat} (h : Gapped (pre ++ mid ++ post)) (hlt : start < stop)
    (hpre : ∀ r ∈ pre, r.stop < start) (hpost : ∀ r ∈ post, stop < r.start)
    (hull : Hull start stop mid lo hi) : Gapped (pre ++ ⟨lo, hi⟩ :: post) := by
  obtain ⟨hpm, hpost', hcross⟩ := List.pairwise_append.mp h.gaps
  obtain ⟨hpre', hmid', hcross'⟩ := List.pairwise_append.mp hpm
  have hlo : ∀ r ∈ pre, r.stop < lo := by
    intro r hr
    rcases hull.lo_eq with rfl | ⟨q, hq, rfl⟩
    · exact hpre r hr
    · exact hcross' r hr q hq
  have hhi : ∀ r ∈ post, hi < r.start := by
    intro r hr
    rcases hull.hi_eq with rfl | ⟨q, hq, rfl⟩
    · exact hpost r hr
    · exact hcross q (by simp [hq]) r hr
  constructor
  · intro r hr
    simp only [List.mem_append, List.mem_cons] at hr
    rcases hr with hr | rfl | hr
    · exact h.nonempty r (by simp [hr])
    · have := hull.lo_le; have := hull.le_hi; show lo < hi; omega
    · exact h.nonempty r (by simp [hr])
  · rw [List.pairwise_append, List.pairwise_cons]
    refine ⟨hpre', ⟨hhi, hpost'⟩, fun r hr q hq => ?_⟩
    rcases List.mem_cons.mp hq with rfl | hq
    · exact hlo r hr
    · exact hcross r (by simp [hr]) q hq

end Intervals
