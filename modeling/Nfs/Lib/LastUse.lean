/-
Lists in the order of last use. `uses` is a history, the latest use first, so
`uses.idxOf a` tells how long ago `a` was used, and is the length of the
history when it never was. A list is in order when no element was used before
one that comes later.

Moving what is used to the front keeps the order (`InOrder.touch`). Leaving
it where it is and adding what is new at the end keeps it in two cases only
(`inOrder_append_iff`).
-/
import Mathlib.Data.List.Nodup

namespace LastUse

variable {α : Type} [DecidableEq α] {uses l t : List α} {a b : α}

def InOrder (uses l : List α) : Prop := l.Pairwise fun a b => uses.idxOf a ≤ uses.idxOf b

instance : Decidable (InOrder uses l) := inferInstanceAs (Decidable (l.Pairwise fun a b => uses.idxOf a ≤ uses.idxOf b))

theorem InOrder.sublist {l' : List α} (h : InOrder uses l) (hs : l'.Sublist l) : InOrder uses l' :=
  List.Pairwise.sublist hs h

theorem idxOf_lt_of_nodup (ht : t.Nodup) : t.Pairwise fun a b => t.idxOf a < t.idxOf b := by
  rw [List.pairwise_iff_getElem]
  intro i j hi hj hij
  rwa [ht.idxOf_getElem i hi, ht.idxOf_getElem j hj]

/-- The elements of `t` have been used, the first one last. -/
theorem InOrder.touch (h : InOrder uses l) (ht : t.Nodup) : InOrder (t ++ uses) (t ++ l.filter (· ∉ t)) := by
  refine List.pairwise_append.mpr ⟨?_, ?_, fun a ha b hb => ?_⟩
  · refine (idxOf_lt_of_nodup ht).imp_of_mem fun {a b} ha hb hlt => ?_
    rw [List.idxOf_append_of_mem ha, List.idxOf_append_of_mem hb]
    exact Nat.le_of_lt hlt
  · refine (h.sublist List.filter_sublist).imp_of_mem fun {a b} ha hb hle => ?_
    have ha' : a ∉ t := by simpa using (List.mem_filter.mp ha).2
    have hb' : b ∉ t := by simpa using (List.mem_filter.mp hb).2
    rw [List.idxOf_append_of_notMem ha', List.idxOf_append_of_notMem hb']
    omega
  · have hb' : b ∉ t := by simpa using (List.mem_filter.mp hb).2
    have hlt := List.idxOf_lt_length_of_mem ha
    rw [List.idxOf_append_of_mem ha, List.idxOf_append_of_notMem hb']
    omega

/-- A list in order starts with what has just been used. -/
theorem InOrder.starts : ∀ {t l : List α}, InOrder (t ++ uses) l → l.Nodup → t.Nodup → (∀ a ∈ t, a ∈ l) → t <+: l
  | [], l, _, _, _, _ => List.nil_prefix
  | x :: t, [], _, _, _, hsub => absurd (hsub x (by simp)) (by simp)
  | x :: t, y :: l, h, hn, ht, hsub => by
    obtain ⟨hy, hl⟩ := List.pairwise_cons.mp h
    obtain ⟨hxt, ht'⟩ := List.nodup_cons.mp ht
    -- Nothing else was used as lately as `x`.
    have hyx : y = x := by
      by_contra hne
      have hxl : x ∈ l := (List.mem_cons.mp (hsub x (by simp))).resolve_left fun he => hne he.symm
      have hle := hy x hxl
      simp [Ne.symm hne] at hle
    subst hyx
    obtain ⟨hyl, hn'⟩ := List.nodup_cons.mp hn
    have hrest : InOrder (t ++ uses) l := by
      refine hl.imp_of_mem fun {a b} ha hb hle => ?_
      have hay : y ≠ a := fun he => hyl (he ▸ ha)
      have hby : y ≠ b := fun he => hyl (he ▸ hb)
      rw [List.cons_append, List.idxOf_cons_ne _ hay, List.idxOf_cons_ne _ hby] at hle
      omega
    refine (List.prefix_cons_inj y).mpr (hrest.starts hn' ht' fun a ha => ?_)
    refine (List.mem_cons.mp (hsub a (by simp [ha]))).resolve_left fun he => hxt (he ▸ ha)

theorem nodup_pair (ht : t.Nodup) (h : [a, b].Sublist t) : ¬ [b, a].Sublist t := by
  intro h'
  have hab := List.Pairwise.sublist h (idxOf_lt_of_nodup ht)
  have hba := List.Pairwise.sublist h' (idxOf_lt_of_nodup ht)
  simp only [List.pairwise_cons, List.mem_singleton, forall_eq] at hab hba
  omega

/-- What is used stands at the front, in order: nothing is new. -/
theorem InOrder.append_of_front {r : List α} (h : InOrder uses (t ++ r)) (hl : (t ++ r).Nodup) (ht : t.Nodup) :
    InOrder (t ++ uses) (t ++ r ++ t.reverse.filter (· ∉ t ++ r)) := by
  have hdisj := (List.nodup_append.mp hl).2.2
  have hnew : t.reverse.filter (· ∉ t ++ r) = [] :=
    List.filter_eq_nil_iff.mpr fun a ha => by simp [List.mem_reverse.mp ha]
  have hold : (t ++ r).filter (· ∉ t) = r := by
    rw [List.filter_append, List.filter_eq_nil_iff.mpr (by simp), List.nil_append, List.filter_eq_self]
    intro a ha
    simpa using fun hat => hdisj a hat a ha rfl
  have htouch := h.touch ht
  rw [hold] at htouch
  rwa [hnew, List.append_nil]

/-- What is used is all there is, and one element of it is new. -/
theorem inOrder_append_dropLast (ht : t.Nodup) :
    InOrder (t ++ uses) (t.dropLast ++ t.reverse.filter (· ∉ t.dropLast)) := by
  rcases List.eq_nil_or_concat t with rfl | ⟨d, x, rfl⟩
  · exact .nil
  · have hx : x ∉ d := fun hx => (List.nodup_append.mp (List.concat_eq_append ▸ ht)).2.2 x hx x (by simp) rfl
    have hnew : (d.concat x).reverse.filter (· ∉ (d.concat x).dropLast) = [x] := by
      simp [hx]
    have hnil : InOrder uses [] := .nil
    have htouch := hnil.touch ht
    rw [hnew]
    simpa using htouch

/-- If `t` starts `l` with new elements of it added in the opposite order, at
most one of them is new. -/
theorem eq_dropLast_of_starts {new : List α} (ht : t.Nodup) (hn : (l ++ new).Nodup) (hsub : new.Sublist t.reverse)
    (hpre : t <+: l ++ new) : t <+: l ∨ l = t.dropLast := by
  rcases List.eq_nil_or_concat new with rfl | ⟨rest, z, rfl⟩
  · rw [List.append_nil] at hpre
    exact .inl hpre
  -- The last new element ends the list, and it is in `t`.
  have hzt : z ∈ t := List.mem_reverse.mp (hsub.subset (by simp))
  rw [List.concat_eq_append, ← List.append_assoc] at hpre hn
  have heq : t = l ++ rest ++ [z] := by
    refine (List.prefix_concat_iff.mp hpre).resolve_right fun hp => ?_
    exact (List.nodup_append.mp hn).2.2 z (hp.subset hzt) z (by simp) rfl
  -- Two new elements would stand in `t` in both orders.
  have hrest : rest = [] := by
    rcases List.eq_nil_or_concat rest with hnil | ⟨rest', y, rfl⟩
    · exact hnil
    · refine absurd ?_ (nodup_pair ht (a := y) (b := z) ?_)
      · have hrev := List.reverse_sublist.mpr hsub
        rw [List.reverse_reverse] at hrev
        refine List.Sublist.trans ?_ hrev
        simp
      · rw [heq]
        simp
  rw [heq, hrest]
  simp

/-- The elements of `t` have been used, the first one last; those that are
new have gone to the end, the first one last. -/
theorem inOrder_append_iff (h : InOrder uses l) (hl : l.Nodup) (ht : t.Nodup) :
    InOrder (t ++ uses) (l ++ t.reverse.filter (· ∉ l)) ↔ t <+: l ∨ l = t.dropLast := by
  constructor
  · intro hin
    have hn : (l ++ t.reverse.filter (· ∉ l)).Nodup := by
      refine List.nodup_append.mpr ⟨hl, (List.nodup_reverse.mpr ht).filter _, fun a ha b hb hab => ?_⟩
      simp [← hab, ha] at hb
    have hpre := hin.starts hn ht fun a ha => by
      by_cases hal : a ∈ l
      · simp [hal]
      · simp [ha, hal]
    exact eq_dropLast_of_starts ht hn List.filter_sublist hpre
  · intro hor
    rcases hor with ⟨r, rfl⟩ | rfl
    · exact h.append_of_front hl ht
    · exact inOrder_append_dropLast ht

end LastUse
