/-
What a truncate promises: the bytes it cuts off are gone, and the bytes
below stay.

`zeroed` marks the bytes a record of calls has cut off and nothing has
written since, `Untouched` the bytes a stretch of calls leaves alone. On
local files both say what they should (`localFiles_zeroed`,
`localFiles_untouched`), so they say it of every run in which the cache
shows the local files.

`truncate` shortens the file but keeps the block that the new end cuts, with
all its bytes, and they are seen again when the file grows. A run is sound as
long as every truncate finds nothing but zeros past the new end in that
block.
-/
import Nfs.Transparency

namespace Nfs

open PlainFile Resume

variable {B : Nat} {order : HashOrder} {w₀ : PlainFiles} {rec rec' : Record} {f : Str} {x : Nat} {l l' : Bytes}

/-- A call marks the bytes it cuts off; a write unmarks what it covers. -/
def CacheOp.zero : CacheOp → Outcome Bytes → (Str → Nat → Prop) → Str → Nat → Prop
  | .truncate f n, .ok _, Z => fun g x => (g = f ∧ n ≤ x) ∨ Z g x
  | .write f off buf, .ok _, Z => fun g x => Z g x ∧ ¬ (g = f ∧ off ≤ x ∧ x < off + buf.length)
  | _, _, Z => Z

/-- Byte `x` of `f` was cut off, and has not been written since. -/
def zeroed (rec : Record) : Str → Nat → Prop := rec.foldl (fun Z p => p.1.zero p.2 Z) fun _ _ => False

@[simp] theorem zeroed_nil : ¬ zeroed [] f x := id

@[simp] theorem zeroed_snoc {op : CacheOp} {o : Outcome Bytes} :
    zeroed (rec ++ [(op, o)]) = op.zero o (zeroed rec) := by
  simp [zeroed]

/-- The call does not change byte `x` of `f`: it does not write it and does
not cut it off. -/
def CacheOp.Spares (f : Str) (x : Nat) : CacheOp → Outcome Bytes → Prop
  | .write g off buf, .ok _ => ¬ (f = g ∧ off ≤ x ∧ x < off + buf.length)
  | .truncate g n, .ok _ => ¬ (f = g ∧ n ≤ x)
  | _, _ => True

/-- No call of the record changes byte `x` of `f`. -/
def Untouched (rec : Record) (f : Str) (x : Nat) : Prop := ∀ p ∈ rec, p.1.Spares f x p.2

/-! ## On local files -/

variable {L : PlainFiles} {op : CacheOp} {o : Outcome Bytes}

theorem Plain.modify_eq_some {g : Str} {u : Bytes → Bytes} (h : Plain.modify L g u f = some l') :
    ∃ l, L f = some l ∧ l' = if f = g then u l else l := by
  by_cases hg : f = g
  · subst hg
    rw [Plain.modify_self] at h
    obtain ⟨l, hl, rfl⟩ := Option.map_eq_some_iff.mp h
    exact ⟨l, hl, (if_pos rfl).symm⟩
  · rw [Plain.modify_other hg] at h
    exact ⟨l', h, (if_neg hg).symm⟩

/-- A call that spares a byte leaves it as it is. -/
theorem CacheOp.Spares.byteAt_apply (hop : op.Spares f x o) (h : op.apply o L f = some l') :
    ∃ l, L f = some l ∧ byteAt l' x = byteAt l x := by
  cases op with
  | write g off buf =>
    cases o with
    | ok a =>
      obtain ⟨l, hl, rfl⟩ := Plain.modify_eq_some h
      refine ⟨l, hl, ?_⟩
      split
      · rename_i hg
        rw [byteAt_pwrite, if_neg fun hx => hop ⟨hg, hx⟩]
      · rfl
    | _ => exact ⟨l', h, rfl⟩
  | truncate g n =>
    cases o with
    | ok a =>
      obtain ⟨l, hl, rfl⟩ := Plain.modify_eq_some h
      refine ⟨l, hl, ?_⟩
      split
      · rename_i hg
        rw [byteAt_ftruncate, if_pos (Nat.lt_of_not_le fun hx => hop ⟨hg, hx⟩)]
      · rfl
    | _ => exact ⟨l', h, rfl⟩
  | _ => exact ⟨l', h, rfl⟩

/-- A marked byte was cut off by the call, or was marked and is spared. -/
theorem CacheOp.zero_cases {Z : Str → Nat → Prop} (h : op.zero o Z f x) :
    (∃ n a, op = .truncate f n ∧ o = .ok a ∧ n ≤ x) ∨ (op.Spares f x o ∧ Z f x) := by
  cases op with
  | write g off buf =>
    cases o with
    | ok a => exact .inr ⟨h.2, h.1⟩
    | _ => exact .inr ⟨trivial, h⟩
  | truncate g n =>
    cases o with
    | ok a =>
      by_cases hc : f = g ∧ n ≤ x
      · obtain ⟨rfl, hn⟩ := hc
        exact .inl ⟨n, a, rfl, rfl, hn⟩
      · exact .inr ⟨hc, h.resolve_left hc⟩
    | _ => exact .inr ⟨trivial, h⟩
  | _ => exact .inr ⟨trivial, h⟩

theorem localFiles_zeroed (hz : zeroed rec f x) (hl : localFiles w₀ rec f = some l) : byteAt l x = 0 := by
  induction rec using List.reverseRecOn generalizing l with
  | nil => exact hz.elim
  | append_singleton rec p ih =>
    rw [zeroed_snoc] at hz
    rw [localFiles_snoc] at hl
    rcases CacheOp.zero_cases hz with ⟨n, a, hop, ho, hn⟩ | ⟨hs, hz⟩
    · rw [hop, ho] at hl
      obtain ⟨l₀, -, rfl⟩ := Plain.modify_eq_some hl
      rw [if_pos rfl, byteAt_ftruncate, if_neg (Nat.not_lt.mpr hn)]
    · obtain ⟨l₀, hl₀, hb⟩ := hs.byteAt_apply hl
      rw [hb, ih hz hl₀]

theorem localFiles_untouched (hu : Untouched rec' f x) (hl : localFiles w₀ rec f = some l)
    (hl' : localFiles w₀ (rec ++ rec') f = some l') : byteAt l' x = byteAt l x := by
  induction rec' using List.reverseRecOn generalizing l' with
  | nil =>
    rw [List.append_nil, hl] at hl'
    cases hl'
    rfl
  | append_singleton rec' p ih =>
    rw [← List.append_assoc, localFiles_snoc] at hl'
    obtain ⟨l₀, hl₀, hb⟩ := (hu p (by simp)).byteAt_apply hl'
    rw [hb, ih (fun q hq => hu q (List.mem_append_left _ hq)) hl₀]

/-! ## In runs of the cache -/

/-- Every write stores something. -/
def NonEmptyWrites (_ : Record) (_ : Cache) : CacheOp → Outcome Bytes → Prop
  | .write _ _ buf, _ => buf ≠ []
  | _, _ => True

/-- Every write stores something, and a truncate that makes a cached file
shorter finds no byte but zero past the new end in the block it cuts. -/
def CleanCuts (B : Nat) (_ : Record) (c : Cache) (op : CacheOp) (_ : Outcome Bytes) : Prop := op.Respects B c

theorem CleanCuts.admits : Admits B True False w₀ (CleanCuts B) := fun _ _ _ _ _ h _ => ⟨h, fun _ h => h.elim⟩

/-- **Truncation.** In every run whose cuts are clean: bytes cut off by a
truncate are zero until they are written, in every read and on the server
after a write-back; and a byte that is neither cut off nor written keeps its
value from one read to the next. -/
theorem truncate_zeroes (hB : 0 < B) (order : HashOrder) (w₀ : PlainFiles) {rec : Record} {c : Cache} {w : PlainFiles}
    (h : CacheRun Plain.ServeOk B order (CleanCuts B) w₀ rec c w) :
    (∀ f off size c' data w', Exec Plain.ServeOk (Cache.read B f off size c) w c' (.ok data) w' →
      ∀ i, i < data.length → zeroed rec f (off + i) → byteAt data i = 0) ∧
    (∀ (op : CacheOp) f c' o w', op.WritesBack f → Exec Plain.ServeOk (op.run B order c) w c' o w' →
      ∀ s x, w' f = some s → zeroed rec f x → byteAt s x = 0) ∧
    (∀ f off size c' data w', Exec Plain.ServeOk (Cache.read B f off size c) w c' (.ok data) w' →
      ∀ rec' c₁ w₁ off₁ size₁ c₂ data₁ w₂, CacheRun Plain.ServeOk B order (CleanCuts B) w₀ (rec ++ rec') c₁ w₁ →
      Exec Plain.ServeOk (Cache.read B f off₁ size₁ c₁) w₁ c₂ (.ok data₁) w₂ →
      ∀ i i₁, i < data.length → i₁ < data₁.length → off + i = off₁ + i₁ → Untouched rec' f (off + i) →
        byteAt data₁ i₁ = byteAt data i) := by
  have hread : ∀ {rec c w f off size c' data w'}, CacheRun Plain.ServeOk B order (CleanCuts B) w₀ rec c w →
      Exec Plain.ServeOk (Cache.read B f off size c) w c' (.ok data) w' →
      ∃ l, localFiles w₀ rec f = some l ∧ ∀ i, i < data.length → byteAt data i = byteAt l (off + i) := by
    intro rec c w f off size c' data w' h hx
    obtain ⟨l, hl, rfl⟩ := h.read_local Plain.backs_ok hB CleanCuts.admits hx
    refine ⟨l, hl, fun i hi => ?_⟩
    rw [length_pread] at hi
    rw [byteAt_pread, if_pos (by omega)]
  refine ⟨?_, ?_, ?_⟩
  · intro f off size c' data w' hx i hi hz
    obtain ⟨l, hl, hd⟩ := hread h hx
    rw [hd i hi, localFiles_zeroed hz hl]
  · intro op f c' o w' hop hx s x hs hz
    rw [(h.writeBack_local hB CleanCuts.admits hop hx).2] at hs
    exact localFiles_zeroed hz hs
  · intro f off size c' data w' hx rec' c₁ w₁ off₁ size₁ c₂ data₁ w₂ h₁ hx₁ i i₁ hi hi₁ he hu
    obtain ⟨l, hl, hd⟩ := hread h hx
    obtain ⟨l₁, hl₁, hd₁⟩ := hread h₁ hx₁
    rw [hd i hi, hd₁ i₁ hi₁, ← he, localFiles_untouched hu hl hl₁]

/-- Three bytes cut at a block boundary, and the file made longer again. -/
def regrown : Record × Cache × PlainFiles :=
  Plain.calls 2 .inserted (fun _ => some []) [.write [102] 0 [5, 6, 7], .truncate [102] 2, .truncate [102] 4]

/-- The third byte reads as zero. -/
theorem truncate_zeroes_regrown : zeroed regrown.1 [102] 2 ∧
    ∃ c' w', Exec Plain.ServeOk (Cache.read 2 [102] 0 4 regrown.2.1) regrown.2.2 c' (.ok [5, 6, 0, 0]) w' ∧
      byteAt [5, 6, 0, 0] 2 = 0 := by
  obtain ⟨hrun, hex⟩ := Plain.calls_run (CleanCuts 2) 2 .inserted (fun _ => some []) (fun _ => rfl)
    [.write [102] 0 [5, 6, 7], .truncate [102] 2, .truncate [102] 4] <| by
      intro op hop rec c o
      simp only [List.mem_cons, List.not_mem_nil, or_false] at hop
      rcases hop with rfl | rfl | rfl
      · exact List.cons_ne_nil _ _
      · exact fun fc _ => .of_dvd (by decide) (by decide)
      · exact fun fc _ => .of_dvd (by decide) (by decide)
  have hrec : regrown.1 = [(.write [102] 0 [5, 6, 7], .ok []), (.truncate [102] 2, .ok []),
    (.truncate [102] 4, .ok [])] := by decide +kernel
  have hz : zeroed regrown.1 [102] 2 := by rw [hrec]; exact .inr (.inl ⟨rfl, le_refl _⟩)
  obtain ⟨hread, -⟩ := Plain.exec_answer (p := Cache.read 2 [102] 0 4 regrown.2.1) (o := .ok [5, 6, 0, 0]) hex
    (by decide +kernel)
  exact ⟨hz, _, _, hread, (truncate_zeroes (by decide) _ _ hrun).1 _ _ _ _ _ _ hread 2 (by decide) hz⟩

/-- Two bytes cut in the middle of their block, and the file made longer
again. -/
def resurfaced : Record × Cache × PlainFiles :=
  Plain.calls 2 .inserted (fun _ => some []) [.write [102] 0 [1, 2], .truncate [102] 1, .truncate [102] 2]

/-- The byte that was cut off is back: a read returns it, and a flush puts it
on the server. -/
theorem shrink_keeps_tail :
    CacheRun Plain.ServeOk 2 .inserted NonEmptyWrites (fun _ => some []) resurfaced.1 resurfaced.2.1 resurfaced.2.2 ∧
      zeroed resurfaced.1 [102] 1 ∧
      (∃ c' w', Exec Plain.ServeOk (Cache.read 2 [102] 0 2 resurfaced.2.1) resurfaced.2.2 c' (.ok [1, 2]) w') ∧
      ∃ c' w', Exec Plain.ServeOk ((CacheOp.flush [102]).run 2 .inserted resurfaced.2.1) resurfaced.2.2 c'
        (.ok []) w' ∧ w' [102] = some [1, 2] := by
  obtain ⟨hrun, hex⟩ := Plain.calls_run NonEmptyWrites 2 .inserted (fun _ => some []) (fun _ => rfl)
    [.write [102] 0 [1, 2], .truncate [102] 1, .truncate [102] 2] (by simp [NonEmptyWrites])
  have hrec : resurfaced.1 = [(.write [102] 0 [1, 2], .ok []), (.truncate [102] 1, .ok []),
    (.truncate [102] 2, .ok [])] := by decide +kernel
  obtain ⟨hread, -⟩ := Plain.exec_answer (p := Cache.read 2 [102] 0 2 resurfaced.2.1) (o := .ok [1, 2]) hex
    (by decide +kernel)
  obtain ⟨hflush, -⟩ := Plain.exec_answer (p := (CacheOp.flush [102]).run 2 .inserted resurfaced.2.1) (o := .ok [])
    hex (by decide +kernel)
  refine ⟨hrun, ?_, ⟨_, _, hread⟩, _, _, hflush, by decide +kernel⟩
  rw [hrec]
  exact .inr (.inl ⟨rfl, le_refl _⟩)

end Nfs
