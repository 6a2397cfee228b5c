/-
Computations in layers, one carrying out the requests of the other.

`Act.via` has every request of a computation carried out by a program of a
lower layer. That this is sound is said with a part of an execution
(`Act.Goes`) of the upper layer, in which a request is one step.

`Act.Must` is total correctness over a world that answers some requests
only: the computation never waits for an answer that does not come, it makes
no other requests, and it ends as it should. A computation is finite, so
nothing has to be said about rounds.
-/
import Mathlib.Data.DFinsupp.WellFounded
import Nfs.Lib.Act

namespace Resume

section
variable {σ τ ρ ρ' W V : Type} {Ans : ρ → Type} {Ans' : ρ' → Type} {α β : Type}

/-- The computation with its requests carried out by programs; what it ends
with is what they return together. -/
def Act.via (h : (r : ρ) → Prog τ Ans' (Ans r)) : Act σ Ans α → Prog τ Ans' (σ × Outcome α)
  | .done s o => pure (s, o)
  | .ask _ r k => h r >>= fun a => (k a).via h

/-! ## Parts of executions -/

variable {serve : W → (r : ρ) → Ans r → W → Prop} {p q : Act σ Ans α} {w w' w'' : W} {P : W → ρ → Prop}

/-- The computation has come from `p` to `q`. -/
inductive Act.Goes (serve : W → (r : ρ) → Ans r → W → Prop) (p : Act σ Ans α) (w : W) : Act σ Ans α → W → Prop
  | refl : Goes serve p w p w
  | step {s : σ} {r : ρ} {k : Ans r → Act σ Ans α} {a : Ans r} {w' w'' : W} :
      Goes serve p w (.ask s r k) w' → serve w' r a w'' → Goes serve p w (k a) w''

theorem Act.Goes.exec {s : σ} {o : Outcome α} (h : p.Goes serve w q w') (hx : Exec serve q w' s o w'') :
    Exec serve p w s o w'' := by
  induction h with
  | refl => exact hx
  | step _ hs ih => exact ih (.ask _ hs hx)

/-- An execution of two parts in sequence that ends well. -/
theorem Exec.of_bind {f : α → Prog σ Ans β} {s : σ} {b : β} (hx : Exec serve (p.bind f) w s (.ok b) w'') :
    ∃ s₁ a w₁, Exec serve p w s₁ (.ok a) w₁ ∧ Exec serve (f a s₁) w₁ s (.ok b) w'' := by
  induction p generalizing w with
  | done s₁ o =>
    cases o with
    | ok a => exact ⟨s₁, a, w, .done s₁ (.ok a) w, hx⟩
    | err e => cases hx
    | fault => cases hx
  | ask s₀ r k ih =>
    cases hx with
    | ask _ hs hx =>
      obtain ⟨s₁, a, w₁, hp, hf⟩ := ih _ hx
      exact ⟨s₁, a, w₁, .ask s₀ hs hp, hf⟩

/-- In every execution, every request is one that `P` admits there. -/
def Act.Issues (serve : W → (r : ρ) → Ans r → W → Prop) (P : W → ρ → Prop) : Act σ Ans α → W → Prop
  | .done .., _ => True
  | .ask _ r k, w => P w r ∧ ∀ a w', serve w r a w' → (k a).Issues serve P w'

theorem Act.Goes.issues (h : p.Goes serve w q w') (hp : p.Issues serve P w) : q.Issues serve P w' := by
  induction h with
  | refl => exact hp
  | step _ hs ih => exact ih.2 _ _ hs

theorem Act.Issues.mono {P' : W → ρ → Prop} (h : p.Issues serve P w) (hP : ∀ {w r}, P w r → P' w r) :
    p.Issues serve P' w := by
  induction p generalizing w with
  | done s o => trivial
  | ask s r k ih => exact ⟨hP h.1, fun a w' hs => ih a (h.2 a w' hs)⟩

theorem Act.Issues.of_forall (h : ∀ w r, P w r) : p.Issues serve P w := by
  induction p generalizing w with
  | done s o => trivial
  | ask s r k ih => exact ⟨h w r, fun a w' _ => ih a⟩

theorem Act.Issues.bind {f : α → Prog σ Ans β} (h : p.Issues serve P w) (hf : ∀ a s w, (f a s).Issues serve P w) :
    (p.bind f).Issues serve P w := by
  induction p generalizing w with
  | done s o =>
    cases o with
    | ok a => exact hf a s w
    | err e => trivial
    | fault => trivial
  | ask s r k ih => exact ⟨h.1, fun a w' hs => ih a (h.2 a w' hs)⟩

theorem Act.Issues.lift {emb : σ → τ} {req : ρ → ρ'} {ans : ∀ r, Ans' (req r) → Ans r}
    {serve' : W → (r : ρ') → Ans' r → W → Prop} {P' : W → ρ' → Prop} (h : p.Issues serve P w)
    (hs : ∀ {w r a w'}, serve' w (req r) a w' → serve w r (ans r a) w') (hP : ∀ {w r}, P w r → P' w (req r)) :
    (p.lift emb req ans).Issues serve' P' w := by
  induction p generalizing w with
  | done s o => trivial
  | ask s r k ih => exact ⟨hP h.1, fun a w' hs' => ih _ (h.2 _ w' (hs hs'))⟩

/-- An execution, seen through a map of the world, which only has to fit the
requests that are made. -/
theorem Exec.through {serve' : V → (r : ρ) → Ans r → V → Prop} (f : W → V) {s : σ} {o : Outcome α}
    (h : Exec serve p w s o w') (hp : p.Issues serve P w)
    (hf : ∀ {w r a w'}, P w r → serve w r a w' → serve' (f w) r a (f w')) : Exec serve' p (f w) s o (f w') := by
  induction h with
  | done s o w => exact .done s o (f w)
  | ask s hs _ ih => exact .ask s (hf hp.1 hs) (ih (hp.2 _ _ hs))

/-- So are the requests. -/
theorem Act.Issues.pull {serve' : V → (r : ρ) → Ans r → V → Prop} {P : V → ρ → Prop} (f : W → V)
    (h : p.Issues serve' P (f w)) (hf : ∀ {w r a w'}, P (f w) r → serve w r a w' → serve' (f w) r a (f w')) :
    p.Issues serve (fun w => P (f w)) w := by
  induction p generalizing w with
  | done s o => trivial
  | ask s r k ih => exact ⟨h.1, fun a w' hs => ih a (h.2 a (f w') (hf h.1 hs))⟩

/-- What holds in one environment holds in one that does less. -/
theorem Act.wp.narrow {E E' : Env σ W Ans} {Q : σ → W → Outcome α → Prop} (h : p.wp E Q w)
    (hserve : ∀ {w r a w'}, E'.serve w r a w' → E.serve w r a w') (hrely : ∀ {w w'}, E'.rely w w' → E.rely w w')
    (hseen : ∀ {s w}, E.seen s w → E'.seen s w) : p.wp E' Q w := by
  induction p generalizing w with
  | done s o => exact h
  | ask s r k ih => exact ⟨hseen h.1, fun w₁ hr a w₂ hs => ih a (h.2 w₁ (hrely hr) a w₂ (hserve hs))⟩

/-- **Simulation.** Where each request of the upper layer is carried out by a
program that does what `serve` says, as far as `R` shows it, so is every
computation. -/
theorem via_wp {E : Env τ V Ans'} {R : τ → V → W → Prop} {h : (r : ρ) → Prog τ Ans' (Ans r)}
    (hstep : ∀ {t v w r}, P w r → R t v w →
      (h r t).wp E (Returns fun a t' v' => ∃ w', serve w r a w' ∧ R t' v' w') v)
    {t : τ} {v : V} (hp : p.Issues serve P w) (hR : R t v w) :
    (p.via h t).wp E (Returns fun x t' v' => ∃ w', Exec serve p w x.1 x.2 w' ∧ R t' v' w') v := by
  induction p generalizing w t v with
  | done s o => exact ⟨w, .done s o w, hR⟩
  | ask s r k ih =>
    refine wp_returns (hstep hp.1 hR) fun t' v' a hs => ?_
    obtain ⟨w', hs, hR'⟩ := hs
    refine (ih a (hp.2 a w' hs) hR').returns fun x t'' v'' hx => ?_
    obtain ⟨w'', hx, hR''⟩ := hx
    exact ⟨w'', .ask s hs hx, hR''⟩

/-! ## Errors as values -/

/-- What the computation ends with, as a value: its result or its error. -/
def Act.attempt : Act σ Ans α → Act σ Ans (Except Int α)
  | .done s (.ok a) => .done s (.ok (.ok a))
  | .done s (.err e) => .done s (.ok (.error e))
  | .done s .fault => .done s .fault
  | .ask s r k => .ask s r fun a => (k a).attempt

def Prog.attempt (p : Prog σ Ans α) : Prog σ Ans (Except Int α) := fun s => (p s).attempt

theorem wp_attempt {E : Env σ W Ans} {p : Prog σ Ans α} {s : σ} {R : Except Int α → σ → W → Prop}
    {Q : σ → W → Outcome α → Prop} (h : (p s).wp E Q w) (hok : ∀ s w a, Q s w (.ok a) → R (.ok a) s w)
    (herr : ∀ s w e, Q s w (.err e) → R (.error e) s w) (hfault : ∀ s w, ¬ Q s w .fault) :
    ((p.attempt) s).wp E (Returns R) w := by
  show Act.wp _ _ (p s).attempt w
  revert h
  induction p s generalizing w with
  | done s o =>
    intro h
    cases o with
    | ok a => exact hok s w a h
    | err e => exact herr s w e h
    | fault => exact absurd h (hfault s w)
  | ask s r k ih => exact fun h => ⟨h.1, fun w₁ hr a w₂ hs => ih a (h.2 w₁ hr a w₂ hs)⟩

/-! ## Answers by a function -/

/-- Run the computation with the answers `g` gives, as long as it gives any. -/
def Act.runWith (g : W → (r : ρ) → Option (Ans r × W)) : Act σ Ans α → W → Option (σ × Outcome α × W)
  | .done s o, w => some (s, o, w)
  | .ask _ r k, w => match g w r with
    | some (a, w') => (k a).runWith g w'
    | none => none

theorem exec_runWith {g : W → (r : ρ) → Option (Ans r × W)} {I : W → Prop}
    (hg : ∀ {w r x}, I w → g w r = some x → serve w r x.1 x.2 ∧ I x.2) {x : σ × Outcome α × W} (hI : I w)
    (h : p.runWith g w = some x) : Exec serve p w x.1 x.2.1 x.2.2 := by
  induction p generalizing w with
  | done s o =>
    cases h
    exact .done s o w
  | ask s r k ih =>
    rw [Act.runWith] at h
    split at h
    · rename_i a w₁ ha
      obtain ⟨hs, hI'⟩ := hg hI ha
      exact .ask s hs (ih a hI' h)
    · cases h

/-! ## Total correctness -/

variable {Q Q' : σ → W → Outcome α → Prop}

/-- Every request is answered, and every way of running the computation from
`w` ends in `Q`. -/
def Act.Must (serve : W → (r : ρ) → Ans r → W → Prop) (Q : σ → W → Outcome α → Prop) : Act σ Ans α → W → Prop
  | .done s o, w => Q s w o
  | .ask _ r k, w => (∃ a w', serve w r a w') ∧ ∀ a w', serve w r a w' → (k a).Must serve Q w'

theorem Act.Must.mono (h : p.Must serve Q w) (hQ : ∀ s w o, Q s w o → Q' s w o) : p.Must serve Q' w := by
  induction p generalizing w with
  | done s o => exact hQ _ _ _ h
  | ask s r k ih => exact ⟨h.1, fun a w' hs => ih a (h.2 a w' hs)⟩

/-- Sequencing, from a computation that is under way. -/
theorem Act.Must.bind {f : α → Prog σ Ans β} {R : α → σ → W → Prop} {Q : σ → W → Outcome β → Prop}
    (h : p.Must serve (Returns R) w) (hf : ∀ s w a, R a s w → (f a s).Must serve Q w) :
    (p.bind f).Must serve Q w := by
  induction p generalizing w with
  | done s o =>
    cases o with
    | ok a => exact hf s w a h
    | err e => exact h.elim
    | fault => exact h.elim
  | ask s r k ih => exact ⟨h.1, fun a w' hs => ih a (h.2 a w' hs)⟩

theorem must_returns {s : σ} {p : Prog σ Ans α} {f : α → Prog σ Ans β} {R : α → σ → W → Prop}
    {Q : σ → W → Outcome β → Prop} (h : (p s).Must serve (Returns R) w)
    (hf : ∀ s w a, R a s w → (f a s).Must serve Q w) : ((p >>= f) s).Must serve Q w := Act.Must.bind h hf

theorem Prog.assert_pos {p : Prop} [Decidable p] (h : p) : (Prog.assert p : Prog σ Ans Unit) = pure () := if_pos h

theorem Prog.assert_neg {p : Prop} [Decidable p] (h : ¬ p) :
    (Prog.assert p : Prog σ Ans Unit) = fun s => .done s .fault := if_neg h

/-- The counterpart of `wp_handle`. -/
theorem must_handle {serve : W → (r : ρ') → Ans' r → W → Prop} {h : (r : ρ) → Prog τ Ans' (Ans r)} {e : Int}
    {g : V → (r : ρ) → Option (Ans r × V)} {R : V → τ → W → Prop}
    (hh : ∀ {v r a v' t w}, g v r = some (a, v') → R v t w →
      (h r t).Must serve (Returns fun b t w => b = a ∧ R v' t w) w) :
    ∀ (p : Act σ Ans α) {v v' : V} {s : σ} {a : α} {t : τ} {w : W}, p.interpOr e g v = (s, .ok a, v') → R v t w →
      (p.handle h t).Must serve (Returns fun b t w => b = a ∧ R v' t w) w
  | .done _ (.ok _), _, _, _, _, _, _, hp, hR => by
    cases hp
    exact ⟨rfl, hR⟩
  | .done _ (.err _), _, _, _, _, _, _, hp, _ => by cases hp
  | .done _ .fault, _, _, _, _, _, _, hp, _ => by cases hp
  | .ask s r k, v, v', s', a, t, w, hp, hR => by
    rw [Act.interpOr] at hp
    cases hg : g v r with
    | none =>
      rw [hg] at hp
      cases hp
    | some q =>
      rw [hg] at hp
      refine must_returns (hh hg hR) ?_
      intro t' w' b hb
      obtain ⟨rfl, hR'⟩ := hb
      exact must_handle hh (k q.1) hp hR'

theorem Returns.ok {R : α → σ → W → Prop} {s : σ} {o : Outcome α} (h : Returns R s w o) : ∃ a, o = .ok a ∧ R a s w := by
  cases o with
  | ok a => exact ⟨a, rfl, h⟩
  | err _ => exact h.elim
  | fault => exact h.elim

/-! ## What is left of a computation -/

/-- One answer further. -/
inductive Act.Rest : Act σ Ans α → Act σ Ans α → Prop
  | mk (s : σ) (r : ρ) (k : Ans r → Act σ Ans α) (a : Ans r) : Rest (k a) (.ask s r k)

theorem Act.rest_wf : WellFounded (@Act.Rest σ ρ Ans α) := by
  refine ⟨fun p => ?_⟩
  induction p with
  | done s o => exact ⟨_, fun q hq => by cases hq⟩
  | ask s r k ih =>
    refine ⟨_, fun q hq => ?_⟩
    cases hq with
    | mk _ _ _ a => exact ih a

/-- A system in which every step from an invariant leads down some order comes
to an end. -/
theorem acc_of_measure {S T : Type} {step : S → S → Prop} {R : T → T → Prop} {I : S → Prop} (hR : WellFounded R)
    (f : S → T) (hstep : ∀ {s s'}, I s → step s s' → I s' ∧ R (f s') (f s)) {s : S} (h : I s) :
    Acc (fun s' s => step s s') s := by
  induction hf : f s using hR.induction generalizing s with
  | _ t ih =>
    subst hf
    exact ⟨_, fun s' hs => ih _ (hstep h hs).2 (hstep h hs).1 rfl⟩

/-- One after the other, finitely many can only go down so often. -/
theorem wf_componentwise {ι T : Type} [Finite ι] {R : T → T → Prop} (hR : WellFounded R) :
    WellFounded fun f g : ι → T => ∃ i, R (f i) (g i) ∧ ∀ j, j ≠ i → f j = g j := by
  have hlex : WellFounded (Pi.Lex WellOrderingRel fun {_ : ι} => R) :=
    Pi.Lex.wellFounded (s := fun _ => R) WellOrderingRel fun _ => hR
  refine Subrelation.wf (fun {f g} h => ?_) hlex
  obtain ⟨i, hi, hother⟩ := h
  refine ⟨i, fun j hj => hother j ?_, hi⟩
  rintro rfl
  exact irrefl _ hj

theorem Act.Yields.imp {P P' : α → Prop} (h : p.Yields P) (hP : ∀ a, P a → P' a) : p.Yields P' := by
  induction p with
  | done s o =>
    obtain ⟨a, rfl, ha⟩ := h
    exact ⟨a, rfl, hP a ha⟩
  | ask s r k ih => exact fun a => ih a (h a)

theorem Act.Yields.and {P P' : α → Prop} (h : p.Yields P) (h' : p.Yields P') : p.Yields fun a => P a ∧ P' a := by
  induction p with
  | done s o =>
    obtain ⟨a, rfl, ha⟩ := h
    obtain ⟨b, hb, ha'⟩ := h'
    cases hb
    exact ⟨a, rfl, ha, ha'⟩
  | ask s r k ih => exact fun a => ih a (h a) (h' a)

end

end Resume
