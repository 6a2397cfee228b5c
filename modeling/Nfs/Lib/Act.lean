/-
Computations that stop at every request they issue, and a rely-guarantee
calculus for them.

An `Act` is the tree of everything a sequential computation can do: it ends
with a state and an outcome, or it waits in a state for the answer to a
request and goes on according to that answer. A program (`Prog`) is an `Act`
for every starting state; programs compose as a monad whose `err` outcome is
an early exit and whose `fault` outcome is a failed check.

`Act.wp` is the weakest precondition of an outcome assertion when the
requests are served by a shared world: between the moment a request is
issued and the moment it is served the world may move by the environment's
`rely` steps, and every state in which a request is pending satisfies
`seen`. The rules follow the constructors: one for each primitive, `bind`
for sequencing (`wp_bind`), `mono` for consequence, `rely` for stability.
`Exec` is one execution, with nobody else moving the world.
-/
import Mathlib.Logic.Relation

namespace Resume

/-- How a computation ends: with a value, with an error code of its own, or
at a check that fails. -/
inductive Outcome (α : Type)
  | ok (a : α)
  | err (e : Int)
  | fault
  deriving DecidableEq, Repr

/-- A computation over a state `σ`, waiting at each request of `ρ`. -/
inductive Act (σ : Type) {ρ : Type} (Ans : ρ → Type) (α : Type)
  | done (s : σ) (o : Outcome α)
  | ask (s : σ) (r : ρ) (k : Ans r → Act σ Ans α)

/-- A computation for every starting state. -/
def Prog (σ : Type) {ρ : Type} (Ans : ρ → Type) (α : Type) := σ → Act σ Ans α

section
variable {σ τ ρ ρ' W : Type} {Ans : ρ → Type} {Ans' : ρ' → Type} {α β : Type}

def Act.bind : Act σ Ans α → (α → Prog σ Ans β) → Act σ Ans β
  | .done s (.ok a), f => f a s
  | .done s (.err e), _ => .done s (.err e)
  | .done s .fault, _ => .done s .fault
  | .ask s r k, f => .ask s r fun a => (k a).bind f

instance : Monad (Prog σ Ans) where
  pure a := fun s => .done s (.ok a)
  bind p f := fun s => (p s).bind f

/-- Issue a request and take its answer. -/
def Prog.ask (r : ρ) : Prog σ Ans (Ans r) := fun s => .ask s r fun a => .done s (.ok a)

/-- Return the error code `e`. -/
def Prog.throw (e : Int) : Prog σ Ans α := fun s => .done s (.err e)

def Prog.get : Prog σ Ans σ := fun s => .done s (.ok s)

def Prog.set (s' : σ) : Prog σ Ans Unit := fun _ => .done s' (.ok ())

/-- A step that issues no request; `none` is a failed check. -/
def Prog.step (m : σ → Option (α × σ)) : Prog σ Ans α := fun s =>
  match m s with
  | some (a, s') => .done s' (.ok a)
  | none => .done s .fault

/-- Take the value of a computation that may fail a check. -/
def Prog.check : Option α → Prog σ Ans α
  | some a => pure a
  | none => fun s => .done s .fault

/-- `assert(p)`. -/
def Prog.assert (p : Prop) [Decidable p] : Prog σ Ans Unit := if p then pure () else fun s => .done s .fault

/-- Drop the error code, if there is one. -/
def Act.swallow : Act σ Ans Unit → Act σ Ans Unit
  | .done s (.err _) => .done s (.ok ())
  | .done s o => .done s o
  | .ask s r k => .ask s r fun a => (k a).swallow

def Prog.swallow (p : Prog σ Ans Unit) : Prog σ Ans Unit := fun s => (p s).swallow

/-- The same computation inside a larger state, its requests and their
answers translated. -/
def Act.lift (emb : σ → τ) (req : ρ → ρ') (ans : ∀ r, Ans' (req r) → Ans r) :
    Act σ Ans α → Act τ Ans' α
  | .done s o => .done (emb s) o
  | .ask s r k => .ask (emb s) (req r) fun a => (k (ans r a)).lift emb req ans

/-! ## Weakest preconditions -/

/-- What a computation runs in: how the world answers its requests, how the
world moves on its own while a request is pending, and what holds of every
state in which one is. -/
structure Env (σ W : Type) {ρ : Type} (Ans : ρ → Type) where
  serve : W → (r : ρ) → Ans r → W → Prop
  rely : W → W → Prop
  seen : σ → W → Prop

/-- Nobody else moves the world, and nothing is asked of the waiting states. -/
def Env.solo (serve : W → (r : ρ) → Ans r → W → Prop) : Env σ W Ans where
  serve := serve
  rely := Eq
  seen _ _ := True

/-- Every way of running the computation from `w` ends in `Q`. -/
def Act.wp (E : Env σ W Ans) (Q : σ → W → Outcome α → Prop) : Act σ Ans α → W → Prop
  | .done s o, w => Q s w o
  | .ask s r k, w => E.seen s w ∧ ∀ w₁, E.rely w w₁ → ∀ a w₂, E.serve w₁ r a w₂ → (k a).wp E Q w₂

/-- How a computation has ended, if it has. -/
def Act.result : Act σ Ans α → Option (Outcome α)
  | .done _ o => some o
  | .ask .. => none

/-- The assertion a sequence needs between its two parts. -/
def Bound (E : Env σ W Ans) (f : α → Prog σ Ans β) (Q : σ → W → Outcome β → Prop) :
    σ → W → Outcome α → Prop
  | s, w, .ok a => (f a s).wp E Q w
  | s, w, .err e => Q s w (.err e)
  | s, w, .fault => Q s w .fault

variable {E : Env σ W Ans} {Q Q' : σ → W → Outcome α → Prop} {s : σ} {w : W}

theorem Act.wp.mono {p : Act σ Ans α} (h : p.wp E Q w) (hQ : ∀ s w o, Q s w o → Q' s w o) :
    p.wp E Q' w := by
  induction p generalizing w with
  | done s o => exact hQ _ _ _ h
  | ask s r k ih => exact ⟨h.1, fun w₁ hr a w₂ hs => ih a (h.2 w₁ hr a w₂ hs)⟩

theorem Act.wp.and {p : Act σ Ans α} (h : p.wp E Q w) (h' : p.wp E Q' w) :
    p.wp E (fun s w o => Q s w o ∧ Q' s w o) w := by
  induction p generalizing w with
  | done s o => exact ⟨h, h'⟩
  | ask s r k ih =>
    exact ⟨h.1, fun w₁ hr a w₂ hs => ih a (h.2 w₁ hr a w₂ hs) (h'.2 w₁ hr a w₂ hs)⟩

/-- What holds everywhere holds at the end. -/
theorem wp_always (hseen : ∀ s w, E.seen s w) (hQ : ∀ s w o, Q s w o) (p : Act σ Ans α) : p.wp E Q w := by
  induction p generalizing w with
  | done s o => exact hQ s w o
  | ask s r k ih => exact ⟨hseen s w, fun w₁ _ a w₂ _ => ih a⟩

theorem wp_bind {p : Prog σ Ans α} {f : α → Prog σ Ans β} {Q : σ → W → Outcome β → Prop} :
    ((p >>= f) s).wp E Q w ↔ (p s).wp E (Bound E f Q) w := by
  show ((p s).bind f).wp E Q w ↔ _
  generalize p s = q
  induction q generalizing w with
  | done s o => cases o <;> exact Iff.rfl
  | ask s r k ih =>
    simp only [Act.bind, Act.wp]
    exact and_congr_right fun _ => forall_congr' fun w₁ => forall_congr' fun _ => forall_congr' fun a =>
      forall_congr' fun w₂ => forall_congr' fun _ => ih a

@[simp] theorem wp_pure {a : α} : ((pure a : Prog σ Ans α) s).wp E Q w ↔ Q s w (.ok a) := Iff.rfl

@[simp] theorem wp_throw {e : Int} : ((Prog.throw e : Prog σ Ans α) s).wp E Q w ↔ Q s w (.err e) := Iff.rfl

@[simp] theorem wp_get {Q : σ → W → Outcome σ → Prop} :
    ((Prog.get : Prog σ Ans σ) s).wp E Q w ↔ Q s w (.ok s) := Iff.rfl

@[simp] theorem wp_set {s' : σ} {Q : σ → W → Outcome Unit → Prop} :
    ((Prog.set s' : Prog σ Ans Unit) s).wp E Q w ↔ Q s' w (.ok ()) := Iff.rfl

theorem wp_ask {r : ρ} {Q : σ → W → Outcome (Ans r) → Prop} :
    ((Prog.ask r : Prog σ Ans (Ans r)) s).wp E Q w ↔
      E.seen s w ∧ ∀ w₁, E.rely w w₁ → ∀ a w₂, E.serve w₁ r a w₂ → Q s w₂ (.ok a) := Iff.rfl

theorem wp_step {m : σ → Option (α × σ)} {a : α} {s' : σ} (h : m s = some (a, s')) :
    ((Prog.step m : Prog σ Ans α) s).wp E Q w ↔ Q s' w (.ok a) := by
  simp only [Prog.step, h, Act.wp]

theorem wp_check {o : Option α} {a : α} (h : o = some a) :
    ((Prog.check o : Prog σ Ans α) s).wp E Q w ↔ Q s w (.ok a) := by
  subst h; exact Iff.rfl

theorem wp_assert {p : Prop} [Decidable p] {Q : σ → W → Outcome Unit → Prop} (h : p) :
    ((Prog.assert p : Prog σ Ans Unit) s).wp E Q w ↔ Q s w (.ok ()) := by
  have he : (Prog.assert p : Prog σ Ans Unit) = pure () := if_pos h
  rw [he]; exact Iff.rfl

/-- Sequencing with an assertion of one's own in between. -/
theorem wp_seq {p : Prog σ Ans α} {f : α → Prog σ Ans β} {Q' : σ → W → Outcome β → Prop}
    (h : (p s).wp E Q w) (hok : ∀ s w a, Q s w (.ok a) → (f a s).wp E Q' w)
    (herr : ∀ s w e, Q s w (.err e) → Q' s w (.err e)) (hfault : ∀ s w, Q s w .fault → Q' s w .fault) :
    ((p >>= f) s).wp E Q' w := by
  rw [wp_bind]
  refine h.mono fun s w o hQ => ?_
  cases o with
  | ok a => exact hok s w a hQ
  | err e => exact herr s w e hQ
  | fault => exact hfault s w hQ

/-- The computation returns a value, with `R`. -/
def Returns (R : α → σ → W → Prop) : σ → W → Outcome α → Prop
  | s, w, .ok a => R a s w
  | _, _, _ => False

/-- Weakening what is returned. -/
theorem Act.wp.returns {R R' : α → σ → W → Prop} {p : Act σ Ans α} (h : p.wp E (Returns R) w)
    (hR : ∀ a s w, R a s w → R' a s w) : p.wp E (Returns R') w := by
  refine h.mono fun s w o hQ => ?_
  cases o with
  | ok a => exact hR a s w hQ
  | err e => exact hQ
  | fault => exact hQ

theorem wp_returns {R : α → σ → W → Prop} {p : Prog σ Ans α} {f : α → Prog σ Ans β} {Q' : σ → W → Outcome β → Prop}
    (h : (p s).wp E (Returns R) w) (hf : ∀ s w a, R a s w → (f a s).wp E Q' w) : ((p >>= f) s).wp E Q' w :=
  wp_seq h hf (fun _ _ _ hR => hR.elim) fun _ _ hR => hR.elim

theorem wp_swallow {p : Prog σ Ans Unit} {Q : σ → W → Outcome Unit → Prop} :
    (p.swallow s).wp E Q w ↔ (p s).wp E (fun s w o => Q s w (match o with | .err _ => .ok () | o => o)) w := by
  show (p s).swallow.wp E Q w ↔ _
  generalize p s = q
  induction q generalizing w with
  | done s o => cases o <;> exact Iff.rfl
  | ask s r k ih =>
    simp only [Act.swallow, Act.wp]
    exact and_congr_right fun _ => forall_congr' fun w₁ => forall_congr' fun _ => forall_congr' fun a =>
      forall_congr' fun w₂ => forall_congr' fun _ => ih a

/-- The environment of a lifted computation, as its own requests see it. -/
def Env.pull (E : Env τ W Ans') (emb : σ → τ) (req : ρ → ρ') (ans : ∀ r, Ans' (req r) → Ans r) :
    Env σ W Ans where
  serve w r a w' := ∃ a', E.serve w (req r) a' w' ∧ a = ans r a'
  rely := E.rely
  seen s w := E.seen (emb s) w

theorem wp_lift {E : Env τ W Ans'} {emb : σ → τ} {req : ρ → ρ'} {ans : ∀ r, Ans' (req r) → Ans r}
    {p : Act σ Ans α} {Q : τ → W → Outcome α → Prop} :
    (p.lift emb req ans).wp E Q w ↔ p.wp (E.pull emb req ans) (fun s w o => Q (emb s) w o) w := by
  induction p generalizing w with
  | done s o => exact Iff.rfl
  | ask s r k ih =>
    simp only [Act.lift, Act.wp, Env.pull]
    refine and_congr_right fun _ => forall_congr' fun w₁ => forall_congr' fun _ => ?_
    constructor
    · rintro h a w₂ ⟨a', hs, rfl⟩
      exact (ih _).mp (h a' w₂ hs)
    · intro h a' w₂ hs
      exact (ih _).mpr (h _ w₂ ⟨a', hs, rfl⟩)

/-! ## One execution -/

/-- An execution in which nobody else moves the world. -/
inductive Exec (serve : W → (r : ρ) → Ans r → W → Prop) : Act σ Ans α → W → σ → Outcome α → W → Prop
  | done (s : σ) (o : Outcome α) (w : W) : Exec serve (.done s o) w s o w
  | ask (s : σ) {w : W} : serve w r a w' → Exec serve (k a) w' s' o w'' → Exec serve (.ask s r k) w s' o w''

/-- An execution in an environment that may stand still. -/
theorem Act.wp.exec_in {serve : W → (r : ρ) → Ans r → W → Prop} {p : Act σ Ans α} {s' : σ} {o : Outcome α} {w' : W}
    (h : p.wp E Q w) (hrely : ∀ w, E.rely w w) (hserve : ∀ {w r a w'}, serve w r a w' → E.serve w r a w')
    (hx : Exec serve p w s' o w') : Q s' w' o := by
  induction hx with
  | done => exact h
  | ask _ hs _ ih => exact ih (h.2 _ (hrely _) _ _ (hserve hs))

theorem Act.wp.exec {serve : W → (r : ρ) → Ans r → W → Prop} {p : Act σ Ans α} {s' : σ} {o : Outcome α} {w' : W}
    (h : p.wp (Env.solo serve) Q w) (hx : Exec serve p w s' o w') : Q s' w' o :=
  h.exec_in (fun _ => rfl) id hx

theorem wp_of_exec {serve : W → (r : ρ) → Ans r → W → Prop} {p : Act σ Ans α}
    (h : ∀ s' o w', Exec serve p w s' o w' → Q s' w' o) : p.wp (Env.solo serve) Q w := by
  induction p generalizing w with
  | done s o => exact h _ _ _ (.done s o w)
  | ask s r k ih =>
    refine ⟨trivial, ?_⟩
    rintro _ rfl a w₂ hs
    exact ih a fun s' o w' hx => h _ _ _ (.ask s hs hx)

/-- An execution, seen through a map of the world. -/
theorem Exec.map {W' : Type} {serve : W → (r : ρ) → Ans r → W → Prop} {serve' : W' → (r : ρ) → Ans r → W' → Prop}
    {p : Act σ Ans α} {s' : σ} {o : Outcome α} {w' : W} (g : W → W')
    (h : ∀ {w r a w'}, serve w r a w' → serve' (g w) r a (g w')) (hx : Exec serve p w s' o w') :
    Exec serve' p (g w) s' o (g w') := by
  induction hx with
  | done s o w => exact .done s o (g w)
  | ask s hs _ ih => exact .ask s (h hs) ih

/-- What every answer keeps of the world, an execution keeps. -/
theorem Exec.keeps {serve : W → (r : ρ) → Ans r → W → Prop} {P : W → Prop} {p : Act σ Ans α} {s' : σ}
    {o : Outcome α} {w' : W} (hx : Exec serve p w s' o w') (hP : ∀ {w r a w'}, serve w r a w' → P w → P w')
    (h : P w) : P w' := by
  induction hx with
  | done => exact h
  | ask _ hs _ ih => exact ih (hP hs h)

theorem Exec.imp {serve serve' : W → (r : ρ) → Ans r → W → Prop} {p : Act σ Ans α} {s' : σ} {o : Outcome α} {w' : W}
    (hx : Exec serve p w s' o w') (h : ∀ {w r a w'}, serve w r a w' → serve' w r a w') : Exec serve' p w s' o w' :=
  hx.map id h

/-- The execution a world gives that answers by a function. -/
def Act.interp (h : W → (r : ρ) → Ans r × W) : Act σ Ans α → W → σ × Outcome α × W
  | .done s o, w => (s, o, w)
  | .ask _ r k, w => (k (h w r).1).interp h (h w r).2

/-- The requests of that execution. -/
def Act.asked (h : W → (r : ρ) → Ans r × W) : Act σ Ans α → W → List ρ
  | .done _ _, _ => []
  | .ask _ r k, w => r :: (k (h w r).1).asked h (h w r).2

theorem exec_interp {serve : W → (r : ρ) → Ans r → W → Prop} {h : W → (r : ρ) → Ans r × W} {P : W → Prop}
    {R : ρ → Prop} (hs : ∀ w r, R r → P w → serve w r (h w r).1 (h w r).2 ∧ P (h w r).2) :
    ∀ (p : Act σ Ans α) (w : W), (∀ r ∈ p.asked h w, R r) → P w →
    Exec serve p w (p.interp h w).1 (p.interp h w).2.1 (p.interp h w).2.2 ∧ P (p.interp h w).2.2
  | .done s o, w, _, hw => ⟨.done s o w, hw⟩
  | .ask s r k, w, hR, hw => by
    obtain ⟨hr, hw'⟩ := hs w r (hR r (List.mem_cons_self ..)) hw
    obtain ⟨hx, hw''⟩ := exec_interp hs (k (h w r).1) (h w r).2 (fun q hq => hR q (List.mem_cons_of_mem _ hq)) hw'
    exact ⟨.ask s hr hx, hw''⟩

/-- The same, for answers that are always possible. -/
theorem exec_answers {serve : W → (r : ρ) → Ans r → W → Prop} {h : W → (r : ρ) → Ans r × W}
    (hs : ∀ w r, serve w r (h w r).1 (h w r).2) (p : Act σ Ans α) (w : W) {o : Outcome α}
    (ho : (p.interp h w).2.1 = o) : Exec serve p w (p.interp h w).1 o (p.interp h w).2.2 := by
  subst ho
  exact (exec_interp (P := fun _ => True) (R := fun _ => True) (fun w r _ _ => ⟨hs w r, trivial⟩) p w
    (fun _ _ => trivial) trivial).1

theorem interp_bind {h : W → (r : ρ) → Ans r × W} {f : α → Prog σ Ans β} : ∀ (p : Act σ Ans α) (w : W),
    (p.bind f).interp h w = match p.interp h w with
      | (s, .ok a, w') => (f a s).interp h w'
      | (s, .err e, w') => (s, .err e, w')
      | (s, .fault, w') => (s, .fault, w')
  | .done _ (.ok _), _ => rfl
  | .done _ (.err _), _ => rfl
  | .done _ .fault, _ => rfl
  | .ask _ r k, w => interp_bind (k (h w r).1) (h w r).2

/-- The computation with its requests answered by programs. -/
def Act.handle (h : (r : ρ) → Prog τ Ans' (Ans r)) : Act σ Ans α → Prog τ Ans' α
  | .done _ (.ok a) => pure a
  | .done _ (.err e) => Prog.throw e
  | .done _ .fault => Prog.check none
  | .ask _ r k => h r >>= fun a => (k a).handle h

/-- The execution a world gives that answers by a function, or raises the
error `e`. -/
def Act.interpOr (e : Int) (g : W → (r : ρ) → Option (Ans r × W)) : Act σ Ans α → W → σ × Outcome α × W
  | .done s o, w => (s, o, w)
  | .ask s r k, w =>
    match g w r with
    | some (a, w') => (k a).interpOr e g w'
    | none => (s, .err e, w)

theorem interpOr_bind {e : Int} {g : W → (r : ρ) → Option (Ans r × W)} {f : α → Prog σ Ans β} :
    ∀ (p : Act σ Ans α) (w : W), (p.bind f).interpOr e g w = match p.interpOr e g w with
      | (s, .ok a, w') => (f a s).interpOr e g w'
      | (s, .err e, w') => (s, .err e, w')
      | (s, .fault, w') => (s, .fault, w')
  | .done _ (.ok _), _ => rfl
  | .done _ (.err _), _ => rfl
  | .done _ .fault, _ => rfl
  | .ask _ r k, w => by
    rw [Act.bind, Act.interpOr, Act.interpOr]
    cases g w r with
    | none => rfl
    | some p => exact interpOr_bind (k p.1) p.2

/-- If every answer program does what the function says, a computation that
returns a value over the function returns it over the programs. The world
`V` of the function is seen in the concrete state and world through `R`. -/
theorem wp_handle {V : Type} {h : (r : ρ) → Prog τ Ans' (Ans r)} {e : Int} {g : V → (r : ρ) → Option (Ans r × V)}
    {E : Env τ W Ans'} {R : V → τ → W → Prop}
    (hh : ∀ {v r a v' t w}, g v r = some (a, v') → R v t w →
      (h r t).wp E (Returns fun b t w => b = a ∧ R v' t w) w) :
    ∀ (p : Act σ Ans α) {v v' : V} {s : σ} {a : α} {t : τ} {w : W}, p.interpOr e g v = (s, .ok a, v') → R v t w →
      (p.handle h t).wp E (Returns fun b t w => b = a ∧ R v' t w) w
  | .done _ (.ok _), _, _, _, _, _, _, hp, hR => by
    cases hp
    exact ⟨rfl, hR⟩
  | .done _ (.err _), _, _, _, _, _, _, hp, _ => by cases hp
  | .done _ .fault, _, _, _, _, _, _, hp, _ => by cases hp
  | .ask s r k, v, v', s', a, t, w, hp, hR => by
    rw [Act.interpOr] at hp
    cases hg : g v r with
    | none =>
      rw [hg] at hp
      cases hp
    | some q =>
      rw [hg] at hp
      refine wp_returns (hh hg hR) ?_
      rintro t' w' _ ⟨rfl, hR'⟩
      exact wp_handle hh (k q.1) hp hR'

/-! ## Whatever the answers -/

/-- The computation returns a value with `P`, whatever the answers are. -/
def Act.Yields (P : α → Prop) : Act σ Ans α → Prop
  | .done _ o => ∃ a, o = .ok a ∧ P a
  | .ask _ _ k => ∀ a, (k a).Yields P

def Prog.Yields (p : Prog σ Ans α) (P : α → Prop) : Prop := ∀ s, (p s).Yields P

variable {P P' : α → Prop} {R : β → Prop}

theorem yields_pure {a : α} (h : P a) : (pure a : Prog σ Ans α).Yields P := fun _ => ⟨a, rfl, h⟩

theorem yields_ask {r : ρ} : (Prog.ask r : Prog σ Ans (Ans r)).Yields fun _ => True := fun _ a => ⟨a, rfl, trivial⟩

theorem yields_get : (Prog.get : Prog σ Ans σ).Yields fun _ => True := fun s => ⟨s, rfl, trivial⟩

theorem yields_set {s' : σ} : (Prog.set s' : Prog σ Ans Unit).Yields fun _ => True := fun _ => ⟨(), rfl, trivial⟩

theorem yields_assert {p : Prop} [Decidable p] (h : p) : (Prog.assert p : Prog σ Ans Unit).Yields fun _ => True := by
  have he : (Prog.assert p : Prog σ Ans Unit) = pure () := if_pos h
  rw [he]
  exact yields_pure trivial

theorem Act.Yields.bind {p : Act σ Ans α} {f : α → Prog σ Ans β} (h : p.Yields P)
    (hf : ∀ a, P a → (f a).Yields R) : (p.bind f).Yields R := by
  induction p with
  | done s o =>
    obtain ⟨a, rfl, ha⟩ := h
    exact hf a ha s
  | ask s r k ih => exact fun a => ih a (h a)

theorem Prog.Yields.bind {p : Prog σ Ans α} {f : α → Prog σ Ans β} (h : p.Yields P)
    (hf : ∀ a, P a → (f a).Yields R) : (p >>= f).Yields R := fun s => (h s).bind hf

theorem Act.Yields.lift {emb : σ → τ} {req : ρ → ρ'} {ans : ∀ r, Ans' (req r) → Ans r} {p : Act σ Ans α}
    (h : p.Yields P) : (p.lift emb req ans).Yields P := by
  induction p with
  | done s o => exact h
  | ask s r k ih => exact fun a => ih _ (h _)

theorem Act.Yields.exec {serve : W → (r : ρ) → Ans r → W → Prop} {p : Act σ Ans α} {s' : σ} {o : Outcome α} {w' : W}
    (h : p.Yields P) (hx : Exec serve p w s' o w') : ∃ a, o = .ok a ∧ P a := by
  induction hx with
  | done => exact h
  | ask _ _ _ ih => exact ih (h _)

/-! ## Equal computations -/

/-- `P` holds wherever the computation returns a value, whatever the answers
are. -/
def Act.Leaves (P : σ → α → Prop) : Act σ Ans α → Prop
  | .done s (.ok a) => P s a
  | .done _ _ => True
  | .ask _ _ k => ∀ a, (k a).Leaves P

theorem leaves_check {P : σ → Prop} {o : Option α} (h : P s) :
    ((Prog.check o : Prog σ Ans α) s).Leaves fun s' _ => P s' := by
  cases o with
  | none => exact trivial
  | some a => exact h

theorem leaves_assert {P : σ → Prop} {p : Prop} [Decidable p] (h : P s) :
    ((Prog.assert p : Prog σ Ans Unit) s).Leaves fun s' _ => P s' := by
  by_cases hp : p
  · have he : (Prog.assert p : Prog σ Ans Unit) = pure () := if_pos hp
    rw [he]
    exact h
  · have he : (Prog.assert p : Prog σ Ans Unit) = fun s => .done s .fault := if_neg hp
    rw [he]
    exact trivial

theorem Act.Leaves.bind {P : σ → α → Prop} {R : σ → β → Prop} {p : Act σ Ans α} {f : α → Prog σ Ans β}
    (h : p.Leaves P) (hf : ∀ s a, P s a → (f a s).Leaves R) : (p.bind f).Leaves R := by
  induction p with
  | done s o =>
    cases o with
    | ok a => exact hf s a h
    | err e => exact trivial
    | fault => exact trivial
  | ask s r k ih => exact fun a => ih a (h a)

/-- Sequences are equal when what comes second is, wherever the first part
returns. -/
theorem Act.bind_congr {P : σ → α → Prop} {p : Act σ Ans α} {f f' : α → Prog σ Ans β} (h : p.Leaves P)
    (hf : ∀ s a, P s a → f a s = f' a s) : p.bind f = p.bind f' := by
  induction p with
  | done s o =>
    cases o with
    | ok a => exact hf s a h
    | err e => rfl
    | fault => rfl
  | ask s r k ih => exact congrArg (Act.ask s r) (funext fun a => ih a (h a))

theorem Act.bind_pure (p : Act σ Ans α) : (p.bind fun a => pure a) = p := by
  induction p with
  | done s o => cases o <;> rfl
  | ask s r k ih => exact congrArg (Act.ask s r) (funext ih)

theorem Act.bind_assoc {γ : Type} (p : Act σ Ans α) (f : α → Prog σ Ans β) (g : β → Prog σ Ans γ) :
    (p.bind f).bind g = p.bind fun a s => (f a s).bind g := by
  induction p with
  | done s o => cases o <;> rfl
  | ask s r k ih => exact congrArg (Act.ask s r) (funext ih)

theorem Prog.bind_assoc {γ : Type} (p : Prog σ Ans α) (f : α → Prog σ Ans β) (g : β → Prog σ Ans γ) :
    (p >>= f) >>= g = p >>= fun a => f a >>= g :=
  funext fun s => (p s).bind_assoc f g

end

end Resume
