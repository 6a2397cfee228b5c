/-
Threads that run programs over one shared world.

A thread is idle, or in the middle of an operation, waiting for the answer to
a request. A step is one thread's: it calls an operation and runs to the
first request, or it gets the answer to the request that is pending and runs
to the next. The world answers one request at a time, so the requests of
different threads interleave in every way. A thread at which a check has
failed is down for good.

`Thread.Keeps` carries an assertion about one thread through a run: while an
operation is pending it is the precondition of what is left of it, which the
other threads' steps do not disturb.
-/
import Mathlib.Logic.Function.Basic
import Nfs.Lib.Act

namespace Resume

/-- A thread with a state of its own; `Ret op` is what operation `op`
returns. -/
inductive Thread (σ : Type) {ρ : Type} (Ans : ρ → Type) {O : Type} (Ret : O → Type)
  | idle (s : σ)
  | busy (op : O) (s : σ) (r : ρ) (k : Ans r → Act σ Ans (Ret op))
  | down (s : σ)

/-- The threads `ι` and the world they share. -/
structure Threads (ι W σ : Type) {ρ : Type} (Ans : ρ → Type) {O : Type} (Ret : O → Type) where
  world : W
  threads : ι → Thread σ Ans Ret

/-- What happens in a step: the operation it belongs to, the request that is
answered (none, if the operation is called), and the outcome, if the
operation ends with it. -/
structure Threads.Event {ρ : Type} (Ans : ρ → Type) {O : Type} (Ret : O → Type) where
  op : O
  reply : Option ((r : ρ) × Ans r)
  ret : Option (Outcome (Ret op))

section
variable {ι W σ ρ O : Type} {Ans : ρ → Type} {Ret : O → Type}

def Thread.state : Thread σ Ans Ret → σ
  | .idle s => s
  | .busy _ s _ _ => s
  | .down s => s

/-- A thread whose operation has got as far as this. -/
def Thread.after (op : O) : Act σ Ans (Ret op) → Thread σ Ans Ret
  | .done s .fault => .down s
  | .done s _ => .idle s
  | .ask s r k => .busy op s r k

/-- A step of thread `i`. -/
inductive Threads.Step [DecidableEq ι] (serve : W → (r : ρ) → Ans r → W → Prop)
    (run : ι → (op : O) → Prog σ Ans (Ret op)) :
    Threads ι W σ Ans Ret → ι → Event Ans Ret → Threads ι W σ Ans Ret → Prop
  | call (op : O) : S.threads i = .idle s →
      Step serve run S i ⟨op, none, (run i op s).result⟩
        { S with threads := Function.update S.threads i (.after op (run i op s)) }
  | reply : S.threads i = .busy op s r k → serve S.world r a w' →
      Step serve run S i ⟨op, some ⟨r, a⟩, (k a).result⟩
        { world := w', threads := Function.update S.threads i (.after op (k a)) }

end

section
variable {ι W σ ρ O : Type} [DecidableEq ι] {Ans : ρ → Type} {Ret : O → Type}
  {serve : W → (r : ρ) → Ans r → W → Prop} {run : ι → (op : O) → Prog σ Ans (Ret op)}
  {S S' : Threads ι W σ Ans Ret} {i j : ι} {e : Threads.Event Ans Ret}

namespace Threads

theorem Step.other (h : Step serve run S i e S') (hj : j ≠ i) : S'.threads j = S.threads j := by
  cases h with
  | call op hs => exact Function.update_of_ne hj _ _
  | reply hs _ => exact Function.update_of_ne hj _ _

/-- What a step of thread `i` does to it: it calls an operation, or it goes
on with one. -/
theorem Step.own (h : Step serve run S i e S') :
    (∃ s, S.threads i = .idle s ∧ S'.world = S.world ∧ e.reply = none ∧
      S'.threads i = .after e.op (run i e.op s) ∧ e.ret = (run i e.op s).result) ∨
    ∃ s r k a, S.threads i = .busy e.op s r k ∧ serve S.world r a S'.world ∧ e.reply = some ⟨r, a⟩ ∧
      S'.threads i = .after e.op (k a) ∧ e.ret = (k a).result := by
  cases h with
  | call op hs => exact .inl ⟨_, hs, rfl, rfl, Function.update_self .., rfl⟩
  | reply hs hw => exact .inr ⟨_, _, _, _, hs, hw, rfl, Function.update_self .., rfl⟩

variable (serve run) in
theorem exists_call {s : σ} (op : O) (hi : S.threads i = .idle s) :
    ∃ S', Step serve run S i ⟨op, none, (run i op s).result⟩ S' ∧ S'.world = S.world ∧
      S'.threads i = .after op (run i op s) :=
  ⟨_, .call op hi, rfl, Function.update_self ..⟩

variable (run) in
theorem exists_reply {op : O} {s : σ} {r : ρ} {k : Ans r → Act σ Ans (Ret op)} {a : Ans r} {w' : W}
    (hi : S.threads i = .busy op s r k) (hw : serve S.world r a w') :
    ∃ S', Step serve run S i ⟨op, some ⟨r, a⟩, (k a).result⟩ S' ∧ S'.world = w' ∧ S'.threads i = .after op (k a) :=
  ⟨_, .reply hi hw, rfl, Function.update_self ..⟩

theorem Step.called {op : O} {ret : Option (Outcome (Ret op))} (h : Step serve run S i ⟨op, none, ret⟩ S') :
    ∃ s, S.threads i = .idle s ∧ S'.threads i = .after op (run i op s) ∧ ret = (run i op s).result := by
  cases h with
  | call op hs => exact ⟨_, hs, Function.update_self .., rfl⟩

theorem Step.replied {op : O} {r : ρ} {a : Ans r} {ret : Option (Outcome (Ret op))}
    (h : Step serve run S i ⟨op, some ⟨r, a⟩, ret⟩ S') :
    ∃ s k, S.threads i = .busy op s r k ∧ S'.threads i = .after op (k a) ∧ ret = (k a).result := by
  cases h with
  | reply hs hw => exact ⟨_, _, hs, Function.update_self .., rfl⟩

/-- A step moves the world by an answer, or not at all. -/
theorem Step.moves {R : W → W → Prop} (h : Step serve run S i e S') (hrefl : ∀ w, R w w)
    (hserve : ∀ {w r a w'}, serve w r a w' → R w w') : R S.world S'.world := by
  cases h with
  | call op hs => exact hrefl _
  | reply _ hs => exact hserve hs

end Threads

/-! ## Assertions about one thread -/

variable {E : O → σ → Env σ W Ans} {P P' : σ → W → Prop} {Q Q' : (op : O) → σ → σ → W → Outcome (Ret op) → Prop}
  {t : Thread σ Ans Ret} {w w' : W}

/-- `P` holds of an idle thread; what is left of a pending operation ends
with `Q`. What the operation meets, and how it ends, may depend on it and
on the state it was called in. -/
def Thread.Keeps (E : O → σ → Env σ W Ans) (P : σ → W → Prop)
    (Q : (op : O) → σ → σ → W → Outcome (Ret op) → Prop) : Thread σ Ans Ret → W → Prop
  | .idle s, w => P s w
  | .busy op s r k, w => ∃ s₀, (Act.ask s r k).wp (E op s₀) (Q op s₀) w
  | .down _, _ => False

/-- A computation that ends with `Q`, as far as it has got. -/
theorem Thread.Keeps.after {op : O} {s₀ : σ} {p : Act σ Ans (Ret op)} (h : p.wp (E op s₀) (Q op s₀) w)
    (hQ : ∀ {s w o}, Q op s₀ s w o → o ≠ .fault ∧ P s w) :
    (Thread.after op p).Keeps E P Q w ∧
      ∀ o, p.result = some o → ∃ s, Thread.after op p = .idle s ∧ Q op s₀ s w o := by
  cases p with
  | ask s r k => exact ⟨⟨s₀, h⟩, fun o ho => by cases ho⟩
  | done s o =>
    obtain ⟨hf, hP⟩ := hQ h
    cases o with
    | fault => exact absurd rfl hf
    | ok a =>
      refine ⟨hP, fun o ho => ?_⟩
      cases ho
      exact ⟨s, rfl, h⟩
    | err e =>
      refine ⟨hP, fun o ho => ?_⟩
      cases ho
      exact ⟨s, rfl, h⟩

/-- A thread in its operation `op`, or after it: it is bound to end with `q`,
or has ended so. -/
def Thread.Within (F : Env σ W Ans) (op : O) (q : σ → W → Outcome (Ret op) → Prop) (t : Thread σ Ans Ret) (w : W) :
    Option (Outcome (Ret op)) → Prop
  | none => ∃ s r k, t = .busy op s r k ∧ (Act.ask s r k).wp F q w
  | some o => q t.state w o

theorem Thread.Within.after {F : Env σ W Ans} {op : O} {q : σ → W → Outcome (Ret op) → Prop} {p : Act σ Ans (Ret op)}
    (h : p.wp F q w) : (Thread.after op p).Within F op q w p.result := by
  cases p with
  | ask s r k => exact ⟨s, r, k, rfl, h⟩
  | done s o => cases o <;> exact h

/-- What the state of a thread satisfies at rest and at every request. -/
theorem Thread.Keeps.state {R : σ → Prop} (h : t.Keeps E P Q w) (hP : ∀ {s}, P s w → R s)
    (hseen : ∀ {op s₀ s}, (E op s₀).seen s w → R s) : R t.state := by
  cases t with
  | idle s => exact hP h
  | busy op s r k =>
    obtain ⟨s₀, h⟩ := h
    exact hseen h.1
  | down s => exact h.elim

theorem Thread.after_ok {op : O} {p : Act σ Ans (Ret op)} {a : Ret op} (h : p.result = some (.ok a)) :
    Thread.after op p = .idle (Thread.after op p).state := by
  cases p with
  | ask s r k => cases h
  | done s o =>
    cases h
    rfl

theorem Thread.after_state {op : O} {p : Act σ Ans (Ret op)} {F : Env σ W Ans} {q : σ → W → Outcome (Ret op) → Prop}
    {R : σ → Prop} (h : p.wp F q w) (hq : ∀ {s o}, q s w o → R s) (hseen : ∀ {s}, F.seen s w → R s) :
    R (Thread.after op p).state := by
  cases p with
  | ask s r k => exact hseen h.1
  | done s o => cases o <;> exact hq h

/-- The other threads' steps. -/
theorem Thread.Keeps.rely (h : t.Keeps E P Q w) (hr : ∀ op s₀, (E op s₀).rely w w')
    (htrans : ∀ op s₀ a b c, (E op s₀).rely a b → (E op s₀).rely b c → (E op s₀).rely a c)
    (hP : ∀ s, P s w → P s w') (hseen : ∀ op s₀ s, (E op s₀).seen s w → (E op s₀).seen s w') : t.Keeps E P Q w' := by
  cases t with
  | idle s => exact hP s h
  | busy op s r k =>
    obtain ⟨s₀, h⟩ := h
    exact ⟨s₀, hseen op s₀ s h.1, fun w₁ h₁ => h.2 w₁ (htrans op s₀ _ _ _ (hr op s₀) h₁)⟩
  | down s => exact h

theorem Thread.Keeps.mono (h : t.Keeps E P Q w) (hP : ∀ {s w}, P s w → P' s w)
    (hQ : ∀ {op s₀ s w o}, Q op s₀ s w o → Q' op s₀ s w o) : t.Keeps E P' Q' w := by
  cases t with
  | idle s => exact hP h
  | busy op s r k =>
    obtain ⟨s₀, h⟩ := h
    exact ⟨s₀, h.mono fun _ _ _ => hQ⟩
  | down s => exact h

namespace Threads

section
variable {V : Type} {E : O → σ → Env σ V Ans} {P : σ → V → Prop}
  {Q : (op : O) → σ → σ → V → Outcome (Ret op) → Prop} {v v' : V}

/-- **The thread's own step**: what is left of the operation ends with `Q`.
The assertion may be about another world `V`, which the step takes from `v`
to `v'`. -/
theorem Step.continues (h : Step serve run S i e S') (hK : (S.threads i).Keeps E P Q v)
    (hrefl : ∀ s₀, (E e.op s₀).rely v v) (hcall : e.reply = none → S'.world = S.world → v' = v)
    (hserve : ∀ {s₀} {r : ρ} {a : Ans r}, (E e.op s₀).seen (S.threads i).state v → e.reply = some ⟨r, a⟩ →
      serve S.world r a S'.world → (E e.op s₀).serve v r a v')
    (hrun : ∀ s, S.threads i = .idle s → P s v → (run i e.op s).wp (E e.op s) (Q e.op s) v) :
    ∃ s₀ p, p.wp (E e.op s₀) (Q e.op s₀) v' ∧ S'.threads i = .after e.op p ∧ e.ret = p.result ∧
      (S.threads i = .idle s₀ ∨ (E e.op s₀).seen (S.threads i).state v) := by
  rcases h.own with ⟨s, hs, hw, hrep, hs', hret⟩ | ⟨s, r, k, a, hs, hw, hrep, hs', hret⟩
  · rw [hs] at hK
    refine ⟨s, _, ?_, hs', hret, .inl hs⟩
    rw [hcall hrep hw]
    exact hrun s hs hK
  · rw [hs] at hK
    obtain ⟨s₀, hseen, hnext⟩ := hK
    rw [hs] at hserve ⊢
    exact ⟨s₀, _, hnext _ (hrefl s₀) a _ (hserve hseen hrep hw), hs', hret, .inr hseen⟩

/-- The step keeps the assertion, and an operation that ends with the step
ends with `Q`. -/
theorem Step.keeps (h : Step serve run S i e S') (hK : (S.threads i).Keeps E P Q v)
    (hQ : ∀ {op s₀ s v o}, Q op s₀ s v o → o ≠ .fault ∧ P s v)
    (hrefl : ∀ s₀, (E e.op s₀).rely v v) (hcall : e.reply = none → S'.world = S.world → v' = v)
    (hserve : ∀ {s₀} {r : ρ} {a : Ans r}, (E e.op s₀).seen (S.threads i).state v → e.reply = some ⟨r, a⟩ →
      serve S.world r a S'.world → (E e.op s₀).serve v r a v')
    (hrun : ∀ s, S.threads i = .idle s → P s v → (run i e.op s).wp (E e.op s) (Q e.op s) v) :
    (S'.threads i).Keeps E P Q v' ∧ ∀ o, e.ret = some o → ∃ s₀ s, S'.threads i = .idle s ∧ Q e.op s₀ s v' o := by
  obtain ⟨s₀, p, hp, ht, hret, -⟩ := h.continues hK hrefl hcall hserve hrun
  obtain ⟨hkeep, hend⟩ := Thread.Keeps.after hp hQ
  rw [ht, hret]
  exact ⟨hkeep, fun o ho => ⟨s₀, hend o ho⟩⟩

/-- The thread gets an answer. -/
theorem Step.within {F : Env σ V Ans} {op : O} {q : σ → V → Outcome (Ret op) → Prop} {r : ρ} {a : Ans r}
    {ret : Option (Outcome (Ret op))} (h : Step serve run S i ⟨op, some ⟨r, a⟩, ret⟩ S')
    (ht : (S.threads i).Within F op q v none) (hrefl : F.rely v v)
    (hserve : F.serve v r a v') : (S'.threads i).Within F op q v' ret := by
  obtain ⟨s, r', k, hi, hp⟩ := ht
  obtain ⟨_, _, hi', hs', hret⟩ := h.replied
  cases hi.symm.trans hi'
  rw [hs', hret]
  exact .after (hp.2 v hrefl a v' hserve)

end

/-! ## Undisturbed operations -/

section
variable {op : O} {s s' : σ} {o : Outcome (Ret op)} {answer : W → (r : ρ) → Ans r → W → Prop}
  {I : Threads ι W σ Ans Ret → Prop}

theorem replies (hserve : ∀ {w r a w'}, answer w r a w' → serve w r a w')
    (hI : ∀ {S S' e}, I S → Step serve run S i e S' → e.op = op →
      (∀ r a, e.reply = some ⟨r, a⟩ → answer S.world r a S'.world) → I S')
    {p : Act σ Ans (Ret op)} {w w' : W} (hx : Exec answer p w s' o w') :
    ∀ {S₀ S : Threads ι W σ Ans Ret} {rep}, I S₀ → I S → Step serve run S₀ i ⟨op, rep, p.result⟩ S → S.world = w →
      S.threads i = .after op p →
      ∃ S₁ S₂ rep', I S₁ ∧ I S₂ ∧ Step serve run S₁ i ⟨op, rep', some o⟩ S₂ ∧ S₂.world = w' ∧
        S₂.threads i = .after op (.done s' o) := by
  induction hx with
  | done s o w => exact fun h₀ h hs hw hc => ⟨_, _, _, h₀, h, hs, hw, hc⟩
  | @ask r a w₁ k s' o w' s w hr _ ih =>
    intro S₀ S rep _ h _ hw hc
    subst hw
    obtain ⟨S', hstep, hw', hc'⟩ := exists_reply run hc (hserve hr)
    refine ih h (hI h hstep rfl ?_) hstep hw' hc'
    rintro r' a' he
    cases he
    rw [hw']
    exact hr

variable (serve run) in
/-- An operation that is not disturbed, as steps of a run: with what every
such step keeps, it comes to its end. -/
theorem steps (i : ι) (op : O) (I : Threads ι W σ Ans Ret → Prop) {o : Outcome (Ret op)} {w w' : W}
    (hx : Exec answer (run i op s) w s' o w') (hw : S.world = w) (hc : S.threads i = .idle s) (h : I S)
    (hserve : ∀ {w r a w'}, answer w r a w' → serve w r a w')
    (hI : ∀ {S S' e}, I S → Step serve run S i e S' → e.op = op →
      (∀ r a, e.reply = some ⟨r, a⟩ → answer S.world r a S'.world) → I S') :
    ∃ S₁ S₂ rep, I S₁ ∧ I S₂ ∧ Step serve run S₁ i ⟨op, rep, some o⟩ S₂ ∧ S₂.world = w' ∧
      S₂.threads i = .after op (.done s' o) := by
  obtain ⟨S', hstep, hw', hc'⟩ := exists_call serve run op hc
  exact replies hserve hI hx h (hI h hstep rfl fun _ _ he => by cases he) hstep (hw'.trans hw) hc'

end

/-! ## Schedules -/

/-- The thread that takes the next step: it calls an operation, or it gets
its answer. -/
inductive Pick (ι O : Type)
  | call (i : ι) (op : O)
  | reply (i : ι)

/-- The step a pick makes, if it is possible, over a world that answers by a
function. -/
def advance (run : ι → (op : O) → Prog σ Ans (Ret op)) (h : W → (r : ρ) → Ans r × W) (S : Threads ι W σ Ans Ret) :
    Pick ι O → Option (ι × Event Ans Ret × Threads ι W σ Ans Ret)
  | .call i op => match S.threads i with
    | .idle s => some (i, ⟨op, none, (run i op s).result⟩,
        { S with threads := Function.update S.threads i (.after op (run i op s)) })
    | _ => none
  | .reply i => match S.threads i with
    | .busy op _ r k => some (i, ⟨op, some ⟨r, (h S.world r).1⟩, (k (h S.world r).1).result⟩,
        { world := (h S.world r).2, threads := Function.update S.threads i (.after op (k (h S.world r).1)) })
    | _ => none

theorem step_advance {h : W → (r : ρ) → Ans r × W} {pick : Pick ι O}
    (hserve : ∀ r, serve S.world r (h S.world r).1 (h S.world r).2)
    (ha : advance run h S pick = some (i, e, S')) :
    Step serve run S i e S' ∧ (S'.world = S.world ∨ ∃ r, S'.world = (h S.world r).2) := by
  cases pick with
  | call j op =>
    simp only [advance] at ha
    split at ha
    · rename_i s hs
      cases ha
      exact ⟨.call op hs, .inl rfl⟩
    · cases ha
  | reply j =>
    simp only [advance] at ha
    split at ha
    · rename_i op s r k hs
      cases ha
      exact ⟨.reply hs (hserve r), .inr ⟨r, rfl⟩⟩
    · cases ha

end Threads

end

end Resume
