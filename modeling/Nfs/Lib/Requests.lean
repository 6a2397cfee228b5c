/-
What a computation asks for, whatever it is answered.

`Act.Asks` bounds the requests. `Act.Stops` says that the first answer that
is an error ends the computation, with this error. Both are read off the
program; no world is involved.

`guard` is a world that breaks at a request that is not as it should be. A
computation that ends well in it makes no such request, whether the world
behind it ever answers or not (`Act.wp.issues`).
-/
import Nfs.Lib.Layers

namespace Resume

section
variable {σ τ ρ ρ' W : Type} {Ans : ρ → Type} {Ans' : ρ' → Type} {α β : Type}

/-! ## Requests within bounds -/

/-- Every request satisfies `P`. -/
def Act.Asks (P : ρ → Prop) : Act σ Ans α → Prop
  | .done .. => True
  | .ask _ r k => P r ∧ ∀ a, (k a).Asks P

/-- So does a program, in every state. -/
def Prog.Asks (p : Prog σ Ans α) (P : ρ → Prop) : Prop := ∀ s, (p s).Asks P

/-- The environment, asked such requests only. -/
def Env.only (E : Env σ W Ans) (P : ρ → Prop) : Env σ W Ans :=
  { E with serve := fun w r a w' => P r ∧ E.serve w r a w' }

section
variable {P : ρ → Prop} {p : Prog σ Ans α} {f : α → Prog σ Ans β}

theorem asks_pure {a : α} : (pure a : Prog σ Ans α).Asks P := fun _ => trivial

theorem asks_throw {e : Int} : (Prog.throw e : Prog σ Ans α).Asks P := fun _ => trivial

theorem asks_ask {r : ρ} (h : P r) : (Prog.ask r : Prog σ Ans (Ans r)).Asks P := fun _ => ⟨h, fun _ => trivial⟩

theorem asks_get : (Prog.get : Prog σ Ans σ).Asks P := fun _ => trivial

theorem asks_set {s' : σ} : (Prog.set s' : Prog σ Ans Unit).Asks P := fun _ => trivial

theorem asks_step {m : σ → Option (α × σ)} : (Prog.step m : Prog σ Ans α).Asks P := by
  intro s
  unfold Prog.step
  split <;> trivial

theorem asks_check {o : Option α} : (Prog.check o : Prog σ Ans α).Asks P := by
  intro s
  cases o <;> trivial

theorem asks_check_bind {o : Option α} (hf : ∀ a, o = some a → (f a).Asks P) :
    (Prog.check o >>= f : Prog σ Ans β).Asks P := by
  cases o with
  | none => exact fun _ => trivial
  | some a => exact hf a rfl

theorem Prog.Asks.ite {c : Prop} [Decidable c] {q : Prog σ Ans α} (hp : c → p.Asks P) (hq : ¬ c → q.Asks P) :
    (if c then p else q).Asks P := by
  split
  · rename_i h
    exact hp h
  · rename_i h
    exact hq h

theorem Act.Asks.bind {p : Act σ Ans α} (h : p.Asks P) (hf : ∀ a s, (f a s).Asks P) : (p.bind f).Asks P := by
  induction p with
  | done s o =>
    cases o with
    | ok a => exact hf a s
    | err _ => trivial
    | fault => trivial
  | ask s r k ih => exact ⟨h.1, fun a => ih a (h.2 a)⟩

theorem Prog.Asks.bind (h : p.Asks P) (hf : ∀ a, (f a).Asks P) : (p >>= f).Asks P := fun s => (h s).bind hf

/-- A rule over such requests only is enough. -/
theorem Act.Asks.wp {E : Env σ W Ans} {Q : σ → W → Outcome α → Prop} {w : W} {p : Act σ Ans α} (h : p.Asks P)
    (hp : p.wp (E.only P) Q w) : p.wp E Q w := by
  induction p generalizing w with
  | done s o => exact hp
  | ask s r k ih => exact ⟨hp.1, fun w₁ hr a w₂ hs => ih a (h.2 a) (hp.2 w₁ hr a w₂ ⟨h.1, hs⟩)⟩

end

/-! ## The first error -/

/-- How a computation ends that has got the error `e`. Where errors are passed
over, it may end well. -/
def EndsWith (quiet : Prop) (e : Int) (o : Outcome α) : Prop := o = .err e ∨ o = .fault ∨ quiet ∧ ∃ b, o = .ok b

/-- **The first error ends it.** No error comes from elsewhere. -/
def Act.Stops (err : (r : ρ) → Ans r → Int) (quiet : Prop) : Act σ Ans α → Prop
  | .done _ o => ∀ e, o ≠ .err e
  | .ask _ r k => ∀ a, (err r a = 0 → (k a).Stops err quiet) ∧
      (err r a ≠ 0 → ∃ s o, k a = .done s o ∧ EndsWith quiet (err r a) o)

def Prog.Stops (err : (r : ρ) → Ans r → Int) (quiet : Prop) (p : Prog σ Ans α) : Prop := ∀ s, (p s).Stops err quiet

section
variable {err : (r : ρ) → Ans r → Int} {quiet : Prop} {p : Prog σ Ans α} {f : α → Prog σ Ans β}

theorem stops_pure {a : α} : (pure a : Prog σ Ans α).Stops err quiet := fun _ _ h => by cases h

theorem stops_get : (Prog.get : Prog σ Ans σ).Stops err quiet := fun _ _ h => by cases h

theorem stops_set {s' : σ} : (Prog.set s' : Prog σ Ans Unit).Stops err quiet := fun _ _ h => by cases h

theorem stops_step {m : σ → Option (α × σ)} : (Prog.step m : Prog σ Ans α).Stops err quiet := by
  intro s
  unfold Prog.step
  split <;> exact fun _ h => by cases h

theorem stops_check {o : Option α} : (Prog.check o : Prog σ Ans α).Stops err quiet := by
  intro s
  cases o <;> exact fun _ h => by cases h

theorem stops_assert {c : Prop} [Decidable c] : (Prog.assert c : Prog σ Ans Unit).Stops err quiet := by
  intro s
  by_cases hc : c
  · rw [Prog.assert_pos hc]
    exact fun _ h => by cases h
  · rw [Prog.assert_neg hc]
    exact fun _ h => by cases h

/-- A request, whose error is dealt with before anything else is asked for. -/
theorem stops_ask {r : ρ} {k : Ans r → Prog σ Ans β} (hok : ∀ a, err r a = 0 → (k a).Stops err quiet)
    (herr : ∀ a, err r a ≠ 0 → ∀ s, ∃ s' o, k a s = .done s' o ∧ EndsWith quiet (err r a) o) :
    (Prog.ask r >>= k : Prog σ Ans β).Stops err quiet :=
  fun s a => ⟨fun h => hok a h s, fun h => herr a h s⟩

theorem Act.Stops.bind {p : Act σ Ans α} (h : p.Stops err False) (hf : ∀ a s, (f a s).Stops err quiet) :
    (p.bind f).Stops err quiet := by
  induction p with
  | done s o =>
    cases o with
    | ok a => exact hf a s
    | err e => exact absurd rfl (h e)
    | fault => exact fun e he => by cases he
  | ask s r k ih =>
    refine fun a => ⟨fun h0 => ih a ((h a).1 h0), fun hne => ?_⟩
    obtain ⟨s', o, hk, ho⟩ := (h a).2 hne
    refine ⟨s', ?_⟩
    show ∃ o, (k a).bind f = _ ∧ _
    rw [hk]
    obtain rfl | rfl | ⟨hq, -⟩ := ho
    · exact ⟨_, rfl, .inl rfl⟩
    · exact ⟨_, rfl, .inr (.inl rfl)⟩
    · exact hq.elim

theorem Prog.Stops.bind (h : p.Stops err False) (hf : ∀ a, (f a).Stops err quiet) : (p >>= f).Stops err quiet :=
  fun s => (h s).bind hf

theorem Prog.Stops.ite {c : Prop} [Decidable c] {q : Prog σ Ans α} (hp : p.Stops err quiet) (hq : q.Stops err quiet) :
    (if c then p else q).Stops err quiet := by
  split
  · exact hp
  · exact hq

/-- Where the error is passed over. -/
theorem Act.Stops.swallow {p : Act σ Ans Unit} (h : p.Stops err False) : p.swallow.Stops err True := by
  induction p with
  | done s o =>
    cases o with
    | ok a => exact fun e he => by cases he
    | err e => exact absurd rfl (h e)
    | fault => exact fun e he => by cases he
  | ask s r k ih =>
    refine fun a => ⟨fun h0 => ih a ((h a).1 h0), fun hne => ?_⟩
    obtain ⟨s', o, hk, ho⟩ := (h a).2 hne
    show ∃ s o, (k a).swallow = _ ∧ _
    rw [hk]
    obtain rfl | rfl | ⟨hq, -⟩ := ho
    · exact ⟨s', .ok (), rfl, .inr (.inr ⟨trivial, (), rfl⟩)⟩
    · exact ⟨s', .fault, rfl, .inr (.inl rfl)⟩
    · exact hq.elim

theorem Act.Stops.lift {err' : (r : ρ') → Ans' r → Int} {emb : σ → τ} {req : ρ → ρ'}
    {ans : ∀ r, Ans' (req r) → Ans r} {p : Act σ Ans α} (he : ∀ r a, err r (ans r a) = err' (req r) a)
    (h : p.Stops err quiet) : (p.lift emb req ans).Stops err' quiet := by
  induction p with
  | done s o => exact h
  | ask s r k ih =>
    intro a
    obtain ⟨hok, herr⟩ := h (ans r a)
    rw [he] at hok herr
    refine ⟨fun h0 => ih _ (hok h0), fun hne => ?_⟩
    obtain ⟨s', o, hk, ho⟩ := herr hne
    refine ⟨emb s', o, ?_, ho⟩
    show (k (ans r a)).lift emb req ans = _
    rw [hk]
    rfl

/-- The answers of an execution, the last one first: none but the last is an
error, and if it is one then the execution ends with it. -/
theorem Act.Stops.exec {p : Act σ Ans α} {l l' : List ((r : ρ) × Ans r)} {s' : σ} {o : Outcome α}
    (h : p.Stops err quiet) (hx : Exec (fun l r a l' => l' = ⟨r, a⟩ :: l) p l s' o l') :
    ∃ new, l' = new ++ l ∧ (∀ q ∈ new.tail, err q.1 q.2 = 0) ∧
      (∀ e, o = .err e → ∃ q, new.head? = some q ∧ err q.1 q.2 = e ∧ e ≠ 0) ∧
      ∀ q, new.head? = some q → err q.1 q.2 ≠ 0 → EndsWith quiet (err q.1 q.2) o := by
  induction hx with
  | done s o l => exact ⟨[], rfl, by simp, fun e he => absurd he (h e), by simp⟩
  | @ask r a k s' o s l l₁ l' hs hx ih =>
    subst hs
    by_cases h0 : err r a = 0
    · obtain ⟨new, rfl, htail, herr, hhead⟩ := ih ((h a).1 h0)
      refine ⟨new ++ [⟨r, a⟩], by simp, ?_, fun e he => ?_, ?_⟩
      · cases new with
        | nil => simp
        | cons q new =>
          intro q' hq'
          obtain hq' | hq' := List.mem_append.mp hq'
          · exact htail q' hq'
          · rw [List.mem_singleton.mp hq']
            exact h0
      · obtain ⟨q, hq, hrest⟩ := herr e he
        cases new with
        | nil => cases hq
        | cons _ new => exact ⟨q, hq, hrest⟩
      · cases new with
        | nil =>
          intro q hq hne
          cases hq
          exact absurd h0 hne
        | cons _ new => exact hhead
    · obtain ⟨s₁, o₁, hk, ho⟩ := (h a).2 h0
      rw [hk] at hx
      cases hx
      refine ⟨[⟨r, a⟩], rfl, by simp, fun e he => ⟨_, rfl, ?_⟩, fun q hq _ => ?_⟩
      · subst he
        obtain heq | heq | ⟨-, b, heq⟩ := ho
        · cases heq
          exact ⟨rfl, h0⟩
        · cases heq
        · cases heq
      · cases hq
        exact ho

/-- Where no error is passed over, none was answered if it ends well. -/
theorem Act.Stops.exec_ok {p : Act σ Ans α} {l l' : List ((r : ρ) × Ans r)} {s' : σ} {a : α} (h : p.Stops err False)
    (hx : Exec (fun l r a l' => l' = ⟨r, a⟩ :: l) p l s' (.ok a) l') :
    ∃ new, l' = new ++ l ∧ ∀ q ∈ new, err q.1 q.2 = 0 := by
  obtain ⟨new, hl, htail, -, hhead⟩ := h.exec hx
  refine ⟨new, hl, fun q hq => ?_⟩
  cases new with
  | nil => cases hq
  | cons q₀ new =>
    obtain rfl | hq := List.mem_cons.mp hq
    · by_contra hne
      obtain he | he | ⟨hquiet, -⟩ := hhead q rfl hne
      · cases he
      · cases he
      · exact hquiet
    · exact htail q hq

/-- What holds of every error that is answered holds of the one it ends with. -/
theorem Act.Stops.wp {E : Env σ W Ans} {Q : σ → W → Outcome α → Prop} {P : W → Int → Prop} {w : W} {p : Act σ Ans α}
    (h : p.Stops err quiet) (hp : p.wp E Q w)
    (hP : ∀ {w r a w'}, E.serve w r a w' → err r a ≠ 0 → P w' (err r a)) :
    p.wp E (fun s w o => Q s w o ∧ ∀ e, o = .err e → P w e) w := by
  induction p generalizing w with
  | done s o => exact ⟨hp, fun e he => absurd he (h e)⟩
  | ask s r k ih =>
    refine ⟨hp.1, fun w₁ hr a w₂ hs => ?_⟩
    have hk := hp.2 w₁ hr a w₂ hs
    by_cases h0 : err r a = 0
    · exact ih a ((h a).1 h0) hk
    · obtain ⟨s', o, hd, ho⟩ := (h a).2 h0
      rw [hd] at hk ⊢
      refine ⟨hk, fun e he => ?_⟩
      subst he
      obtain heq | heq | ⟨-, b, heq⟩ := ho
      · cases heq
        exact hP hs h0
      · cases heq
      · cases heq

end

/-! ## A world that breaks -/

/-- The world breaks at a request that `P` does not admit, and stays broken. -/
def guard (serve : W → (r : ρ) → Ans r → W → Prop) (P : W → ρ → Prop) : Option W → (r : ρ) → Ans r → Option W → Prop
  | some w, r, a, some w' => P w r ∧ serve w r a w'
  | some w, r, _, none => ¬ P w r
  | none, _, _, w' => w' = none

/-- The environment with such a world. -/
def Env.guard (E : Env σ W Ans) (P : W → ρ → Prop) : Env σ (Option W) Ans where
  serve := Resume.guard E.serve P
  rely
    | some w, some w' => E.rely w w'
    | none, none => True
    | _, _ => False
  seen
    | s, some w => E.seen s w
    | _, none => True

section
variable {serve : W → (r : ρ) → Ans r → W → Prop} {P : W → ρ → Prop} {p : Act σ Ans α}
  {Q : σ → Option W → Outcome α → Prop} {w w₁ : W} {E : Env σ W Ans} {r : ρ}

/-- Where the request is admitted, nothing breaks. -/
theorem guard_step {a : Ans r} {o : Option W} (h : guard serve P (some w) r a o) (hr : P w r) :
    ∃ w', o = some w' ∧ serve w r a w' := by
  cases o with
  | none => exact absurd hr h
  | some w' => exact ⟨w', rfl, h.2⟩

theorem not_wp_none {E : Env σ (Option W) Ans} (hans : ∀ r, Nonempty (Ans r)) (hrely : E.rely none none)
    (hserve : ∀ r a, E.serve none r a none) (hQ : ∀ s o, ¬ Q s none o) : ¬ p.wp E Q none := by
  induction p with
  | done s o => exact hQ s o
  | ask s r k ih =>
    intro h
    obtain ⟨a⟩ := hans r
    exact ih a (h.2 none hrely a none (hserve r a))

/-- **A computation that never breaks the world** makes good requests only, and
does over the world itself what it does here. -/
theorem Act.wp.issues (hans : ∀ r, Nonempty (Ans r)) (hQ : ∀ s o, ¬ Q s none o)
    (h : p.wp (Env.solo (Resume.guard serve P)) Q (some w)) :
    p.Issues serve P w ∧ p.wp (Env.solo serve) (fun s w o => Q s (some w) o) w := by
  induction p generalizing w with
  | done s o => exact ⟨trivial, h⟩
  | ask s r k ih =>
    have hr : P w r := by
      by_contra hr
      obtain ⟨a⟩ := hans r
      exact not_wp_none hans rfl (fun _ _ => rfl) hQ (h.2 (some w) rfl a none hr)
    refine ⟨⟨hr, fun a w' hs => (ih a (h.2 (some w) rfl a (some w') ⟨hr, hs⟩)).1⟩, trivial, fun w₁ hw a w' hs => ?_⟩
    cases hw
    exact (ih a (h.2 (some w) rfl a (some w') ⟨hr, hs⟩)).2

/-- The request that is pending is admitted, whatever the others have done. -/
theorem Act.wp.admits {s : σ} {k : Ans r → Act σ Ans α} (hans : ∀ r, Nonempty (Ans r)) (hQ : ∀ s o, ¬ Q s none o)
    (h : (Act.ask s r k).wp (E.guard P) Q (some w)) (hr : E.rely w w₁) :
    P w₁ r ∧ ∀ a w₂, E.serve w₁ r a w₂ → (k a).wp (E.guard P) Q (some w₂) := by
  have hP : P w₁ r := by
    by_contra hP
    obtain ⟨a⟩ := hans r
    exact not_wp_none hans trivial (fun _ _ => rfl) hQ (h.2 (some w₁) hr a none hP)
  exact ⟨hP, fun a w₂ hs => h.2 (some w₁) hr a (some w₂) ⟨hP, hs⟩⟩

end

end

end Resume
