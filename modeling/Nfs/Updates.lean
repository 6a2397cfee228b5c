/-
Connections that change files at the same time.

A connection uses a descriptor that it has opened itself, and a new one is
one that nobody has. So the steps of one connection leave the others with
what they rely on (`Watch.Serve.rely`), and the files follow the trace
(`Watch.Serve.content`). Over a whole run (`InStep`) the files are what the
changes make of them one after the other, and each connection's marks are in
order, whatever the interleaving.

The calls are those that change what a file holds; while another connection
removes or renames the file, nothing is said.
-/
import Nfs.ChangeTrace

namespace Nfs

open PlainFile Resume

/-! ## One step -/

theorem Server.Change.modify {w w' : Server} {f : Str} {u : Bytes → Bytes} {sf sf' : SFile}
    (hc : w.Change f u sf sf' w') : w'.content = Plain.modify w.content f u := by
  funext g
  by_cases hg : g = f
  · rw [hg, hc.content, Plain.modify_self]
  · rw [hc.content_other g hg, Plain.modify_other hg]

/-- The descriptor that a call uses. -/
def descriptor : (q : SysCall) → q.Ans → Option Nat
  | .openW _, .ok fd => some fd
  | .lseek fd _, _ => some fd
  | .write fd _, _ => some fd
  | .close fd, _ => some fd
  | _, _ => none

section
variable {ι : Type} [DecidableEq ι] {root : Str} {L₀ : PlainFiles} {i j : ι} {c : ChangeCall} {q : SysCall} {a : q.Ans}
  {v v' v₁ v₂ : Watch ι} {fd : Nat} {h : List Mark} {m : Option Nat}

namespace Watch.Serve

omit [DecidableEq ι] in
/-- The other descriptors are as they were. -/
theorem descriptor_other (hs : v.Serve i c q a v') (hfd : descriptor q a ≠ some fd) :
    v'.owner fd = v.owner fd ∧ v'.kernel.fds fd = v.kernel.fds fd := by
  rw [hs.owner]
  have hsys := hs.sys
  cases q with
  | stat p =>
    cases a with
    | ok st => exact ⟨rfl, by rw [hsys.1]⟩
    | error er => exact ⟨rfl, by rw [hsys.2]⟩
  | truncate p offset =>
    cases a with
    | ok _ => exact ⟨rfl, by rw [hsys.2.1]⟩
    | error er => exact ⟨rfl, by rw [hsys.2]⟩
  | openW p =>
    cases a with
    | ok fd' =>
      have hne : fd ≠ fd' := fun h => hfd (by rw [h]; rfl)
      exact ⟨Function.update_of_ne hne _ _, by rw [hsys.2.1, Function.update_of_ne hne]⟩
    | error er => exact ⟨rfl, by rw [hsys.2]⟩
  | lseek fd' offset =>
    have hne : fd ≠ fd' := fun h => hfd (by rw [h]; rfl)
    cases a with
    | ok pos =>
      obtain ⟨-, -, p, o, -, hk⟩ := hsys
      exact ⟨rfl, by rw [hk]; exact Function.update_of_ne hne _ _⟩
    | error er => exact ⟨rfl, by rw [hsys.2]⟩
  | write fd' buf =>
    have hne : fd ≠ fd' := fun h => hfd (by rw [h]; rfl)
    cases a with
    | ok n =>
      obtain ⟨-, p, o, -, hk, -⟩ := hsys
      exact ⟨rfl, by rw [hk]; exact Function.update_of_ne hne _ _⟩
    | error er => exact ⟨rfl, by rw [hsys.2]⟩
  | close fd' =>
    have hne : fd ≠ fd' := fun h => hfd (by rw [h]; rfl)
    exact ⟨Function.update_of_ne hne _ _, by rw [hsys.2]; exact Function.update_of_ne hne _ _⟩

/-- A descriptor that is used is the connection's own, or it is new. -/
theorem descriptor_own (hs : v.Serve i c q a v') (hf : v.Fair root i c q) (hfd : descriptor q a = some fd) :
    v.owner fd = some i ∨ v.kernel.fds fd = none := by
  cases q with
  | stat p => cases hfd
  | truncate p offset => cases hfd
  | openW p =>
    cases a with
    | ok fd' =>
      cases hfd
      exact .inr hs.sys.1
    | error er => cases hfd
  | lseek fd' offset =>
    cases hfd
    exact .inl hf
  | write fd' buf =>
    cases hfd
    exact .inl hf.2.1
  | close fd' =>
    cases hfd
    exact .inl hf

omit [DecidableEq ι] in
/-- A descriptor that has an owner after its use is open. -/
theorem descriptor_open (hs : v.Serve i c q a v') (hopen : ∀ fd, v.owner fd = some j → (v.kernel.fds fd).isSome)
    (hfd : descriptor q a = some fd) (hj : v'.owner fd = some j) : (v'.kernel.fds fd).isSome := by
  have hsys := hs.sys
  rw [hs.owner] at hj
  cases q with
  | stat p => cases hfd
  | truncate p offset => cases hfd
  | openW p =>
    cases a with
    | ok fd' =>
      cases hfd
      rw [hsys.2.1, Function.update_self]
      rfl
    | error er => cases hfd
  | lseek fd' offset =>
    cases hfd
    cases a with
    | ok pos =>
      obtain ⟨-, -, p, o, -, hk⟩ := hsys
      simp [hk]
    | error er =>
      rw [hsys.2]
      exact hopen fd hj
  | write fd' buf =>
    cases hfd
    cases a with
    | ok n =>
      obtain ⟨-, p, o, -, hk, -⟩ := hsys
      simp [hk]
    | error er =>
      rw [hsys.2]
      exact hopen fd hj
  | close fd' =>
    cases hfd
    rw [ownerAfter, Function.update_self] at hj
    cases hj

omit [DecidableEq ι] in
theorem opened (hs : v.Serve i c q a v') (hopen : ∀ fd, v.owner fd = some j → (v.kernel.fds fd).isSome) (fd : Nat)
    (hj : v'.owner fd = some j) : (v'.kernel.fds fd).isSome := by
  by_cases hfd : descriptor q a = some fd
  · exact hs.descriptor_open hopen hfd hj
  · obtain ⟨hown, hfds⟩ := hs.descriptor_other hfd
    rw [hfds]
    exact hopen fd (hown ▸ hj)

/-- **What another connection sees** of an answer. -/
theorem rely (hs : v.Serve i c q a v') (hf : v.Fair root i c q) (hj : j ≠ i)
    (hopen : ∀ fd, v.owner fd = some j → (v.kernel.fds fd).isSome) : v.Rely j v' := by
  refine ⟨fun fd hown => ?_, fun p => hs.sys.there, ?_⟩
  · have hfd : descriptor q a ≠ some fd := by
      intro hfd
      obtain hi | hnew := hs.descriptor_own hf hfd
      · exact hj (Option.some.inj (hown.symm.trans hi))
      · have hsome := hopen fd hown
        rw [hnew] at hsome
        cases hsome
    obtain ⟨hown', hfds⟩ := hs.descriptor_other hfd
    exact ⟨hown'.trans hown, hfds⟩
  · rw [hs.trace]
    exact marksOf_append_other hj

/-- **The files** follow the trace. -/
theorem content (hs : v.Serve i c q a v') (hf : v.Fair root i c q)
    (h : v.kernel.fs.content = contents root L₀ v.trace) : v'.kernel.fs.content = contents root L₀ v'.trace := by
  have hsys := hs.sys
  rw [hs.trace]
  cases q with
  | stat p =>
    cases a with
    | ok st => rw [hsys.1]; exact h
    | error er => rw [hsys.2]; exact h
  | openW p =>
    cases a with
    | ok fd =>
      obtain ⟨-, -, ⟨-, hfs⟩ | ⟨sf, hnone, -⟩⟩ := hsys
      · rw [hfs]; exact h
      · have hthere : (v.kernel.fs.files p).isSome := hf
        rw [hnone] at hthere
        cases hthere
    | error er => rw [hsys.2]; exact h
  | lseek fd offset =>
    cases a with
    | ok pos =>
      obtain ⟨-, -, p, o, -, hk⟩ := hsys
      rw [hk]; exact h
    | error er => rw [hsys.2]; exact h
  | write fd buf =>
    cases a with
    | ok n =>
      obtain ⟨-, -, o, hfd, hedit⟩ := hf
      obtain ⟨-, p', o', hfd', -, hw⟩ := hsys
      cases hfd.symm.trans hfd'
      show _ = Plain.modify (contents root L₀ v.trace) (c.path root) (c.edit n)
      rw [← h, hedit n]
      obtain ⟨rfl, hfs⟩ | ⟨-, sf, sf', hc, -⟩ := hw
      · rw [hfs]
        funext g
        simp [Plain.modify]
      · exact hc.modify
    | error er => rw [hsys.2]; exact h
  | truncate p offset =>
    cases a with
    | ok _ =>
      obtain ⟨-, rfl, hedit⟩ := hf
      obtain ⟨-, -, sf, sf', hc, -⟩ := hsys
      show _ = Plain.modify (contents root L₀ v.trace) (c.path root) (c.edit 0)
      rw [← h, hedit 0]
      exact hc.modify
    | error er => rw [hsys.2]; exact h
  | close fd => rw [hsys.2]; exact h

/-- The connection is still in its call. -/
theorem during (hs : v.Serve i c q a v') (hf : v.Fair root i c q) (hm : marksOf i v.trace = Mark.during c h m) :
    ∃ m', marksOf i v'.trace = Mark.during c h m' := by
  have hfresh : v.Fresh i c → ∀ n, ∃ m', .edited c n :: marksOf i v.trace = Mark.during c h m' := by
    intro hfresh n
    obtain ⟨h', hm'⟩ := hfresh
    cases m with
    | none => exact ⟨some n, by rw [hm]; rfl⟩
    | some n' => cases hm.symm.trans hm'
  rw [hs.trace, marksOf_append]
  cases q with
  | write fd buf =>
    cases a with
    | ok n => exact hfresh hf.1 n
    | error er => exact ⟨m, hm⟩
  | truncate p offset =>
    cases a with
    | ok _ => exact hfresh hf.1 0
    | error er => exact ⟨m, hm⟩
  | close fd => exact ⟨m, hm⟩
  | _ => cases a <;> exact ⟨m, hm⟩

end Watch.Serve

/-! ## Runs -/

namespace Watch.Rely

theorem refl : v.Rely i v := ⟨fun _ ho => ⟨ho, rfl⟩, fun _ hp => hp, rfl⟩

theorem trans (h₁ : v.Rely i v₁) (h₂ : v₁.Rely i v₂) : v.Rely i v₂ := by
  refine ⟨fun fd ho => ?_, fun p hp => h₂.files p (h₁.files p hp), h₂.marks.trans h₁.marks⟩
  obtain ⟨ho₁, hfd₁⟩ := h₁.owned fd ho
  exact ⟨(h₂.owned fd ho₁).1, (h₂.owned fd ho₁).2.trans hfd₁⟩

/-- Marks of another connection. -/
theorem mark {ms : List Mark} (hj : j ≠ i) : v.Rely j { v with trace := ms.map (i, ·) ++ v.trace } :=
  ⟨fun _ ho => ⟨ho, rfl⟩, fun _ hp => hp, marksOf_append_other hj⟩

end Watch.Rely

/-- How far connection `i` is: between two calls, or in one that is bound to
end well. -/
def Serving (root : Str) (i : ι) (v : Watch ι) : Thread Int SysCall.Ans ChangeCall.Ret → Prop
  | .idle _ => Calm (marksOf i v.trace)
  | .busy c s q k => ∃ h m, Calm h ∧ marksOf i v.trace = Mark.during c h m ∧
      Closes root i c h (Act.ask s q k) v
  | .down _ => False

namespace Serving

variable {t : Thread Int SysCall.Ans ChangeCall.Ret}

theorem orderly (ht : Serving root i v t) : Orderly (marksOf i v.trace) := by
  cases t with
  | idle s => exact .inl ht
  | busy c s q k =>
    obtain ⟨h, m, hcalm, hm, -⟩ := ht
    exact .inr ⟨c, h, m, hcalm, hm⟩
  | down s => exact ht.elim

theorem rely (ht : Serving root i v t) (hr : v.Rely i v') : Serving root i v' t := by
  cases t with
  | idle s =>
    show Calm _
    rw [hr.marks]
    exact ht
  | busy c s q k =>
    obtain ⟨h, m, hcalm, hm, hwp⟩ := ht
    refine ⟨h, m, hcalm, hr.marks.trans hm, trivial, fun o ho => hwp.2 o ?_⟩
    cases o with
    | none => exact ho
    | some v₁ => exact hr.trans ho
  | down s => exact ht

/-- The connection has come as far as `p`. -/
theorem after {p : Act Int SysCall.Ans ChangeResp} (hcalm : Calm h) (hm : marksOf i v.trace = Mark.during c h m)
    (hp : Closes root i c h p v) :
    Serving root i { v with trace := (returnMarks c p.result).map (i, ·) ++ v.trace } (.after c p) := by
  cases p with
  | ask s q k => exact ⟨h, m, hcalm, hm, hp⟩
  | done s o =>
    cases o with
    | ok resp =>
      obtain ⟨v₁, m₁, hv, hm₁, hends⟩ := hp
      cases hv
      show Calm _
      rw [marksOf_append, hm₁]
      exact .call hcalm hends
    | err e => exact hp.elim
    | fault => exact hp.elim

end Serving

/-- **The invariant** of a run. -/
structure InStep (root : Str) (L₀ : PlainFiles) (t : ι → Thread Int SysCall.Ans ChangeCall.Ret) (v : Watch ι) :
    Prop where
  opened : ∀ fd j, v.owner fd = some j → (v.kernel.fds fd).isSome
  content : v.kernel.fs.content = contents root L₀ v.trace
  serving : ∀ j, Serving root j v (t j)

variable {S S' : Conns ι} {e : ConnEvent}

omit [DecidableEq ι] in
theorem contents_returnMarks {r : Option (Outcome ChangeResp)} {T : List (ι × Mark)} :
    contents root L₀ ((returnMarks c r).map (i, ·) ++ T) = contents root L₀ T := by
  cases r with
  | none => rfl
  | some o => cases o <;> rfl

/-- After a step in which connection `i` has come as far as `p`. -/
theorem InStep.after {p : Act Int SysCall.Ans ChangeResp} (hin : InStep root L₀ S.threads v)
    (hr : ∀ j, j ≠ i → v.Rely j v') (hopen : ∀ fd j, v'.owner fd = some j → (v'.kernel.fds fd).isSome)
    (hcon : v'.kernel.fs.content = contents root L₀ v'.trace)
    (hother : ∀ j, j ≠ i → S'.threads j = S.threads j) (hi : S'.threads i = .after c p) (hcalm : Calm h)
    (hm : marksOf i v'.trace = Mark.during c h m)
    (hp : Closes root i c h p v') :
    InStep root L₀ S'.threads { v' with trace := (returnMarks c p.result).map (i, ·) ++ v'.trace } := by
  refine ⟨hopen, hcon.trans contents_returnMarks.symm, fun j => ?_⟩
  by_cases hj : j = i
  · subst hj
    rw [hi]
    exact .after hcalm hm hp
  · rw [hother j hj]
    exact (hin.serving j).rely ((hr j hj).trans (.mark hj))

theorem Closed.whole {errno : Int} {o : Outcome ChangeResp} : ¬ Returns (Closed i c h) errno none o := by
  intro hr
  obtain ⟨resp, -, v, m, hv, -⟩ := hr.ok
  cases hv

/-- **One step**. -/
theorem InStep.step {owner : Nat → Option ι} {T : List (ι × Mark)}
    (hin : InStep root L₀ S.threads ⟨S.world, owner, T⟩) (hs : ConnStep root S i e S') (hseek : e.op.Seekable) :
    ∃ owner', InStep root L₀ S'.threads ⟨S'.world, owner', (eventMarks e).map (i, ·) ++ T⟩ := by
  have hi := hin.serving i
  rw [eventMarks, List.map_append, List.append_assoc]
  obtain ⟨s, hidle, hw, hrep, hafter, hret⟩ | ⟨s, q, k, a, hbusy, hsys, hrep, hafter, hret⟩ := hs.own
  · rw [hidle] at hi
    have hm : marksOf i ([Mark.called e.op].map (i, ·) ++ T) = Mark.during e.op (marksOf i T) none := marksOf_append
    have hr : ∀ j, j ≠ i →
        Watch.Rely j ⟨S.world, owner, T⟩ ⟨S.world, owner, [Mark.called e.op].map (i, ·) ++ T⟩ := fun _ hj => .mark hj
    rw [hrep, hret, hw]
    exact ⟨owner, hin.after hr hin.opened hin.content (fun j hj => hs.other hj) hafter hi hm
      (ChangeCall.run_closed hseek hm)⟩
  · rw [hbusy] at hi
    obtain ⟨h, m, hcalm, hm, hwp⟩ := hi
    obtain ⟨hfair, hnext⟩ := hwp.admits (fun _ => ⟨.error 0⟩) (fun _ _ => Closed.whole) .refl
    have hserve : Watch.Serve i e.op ⟨S.world, owner, T⟩ q a
        ⟨S'.world, ownerAfter i owner q a, (editMarks e.op q a).map (i, ·) ++ T⟩ := ⟨hsys, rfl, rfl⟩
    obtain ⟨m', hm'⟩ := hserve.during hfair hm
    rw [hrep, hret]
    exact ⟨_, hin.after (fun j hj => hserve.rely hfair hj fun fd => hin.opened fd j)
      (fun fd j => hserve.opened (fun fd => hin.opened fd j) fd) (hserve.content hfair hin.content)
      (fun j hj => hs.other hj) hafter hcalm hm' (hnext a _ hserve)⟩

theorem ConnTrace.inStep {T : List (ι × Mark)} (hrun : ConnTrace root L₀ S T) :
    ∃ owner, InStep root L₀ S.threads ⟨S.world, owner, T⟩ := by
  induction hrun with
  | @start S hidle hfs =>
    refine ⟨fun _ => none, fun fd j ho => (by cases ho), hfs, fun j => ?_⟩
    obtain ⟨errno, hj⟩ := hidle j
    rw [hj]
    exact .nil
  | step _ hs hseek ih =>
    obtain ⟨owner, hin⟩ := ih
    exact hin.step hs hseek

/-- The run of a schedule, as far as its steps are possible. -/
def record (root : Str) : List (Threads.Pick ι ChangeCall) → Conns ι → List (ι × Mark) → Conns ι × List (ι × Mark)
  | [], S, T => (S, T)
  | pick :: picks, S, T =>
    match S.advance (fun _ c => c.run root) Kernel.answer pick with
    | some (i, e, S') =>
      if e.op.Seekable then record root picks S' ((eventMarks e).map (i, ·) ++ T) else (S, T)
    | none => (S, T)

theorem connTrace_record : ∀ (picks : List (Threads.Pick ι ChangeCall)) {S : Conns ι} {T : List (ι × Mark)},
    ConnTrace root L₀ S T → S.world.Ticking →
      ConnTrace root L₀ (record root picks S T).1 (record root picks S T).2
  | [], _, _, hrun, _ => hrun
  | pick :: picks, S, T, hrun, hk => by
    rw [record]
    split
    · rename_i i e S' ha
      split
      · rename_i hseek
        obtain ⟨hs, hw⟩ := Threads.step_advance (fun q => (Kernel.sys_answer hk q).1) ha
        refine connTrace_record picks (hrun.step hs hseek) ?_
        obtain hw | ⟨q, hw⟩ := hw
        · rw [hw]
          exact hk
        · rw [hw]
          exact (Kernel.sys_answer hk q).2
      · exact hrun
    · exact hrun

/-- **Concurrent changes are atomic**: in every run, however the connections'
system calls interleave, the files hold what the changes make of them one
after the other, in the order of the trace. Each connection's calls are made
in order; each makes its change at most once, between its call and its
return, and if it returns 0, all of it. -/
theorem updates_linearize {T : List (ι × Mark)} (hrun : ConnTrace root L₀ S T) :
    S.world.fs.content = contents root L₀ T ∧ ∀ i, Orderly (marksOf i T) := by
  obtain ⟨owner, hin⟩ := hrun.inStep
  exact ⟨hin.content, fun i => (hin.serving i).orderly⟩

end

/-- Two writes that overlap: the one that was called first is the last to
store its byte. -/
theorem updates_linearize_overlapping : ∃ (S : Conns Bool) (T : List (Bool × Mark)),
    ConnTrace [] oneByte.fs.content S T ∧ S.world.fs.content [102] = some [2] ∧
      S.world.fs.content = contents [] oneByte.fs.content T ∧ ∀ i, Orderly (marksOf i T) := by
  have hstart : ConnTrace [] oneByte.fs.content twoConns [] := .start (fun _ => ⟨0, rfl⟩) rfl
  have hrun := connTrace_record overlapping hstart oneByte_ticking
  exact ⟨_, _, hrun, by decide +kernel, updates_linearize hrun⟩

end Nfs
