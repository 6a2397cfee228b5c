/-
The stamps that a write or a truncate returns, when several connections of
the server change one file.

The server runs a thread for each connection, and nothing orders their
system calls. `FileOp::write` and `FileOp::truncate` read the file's stamp,
change the file and read the stamp again; a client takes the two stamps for
those right before and right after its own change, and trusts its cache if
the first is the one it knows. The history of a run keeps, for one path, who
changed it and which stamp it then had, and what the calls returned.

Nothing keeps another connection's change from falling between the two
stamps. If each call held a lock on its file, they could be trusted: this is
the condition `Guarded` on the steps of a run.
-/
import Nfs.FileOp

namespace Nfs

open PlainFile Resume

/-! ## Connections -/

/-- The calls that change a file, with what the response's stamps hold
before they are set. -/
inductive ChangeCall
  | write (fpath : Str) (offset : Int) (buf : Bytes) (before after : FileTime)
  | truncate (fpath : Str) (offset : Int) (before after : FileTime)

namespace ChangeCall

abbrev Ret (_ : ChangeCall) : Type := ChangeResp

def run (root : Str) : (c : ChangeCall) → ServerM c.Ret
  | .write fpath offset buf before after => FileOp.write root fpath offset buf before after
  | .truncate fpath offset before after => FileOp.truncate root fpath offset before after

/-- The path of the file. -/
def path (root : Str) : ChangeCall → Str
  | .write fpath .. => cStr (root ++ fpath)
  | .truncate fpath .. => cStr (root ++ fpath)

/-- `lseek` to the offset returns an `int` that is not negative. -/
def Seekable : ChangeCall → Prop
  | .write _ offset .. => 0 ≤ offset → 0 ≤ toInt offset
  | .truncate .. => True

instance : DecidablePred Seekable
  | .write _ offset _ _ _ => inferInstanceAs (Decidable (0 ≤ offset → 0 ≤ toInt offset))
  | .truncate .. => inferInstanceAs (Decidable True)

end ChangeCall

abbrev Conns (ι : Type) := Threads ι Kernel Int SysCall.Ans ChangeCall.Ret

abbrev ConnEvent := Threads.Event SysCall.Ans ChangeCall.Ret

/-- What has happened to one path: its changes, the newest first, each with
the connection and the stamp it left; and the calls that returned 0. -/
structure ChangeLog (ι : Type) where
  changes : List (ι × Option Stamp)
  returned : List (ι × ChangeResp)

section
variable {ι : Type} [DecidableEq ι] (root p : Str) (s₀ : Option Stamp)

abbrev ConnStep : Conns ι → ι → ConnEvent → Conns ι → Prop := Threads.Step Kernel.Sys fun _ c => c.run root

/-- The changes after the call `c` of connection `i`. -/
def changesAfter (i : ι) (k : Kernel) (c : SysCall) (a : c.Ans) (k' : Kernel) (l : List (ι × Option Stamp)) :
    List (ι × Option Stamp) :=
  if k.changes p c a then (i, k'.stamp p) :: l else l

/-- The log after a step of connection `i`. -/
def ChangeLog.after (l : ChangeLog ι) (i : ι) (k : Kernel) (e : ConnEvent) (k' : Kernel) : ChangeLog ι where
  changes := match e.reply with
    | some ⟨c, a⟩ => changesAfter p i k c a k' l.changes
    | none => l.changes
  returned := match e.ret with
    | some (.ok resp) => if e.op.path root = p ∧ resp.error = 0 then (i, resp) :: l.returned else l.returned
    | _ => l.returned

/-- A run with the log of path `p`, whose first stamp is `s₀`; every step is
`allowed`. -/
inductive Logged (allowed : Conns ι → ι → ConnEvent → Prop) : Conns ι → ChangeLog ι → Prop
  | start : (∀ i, ∃ errno, S.threads i = .idle errno) → S.world.stamp p = s₀ → Logged allowed S ⟨[], []⟩
  | step : Logged allowed S l → ConnStep root S i e S' → allowed S i e →
      Logged allowed S' (l.after root p i S.world e S'.world)

/-- The stamp after these changes. -/
def stampAt : List (ι × Option Stamp) → Option Stamp
  | [] => s₀
  | x :: _ => x.2

/-- The changes between the two stamps of a call that returned 0 are those of
its connection. -/
def Trustworthy (l : ChangeLog ι) : Prop :=
  ∀ i resp, (i, resp) ∈ l.returned → ∀ newer between older, l.changes = newer ++ (between ++ older) →
    stampAt s₀ older = some resp.beforeChange.stamp → stampAt s₀ (between ++ older) = some resp.afterChange.stamp →
    ∀ x ∈ between, x.1 = i

/-- The connection is inside a call that changes `p`. -/
def Inside : Thread Int SysCall.Ans ChangeCall.Ret → Prop
  | .busy c _ _ _ => c.path root = p
  | _ => False

instance : DecidablePred (Inside root p)
  | .busy c _ _ _ => inferInstanceAs (Decidable (c.path root = p))
  | .idle _ => inferInstanceAs (Decidable False)
  | .down _ => inferInstanceAs (Decidable False)

/-- A step that changes `p` finds no other connection inside such a call. -/
def Guarded (S : Conns ι) (i : ι) (e : ConnEvent) : Prop :=
  e.op.Seekable ∧ ∀ c a, e.reply = some ⟨c, a⟩ → S.world.changes p c a → ∀ j, j ≠ i → ¬ Inside root p (S.threads j)

end

/-! ## One call -/

section
variable {ι : Type} {p : Str} {s₀ : Option Stamp} {i : ι} {older : List (ι × Option Stamp)}
  {v v' : Kernel × List (ι × Option Stamp)} {c : SysCall} {a : c.Ans} {errno : Int}

/-- A call of connection `i`, with the changes of `p`: nobody else changes
`p` meanwhile. -/
def guardedEnv (p : Str) (i : ι) : Env Int (Kernel × List (ι × Option Stamp)) SysCall.Ans where
  serve v c a v' := v.1.Sys c a v'.1 ∧ v'.2 = changesAfter p i v.1 c a v'.1 v.2
  rely v v' := v'.1.stamp p = v.1.stamp p ∧ v'.2 = v.2
  seen _ _ := True

/-- The log has the current stamp, and since `older` all changes are those of
connection `i`. -/
def Since (p : Str) (s₀ : Option Stamp) (i : ι) (older : List (ι × Option Stamp))
    (v : Kernel × List (ι × Option Stamp)) : Prop :=
  v.1.stamp p = stampAt s₀ v.2 ∧ ∃ own, v.2 = own ++ older ∧ ∀ x ∈ own, x.1 = i

theorem Since.rely (h : Since p s₀ i older v) (hr : (guardedEnv p i).rely v v') : Since p s₀ i older v' := by
  obtain ⟨hst, hlog⟩ := hr
  rw [Since, hst, hlog]
  exact h

theorem Since.serve (h : Since p s₀ i older v) (hs : (guardedEnv p i).serve v c a v') : Since p s₀ i older v' := by
  obtain ⟨hcur, own, hown, hall⟩ := h
  obtain ⟨hs, hlog⟩ := hs
  rw [changesAfter] at hlog
  split at hlog
  · refine ⟨by rw [hlog]; rfl, (i, v'.1.stamp p) :: own, by rw [hlog, hown]; rfl, fun x hx => ?_⟩
    rcases List.mem_cons.mp hx with rfl | hx
    · rfl
    · exact hall x hx
  · rename_i hc
    exact ⟨by rw [hs.stamp_same hc, hlog, hcur], own, hlog.trans hown, hall⟩

/-- **A system call**: a call that fails sets `errno`. -/
theorem sys_rule (h : Since p s₀ i older v) : ((sys c) errno).wp (guardedEnv p i)
    (Returns fun a e v => Since p s₀ i older v ∧ (a = none → e ≠ 0) ∧ (a.isSome → e = errno) ∧
      ∀ x, a = some x → ∃ k k' : Kernel, k.Sys c (.ok x) k') v := by
  refine ⟨trivial, fun v₁ hr a v₂ hs => ?_⟩
  have h₂ := (h.rely hr).serve hs
  cases a with
  | ok x => exact ⟨h₂, nofun, fun _ => rfl, fun y hy => ⟨v₁.1, v₂.1, by cases hy; exact hs.1⟩⟩
  | error e =>
    refine ⟨h₂, fun _ => ?_, nofun, nofun⟩
    have he : 0 < e := by
      cases c with
      | close fd => exact hs.1.1 e rfl
      | _ => exact hs.1.1
    exact fun h0 => absurd he (by rw [h0]; decide)

/-- Reading the stamp. -/
theorem loadTime_rule {fname : Str} {t : FileTime} (hp : cStr fname = p) (h : Since p s₀ i older v) :
    ((loadTime fname t) errno).wp (guardedEnv p i) (Returns fun r e v' => Since p s₀ i older v' ∧ v'.2 = v.2 ∧
      (0 ≤ r.1 ∧ stampAt s₀ v.2 = some r.2.stamp ∨ r.1 < 0 ∧ e ≠ 0)) v := by
  refine ⟨trivial, fun v₁ hr a v₂ hs => ?_⟩
  have h₂ := (h.rely hr).serve hs
  have hlog : v₂.2 = v.2 := hs.2.trans hr.2
  cases a with
  | ok st =>
    obtain ⟨⟨hk, s, hf, rfl⟩, -⟩ := hs
    refine ⟨h₂, hlog, .inl ⟨le_refl _, ?_⟩⟩
    rw [← h.1, ← hr.1, Kernel.stamp, ← hp, hf]
    rfl
  | error e => exact ⟨h₂, hlog, .inr ⟨(by decide : (-1 : Int) < 0), fun h0 => absurd hs.1.1 (by rw [h0]; decide)⟩⟩

/-- The two stamps enclose changes of connection `i` only, up to the last. -/
def Vouches (s₀ : Option Stamp) (i : ι) (resp : ChangeResp) (l : List (ι × Option Stamp)) : Prop :=
  ∃ own older, l = own ++ older ∧ (∀ x ∈ own, x.1 = i) ∧ stampAt s₀ older = some resp.beforeChange.stamp ∧
    stampAt s₀ l = some resp.afterChange.stamp

/-- How a call ends. -/
def Ended (p : Str) (s₀ : Option Stamp) (i : ι) (resp : ChangeResp) (_ : Int)
    (v : Kernel × List (ι × Option Stamp)) : Prop :=
  v.1.stamp p = stampAt s₀ v.2 ∧ (resp.error = 0 → Vouches s₀ i resp v.2)

variable {before after : FileTime}

theorem returnErrno_rule (h : Since p s₀ i older v) (he : errno ≠ 0) :
    ((FileOp.returnErrno before after) errno).wp (guardedEnv p i) (Returns (Ended p s₀ i)) v :=
  ⟨h.1, fun h0 => absurd h0 he⟩

theorem loadAfter_rule {filename : Str} (hp : cStr filename = p) (h : Since p s₀ i older v)
    (hb : stampAt s₀ older = some before.stamp) :
    ((FileOp.loadAfter filename before after) errno).wp (guardedEnv p i) (Returns (Ended p s₀ i)) v := by
  refine wp_returns (loadTime_rule hp h) fun e v' r hr => ?_
  obtain ⟨h', hlog, hr⟩ := hr
  rcases r with ⟨err, time⟩
  show Act.wp _ _ ((if _ then _ else _ : ServerM ChangeResp) e) v'
  obtain ⟨h0, ha⟩ | ⟨h0, he⟩ := hr
  · rw [if_neg (not_lt.mpr h0)]
    obtain ⟨hcur, own, hown, hall⟩ := h'
    exact ⟨hcur, fun _ => ⟨own, older, hown, hall, hb, by rw [hlog]; exact ha⟩⟩
  · rw [if_pos h0]
    exact returnErrno_rule h' he

theorem loadBefore_rule {filename : Str} {rest : FileTime → ServerM ChangeResp} (hp : cStr filename = p)
    (hcur : v.1.stamp p = stampAt s₀ v.2)
    (hrest : ∀ {t e v'}, Since p s₀ i v.2 v' → stampAt s₀ v.2 = some t.stamp →
      ((rest t) e).wp (guardedEnv p i) (Returns (Ended p s₀ i)) v') :
    ((FileOp.loadBefore filename before after rest) errno).wp (guardedEnv p i) (Returns (Ended p s₀ i)) v := by
  have h : Since p s₀ i v.2 v := ⟨hcur, [], rfl, nofun⟩
  refine wp_returns (loadTime_rule hp h) fun e v' r hr => ?_
  obtain ⟨h', -, hr⟩ := hr
  rcases r with ⟨err, time⟩
  show Act.wp _ _ ((if _ then _ else _ : ServerM ChangeResp) e) v'
  obtain ⟨h0, hb⟩ | ⟨h0, he⟩ := hr
  · rw [if_neg (not_lt.mpr h0)]
    exact hrest h' hb
  · rw [if_pos h0]
    exact returnErrno_rule h' he

theorem write_ended {root fpath : Str} {offset : Int} {buf : Bytes} (hp : cStr (root ++ fpath) = p)
    (hseek : 0 ≤ offset → 0 ≤ toInt offset) (hcur : v.1.stamp p = stampAt s₀ v.2) :
    ((FileOp.write root fpath offset buf before after) errno).wp (guardedEnv p i) (Returns (Ended p s₀ i)) v := by
  rw [FileOp.write]
  refine loadBefore_rule hp hcur fun {t e v₁} h hb => ?_
  refine wp_returns (sys_rule h) fun e v₂ fd hfd => ?_
  obtain ⟨h, hnone, -, -⟩ := hfd
  cases fd with
  | none => exact returnErrno_rule h (hnone rfl)
  | some fd =>
    refine wp_returns (sys_rule h) fun e v₃ pos hpos => ?_
    obtain ⟨h, hnone, hsome, hsys⟩ := hpos
    show Act.wp _ _ ((if _ then _ else _ : ServerM ChangeResp) e) v₃
    split
    · rename_i hneg
      -- The result of `lseek` is negative only if it fails: the offset is seekable.
      have he : e ≠ 0 := by
        cases pos with
        | none => exact hnone rfl
        | some x =>
          obtain ⟨k, k', h0, hx, -⟩ := hsys x rfl
          rw [hx] at hneg
          exact absurd (hseek h0) (not_le.mpr hneg)
      refine wp_returns (sys_rule h) fun e' v₄ a ha => ?_
      obtain ⟨h, hnone, hsame, -⟩ := ha
      refine returnErrno_rule h ?_
      cases a with
      | none => exact hnone rfl
      | some _ => rw [hsame rfl]; exact he
    · refine wp_returns (sys_rule h) fun e v₄ n hn => ?_
      obtain ⟨h, hnone, -, -⟩ := hn
      refine wp_returns (sys_rule h) fun e' v₅ a ha => ?_
      obtain ⟨h, hnone', hsame, -⟩ := ha
      cases n with
      | none =>
        refine returnErrno_rule h ?_
        cases a with
        | none => exact hnone' rfl
        | some _ => rw [hsame rfl]; exact hnone rfl
      | some n =>
        show Act.wp _ _ ((if _ then _ else _ : ServerM ChangeResp) e') v₅
        split
        · exact ⟨h.1, fun h0 => absurd h0 (by decide : edquot ≠ 0)⟩
        · exact loadAfter_rule hp h hb

theorem truncate_ended {root fpath : Str} {offset : Int} (hp : cStr (root ++ fpath) = p)
    (hcur : v.1.stamp p = stampAt s₀ v.2) :
    ((FileOp.truncate root fpath offset before after) errno).wp (guardedEnv p i) (Returns (Ended p s₀ i)) v := by
  rw [FileOp.truncate]
  refine loadBefore_rule hp hcur fun {t e v₁} h hb => ?_
  refine wp_returns (sys_rule h) fun e v₂ a ha => ?_
  obtain ⟨h, hnone, -, -⟩ := ha
  cases a with
  | none => exact returnErrno_rule h (hnone rfl)
  | some _ => exact loadAfter_rule hp h hb

end

/-! ## Runs -/

section
variable {ι : Type} {root p : Str} {s₀ : Option Stamp} {i : ι} {l : List (ι × Option Stamp)}

theorem stampAt_mem : stampAt s₀ l ∈ l.map (·.2) ++ [s₀] := by
  cases l with
  | nil => exact List.mem_singleton.mpr rfl
  | cons x l => exact List.mem_cons_self

/-- A stamp is that of one state only. -/
theorem stampAt_injective (h : (l.map (·.2) ++ [s₀]).Nodup) {r₁ r₂ : List (ι × Option Stamp)} (h₁ : r₁ <:+ l)
    (h₂ : r₂ <:+ l) (he : stampAt s₀ r₁ = stampAt s₀ r₂) : r₁ = r₂ := by
  have key : ∀ {r r' : List (ι × Option Stamp)}, r <:+ r' → r' <:+ l → stampAt s₀ r = stampAt s₀ r' → r = r' := by
    rintro r r' ⟨m, rfl⟩ ⟨n, rfl⟩ he
    cases m with
    | nil => rfl
    | cons x m =>
      have hd : (x.2 :: ((m ++ r).map (·.2) ++ [s₀])).Nodup := by
        rw [List.map_append, List.append_assoc] at h
        exact h.of_append_right
      refine absurd ?_ (List.nodup_cons.mp hd).1
      have hx : x.2 = stampAt s₀ r := he.symm
      rw [hx, List.map_append, List.append_assoc]
      exact List.mem_append_right _ stampAt_mem
  rcases List.suffix_or_suffix_of_suffix h₁ h₂ with hs | hs
  · exact key hs h₂ he
  · exact (key hs h₁ he.symm).symm

/-- What is left of a pending call on `p` returns stamps that can be
trusted. -/
def Pending (root p : Str) (s₀ : Option Stamp) (i : ι) (t : Thread Int SysCall.Ans ChangeCall.Ret)
    (v : Kernel × List (ι × Option Stamp)) : Prop :=
  ∀ c s r k, t = .busy c s r k → c.path root = p →
    (Act.ask s r k).wp (guardedEnv p i) (Returns (Ended p s₀ i)) v

variable {v v' : Kernel × List (ι × Option Stamp)}

theorem Pending.after {c : ChangeCall} {q : Act Int SysCall.Ans ChangeResp}
    (h : c.path root = p → q.wp (guardedEnv p i) (Returns (Ended p s₀ i)) v) :
    Pending root p s₀ i (Thread.after c q) v ∧
      ∀ resp, q.result = some (.ok resp) → c.path root = p → resp.error = 0 → Vouches s₀ i resp v.2 := by
  cases q with
  | ask s r k =>
    refine ⟨fun c' s' r' k' he hc => ?_, nofun⟩
    cases he
    exact h hc
  | done s o =>
    refine ⟨fun c' s' r' k' he => ?_, fun resp hres hc => ?_⟩
    · cases o <;> cases he
    · cases hres
      exact (h hc).2

theorem Pending.rely {t : Thread Int SysCall.Ans ChangeCall.Ret} (h : Pending root p s₀ i t v)
    (hr : Inside root p t → (guardedEnv p i).rely v v') : Pending root p s₀ i t v' := by
  intro c s r k ht hc
  have hrel : v'.1.stamp p = v.1.stamp p ∧ v'.2 = v.2 := hr (by rw [ht]; exact hc)
  exact ⟨trivial, fun v₁ h₁ => (h c s r k ht hc).2 v₁ ⟨h₁.1.trans hrel.1, h₁.2.trans hrel.2⟩⟩

theorem ChangeCall.run_ended {c : ChangeCall} {errno : Int} (hp : c.path root = p) (hseek : c.Seekable)
    (hcur : v.1.stamp p = stampAt s₀ v.2) :
    ((c.run root) errno).wp (guardedEnv p i) (Returns (Ended p s₀ i)) v := by
  cases c with
  | write fpath offset buf before after => exact write_ended hp hseek hcur
  | truncate fpath offset before after => exact truncate_ended hp hcur

/-- The log of the changes is right: it ends with the current stamp, and a
stamp is that of one change only. -/
structure Stamped (p : Str) (s₀ : Option Stamp) (k : Kernel) (l : List (ι × Option Stamp)) : Prop where
  current : k.stamp p = stampAt s₀ l
  had : ∀ t, some t ∈ l.map (·.2) ++ [s₀] → k.fs.had p t
  distinct : (l.map (·.2) ++ [s₀]).Nodup

/-- What a run keeps. -/
structure Consistent (root p : Str) (s₀ : Option Stamp) (S : Conns ι) (l : ChangeLog ι) : Prop where
  stamped : Stamped p s₀ S.world l.changes
  inside : ∀ i, Pending root p s₀ i (S.threads i) (S.world, l.changes)
  returned : ∀ i resp, (i, resp) ∈ l.returned → ∃ rest, rest <:+ l.changes ∧ Vouches s₀ i resp rest

theorem had_stamp {k : Kernel} {t : Stamp} (h : k.stamp p = some t) : k.fs.had p t := by
  obtain ⟨s, hs, rfl⟩ := Option.map_eq_some_iff.mp h
  exact k.fs.own hs

variable {S S' : Conns ι} {l : ChangeLog ι} {e : ConnEvent}

theorem Consistent.start (hidle : ∀ i, ∃ errno, S.threads i = .idle errno) :
    Consistent root p (S.world.stamp p) S ⟨[], []⟩ where
  stamped := ⟨rfl, fun _ ht => had_stamp (List.mem_singleton.mp ht).symm, List.nodup_singleton _⟩
  inside i c s r k ht := by
    obtain ⟨errno, hi⟩ := hidle i
    rw [hi] at ht
    cases ht
  returned _ _ h := absurd h List.not_mem_nil

theorem suffix_changesAfter {k k' : Kernel} {c : SysCall} {a : c.Ans} {l : List (ι × Option Stamp)} :
    l <:+ changesAfter p i k c a k' l := by
  rw [changesAfter]
  split
  · exact List.suffix_cons _ _
  · exact List.suffix_refl _

/-- A change has a stamp of its own. -/
theorem Stamped.changesAfter {k k' : Kernel} {c : SysCall} {a : c.Ans} {l : List (ι × Option Stamp)}
    (h : Stamped p s₀ k l) (hs : k.Sys c a k') : Stamped p s₀ k' (changesAfter p i k c a k' l) := by
  have hhad : ∀ t, some t ∈ l.map (·.2) ++ [s₀] → k'.fs.had p t := fun t ht => (hs.evolves p).1 t (h.had t ht)
  rw [Nfs.changesAfter]
  split
  · rename_i hc
    obtain ⟨t, ht, hnew⟩ := hs.stamp_new hc
    refine ⟨rfl, fun t' ht' => ?_, List.nodup_cons.mpr ⟨fun hm => ?_, h.distinct⟩⟩
    · rcases List.mem_cons.mp ht' with ht' | ht'
      · exact had_stamp ht'.symm
      · exact hhad t' ht'
    · exact hnew (h.had t (by rw [← ht]; exact hm))
  · rename_i hc
    exact ⟨(hs.stamp_same hc).trans h.current, hhad, h.distinct⟩

variable [DecidableEq ι]

/-- What a step of connection `i` does to the connections: its own call goes
on, and the others inside a call on `p` have not been disturbed. -/
theorem Consistent.threads (h : Consistent root p s₀ S l) (hs : ConnStep root S i e S') (hg : Guarded root p S i e) :
    (Pending root p s₀ i (S'.threads i) (S'.world, (l.after root p i S.world e S'.world).changes) ∧
      ∀ resp, e.ret = some (.ok resp) → e.op.path root = p → resp.error = 0 →
        Vouches s₀ i resp (l.after root p i S.world e S'.world).changes) ∧
    ∀ j, j ≠ i → Pending root p s₀ j (S'.threads j) (S'.world, (l.after root p i S.world e S'.world).changes) := by
  rcases hs.own with ⟨errno, hi, hw, hrep, hi', hret⟩ | ⟨errno, c, k, a, hi, hw, hrep, hi', hret⟩
  · have hch : (l.after root p i S.world e S'.world).changes = l.changes := by rw [ChangeLog.after, hrep]
    rw [hch, hw]
    refine ⟨?_, fun j hj => ?_⟩
    · rw [hi', hret]
      exact Pending.after fun hp => ChangeCall.run_ended hp hg.1 h.stamped.current
    · rw [hs.other hj]
      exact h.inside j
  · have hch : (l.after root p i S.world e S'.world).changes = changesAfter p i S.world c a S'.world l.changes := by
      rw [ChangeLog.after, hrep]
    rw [hch]
    refine ⟨?_, fun j hj => ?_⟩
    · rw [hi', hret]
      exact Pending.after fun hp => (h.inside i _ _ _ _ hi hp).2 (S.world, l.changes) ⟨rfl, rfl⟩ a _ ⟨hw, rfl⟩
    · rw [hs.other hj]
      refine (h.inside j).rely fun hin => ?_
      have hc : ¬ S.world.changes p c a := fun hc => hg.2 c a hrep hc j hj hin
      exact ⟨hw.stamp_same hc, if_neg hc⟩

/-- **A step** keeps the log consistent, if a change finds no other
connection inside a call. -/
theorem Consistent.step (h : Consistent root p s₀ S l) (hs : ConnStep root S i e S') (hg : Guarded root p S i e) :
    Consistent root p s₀ S' (l.after root p i S.world e S'.world) := by
  obtain ⟨⟨hown, hret⟩, hother⟩ := h.threads hs hg
  obtain ⟨hst, hsuf⟩ : Stamped p s₀ S'.world (l.after root p i S.world e S'.world).changes ∧
      l.changes <:+ (l.after root p i S.world e S'.world).changes := by
    rcases hs.own with ⟨_, _, hw, hrep, _⟩ | ⟨_, c, _, a, _, hw, hrep, _⟩
    · rw [ChangeLog.after, hrep, hw]
      exact ⟨h.stamped, List.suffix_refl _⟩
    · rw [ChangeLog.after, hrep]
      exact ⟨h.stamped.changesAfter hw, suffix_changesAfter⟩
  refine ⟨hst, fun j => ?_, fun j resp hm => ?_⟩
  · by_cases hj : j = i
    · rw [hj]
      exact hown
    · exact hother j hj
  · have hold : (j, resp) ∈ l.returned →
        ∃ rest, rest <:+ (l.after root p i S.world e S'.world).changes ∧ Vouches s₀ j resp rest := by
      intro hm
      obtain ⟨rest, hl, hv⟩ := h.returned j resp hm
      exact ⟨rest, hl.trans hsuf, hv⟩
    simp only [ChangeLog.after] at hm
    split at hm
    · rename_i resp' hr
      split at hm
      · rename_i hc
        rcases List.mem_cons.mp hm with he | hm
        · cases he
          exact ⟨_, List.suffix_refl _, hret resp hr hc.1 hc.2⟩
        · exact hold hm
      · exact hold hm
    · exact hold hm

/-- **A run** keeps the log consistent. -/
theorem Logged.consistent {S : Conns ι} (h : Logged root p s₀ (Guarded root p) S l) : Consistent root p s₀ S l := by
  induction h with
  | start hidle hst => exact hst ▸ .start hidle
  | step _ hs hg ih => exact ih.step hs hg

/-- The run of a schedule, as far as its steps are possible and `ok`. -/
def drive (root p : Str) (ok : Conns ι → ι → ConnEvent → Bool) :
    List (Threads.Pick ι ChangeCall) → Conns ι → ChangeLog ι → Conns ι × ChangeLog ι
  | [], S, l => (S, l)
  | pick :: picks, S, l =>
    match S.advance (fun _ c => c.run root) Kernel.answer pick with
    | some (i, e, S') => if ok S i e then drive root p ok picks S' (l.after root p i S.world e S'.world) else (S, l)
    | none => (S, l)

theorem logged_drive {allowed : Conns ι → ι → ConnEvent → Prop} {ok : Conns ι → ι → ConnEvent → Bool}
    (hok : ∀ S i e, ok S i e → allowed S i e) : ∀ (picks : List (Threads.Pick ι ChangeCall)) {S : Conns ι}
    {l : ChangeLog ι}, Logged root p s₀ allowed S l → S.world.Ticking →
      Logged root p s₀ allowed (drive root p ok picks S l).1 (drive root p ok picks S l).2
  | [], _, _, h, _ => h
  | pick :: picks, S, l, h, hk => by
    rw [drive]
    split
    · rename_i i e S' ha
      split
      · rename_i hi
        obtain ⟨hs, hw⟩ := Threads.step_advance (fun c => (Kernel.sys_answer hk c).1) ha
        refine logged_drive hok picks (h.step hs (hok S i e hi)) ?_
        rcases hw with hw | ⟨c, hw⟩
        · rw [hw]
          exact hk
        · rw [hw]
          exact (Kernel.sys_answer hk c).2
      · exact h
    · exact h

end

/-- A server with one file of one byte. -/
def oneByte : Kernel where
  fs := {
    files := fun f => if f = [102] then some { content := [1], mode := 0o100644, time := .epoch } else none
    had := fun f t => f = [102] ∧ t = FileTime.epoch.stamp
    own := by
      intro f s h
      by_cases hf : f = [102]
      · rw [if_pos hf] at h
        cases h
        exact ⟨hf, rfl⟩
      · rw [if_neg hf] at h
        cases h }
  fds := fun _ => none

theorem oneByte_ticking : oneByte.Ticking := by
  rintro p s t hs ⟨hp, rfl⟩
  subst hp
  cases hs
  exact Int64.le_refl _

/-- Nobody is connected in the middle of a call. -/
def twoConns : Conns Bool := { world := oneByte, threads := fun _ => .idle 0 }

theorem twoConns_logged (allowed : Conns Bool → Bool → ConnEvent → Prop) :
    Logged [] [102] (oneByte.stamp [102]) allowed twoConns ⟨[], []⟩ :=
  .start (fun _ => ⟨0, rfl⟩) rfl

def writeByte (v : UInt8) : ChangeCall := .write [102] 0 [v] .epoch .epoch

/-- `Guarded`, between two connections. -/
def guards (root p : Str) (S : Conns Bool) (i : Bool) (e : ConnEvent) : Bool :=
  decide e.op.Seekable && match e.reply with
    | some ⟨c, a⟩ => !(S.world.changes p c a) || decide (¬ Inside root p (S.threads !i))
    | none => true

theorem guarded_of_guards {root p : Str} (S : Conns Bool) (i : Bool) (e : ConnEvent) (h : guards root p S i e) :
    Guarded root p S i e := by
  rw [guards, Bool.and_eq_true, decide_eq_true_eq] at h
  refine ⟨h.1, fun c a hrep hc j hj => ?_⟩
  have h' := h.2
  rw [hrep] at h'
  obtain rfl : j = !i := by cases i <;> cases j <;> simp_all
  simpa [hc] using h'

/-- **The stamps can be trusted** in every run in which a change finds no
other connection inside a call that changes the same file: a call that
returns 0 returns stamps between which only its own connection has changed
the file. -/
theorem stamps_trustworthy {ι : Type} [DecidableEq ι] {root p : Str} {s₀ : Option Stamp} {S : Conns ι}
    {l : ChangeLog ι} (h : Logged root p s₀ (Guarded root p) S l) : Trustworthy s₀ l := by
  intro i resp hm newer between older hl hb ha x hx
  have hC := h.consistent
  obtain ⟨_, hl', own, older', rfl, hall, hb', ha'⟩ := hC.returned i resp hm
  have hrest : between ++ older = own ++ older' :=
    stampAt_injective hC.stamped.distinct ⟨newer, hl.symm⟩ hl' (ha.trans ha'.symm)
  have hold : older = older' := by
    refine stampAt_injective hC.stamped.distinct ?_ ((List.suffix_append _ _).trans hl') (hb.trans hb'.symm)
    exact (List.suffix_append between older).trans ⟨newer, hl.symm⟩
  rw [hold] at hrest
  exact hall x (List.append_cancel_right hrest ▸ hx)

/-- Two writes, one after the other. -/
theorem stamps_trustworthy_sequential : ∃ (S : Conns Bool) (l : ChangeLog Bool),
    Logged [] [102] (oneByte.stamp [102]) (Guarded [] [102]) S l ∧ l.returned.length = 2 ∧
      Trustworthy (oneByte.stamp [102]) l := by
  have h := logged_drive guarded_of_guards (.call true (writeByte 2) :: (List.replicate 6 (.reply true) ++
    .call false (writeByte 3) :: List.replicate 6 (.reply false)))
    (twoConns_logged (Guarded [] [102])) oneByte_ticking
  exact ⟨_, _, h, by decide +kernel, stamps_trustworthy h⟩

/-- One connection has read the first stamp when the other one's write is
served; then the first goes on. -/
def overlapping : List (Threads.Pick Bool ChangeCall) :=
  [.call true (writeByte 2), .reply true, .call false (writeByte 3)] ++
    List.replicate 6 (.reply false) ++ List.replicate 5 (.reply true)

/-- **Without a lock** the stamps of a write that returns 0 may enclose another
connection's write. -/
theorem stamps_enclose_foreign : ∃ (S : Conns Bool) (l : ChangeLog Bool),
    Logged [] [102] (oneByte.stamp [102]) (fun _ _ _ => True) S l ∧ ¬ Trustworthy (oneByte.stamp [102]) l := by
  have hrun := logged_drive (fun (_ : Conns Bool) _ _ (_ : true = true) => trivial) overlapping (twoConns_logged _)
    oneByte_ticking
  refine ⟨_, _, hrun, fun h => ?_⟩
  have hforeign := h true
    { error := 0, beforeChange := .epoch, afterChange := { FileTime.epoch with mtime := ⟨2, 0⟩ } }
    (by decide +kernel) [] [(true, some (⟨2, 0⟩, ⟨0, 0⟩)), (false, some (⟨1, 0⟩, ⟨0, 0⟩))] [] (by decide +kernel)
    (by decide +kernel) (by decide +kernel) (false, some (⟨1, 0⟩, ⟨0, 0⟩)) (by simp)
  cases hforeign

end Nfs
