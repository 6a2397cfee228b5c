/-
Many clients of one server.

Every client has a connection of its own, and with it a thread of the server.
What the sessions share is the host: the system calls of the responders
interleave in any way. So a session goes on like one over a host that moves
in the meantime (`Meanwhile`), and what is known of every session is known of
each of them (`Views.split`): none of them fails, whatever the others do, and
as long as there are finitely many, all of them end.
-/
import Nfs.Completion

namespace Nfs

open Resume

variable {ι K L σ α : Type} {cap : Nat}

/-! ## Sessions over one host -/

/-- The session over another host. -/
def Session.on (S : Session L α) (k : K) : Session K α where
  client := S.client
  outbox := S.outbox
  up := S.up
  server := S.server
  down := S.down
  inbox := S.inbox
  host := k

structure Network (ι K α : Type) where
  host : K
  /-- What is each client's own. -/
  sessions : ι → Session Unit α

namespace Network

variable [DecidableEq ι]

/-- A step of the session `i`. -/
def Step (H : K → (c : HostCall) → c.Ans → K → Prop) (cap : Nat) (C : Network ι K α) (i : ι) (C' : Network ι K α) :
    Prop :=
  ∃ S', ((C.sessions i).on C.host).Step H cap S' ∧ C' = ⟨S'.host, Function.update C.sessions i (S'.on ())⟩

inductive Reach (H : K → (c : HostCall) → c.Ans → K → Prop) (cap : Nat) (C₀ : Network ι K α) : Network ι K α → Prop
  | start : Reach H cap C₀ C₀
  | step {C C' : Network ι K α} {i : ι} : Reach H cap C₀ C → C.Step H cap i C' → Reach H cap C₀ C'

omit [DecidableEq ι] in
/-- All have connected, and client `i` is about to carry out `p i`. -/
def start (p : ι → Act σ Req.Resp α) (errno : ι → Int) (host : K) : Network ι K (σ × Outcome α) where
  host := host
  sessions i := (Session.start (p i) (errno i) host).on ()

end Network

/-! ## One session of many -/

section
variable {H : K → (c : HostCall) → c.Ans → K → Prop} {H' : L → (c : HostCall) → c.Ans → L → Prop}

/-- A step over one host is a step over another that answers the same. -/
theorem Session.Step.on {S : Session Unit α} {S' : Session K α} {k : K} {l : L} {Q : L → K → Prop}
    (h : (S.on k).Step H cap S') (hsame : Q l k)
    (hsim : ∀ {e c ks a k'}, S.server = .ask e (.op (.host c)) ks → H k c a k' → ∃ l', H' l c a l' ∧ Q l' k') :
    ∃ l', (S.on l).Step H' cap (S'.on l') ∧ Q l' S'.host := by
  cases h with
  | fwrite hc => exact ⟨l, .fwrite hc, hsame⟩
  | fflush hc ho => exact ⟨l, .fflush hc ho, hsame⟩
  | fread hc hle => exact ⟨l, .fread hc hle, hsame⟩
  | cut hc hs hne => exact ⟨l, .cut hc hs hne, hsame⟩
  | drain ho hne hcap => exact ⟨l, .drain ho hne hcap, hsame⟩
  | fetch hc hlt hd hne => exact ⟨l, .fetch hc hlt hd hne, hsame⟩
  | server h =>
    cases h with
    | receive hs hu hne hle => exact ⟨l, .server (.receive hs hu hne hle), hsame⟩
    | hangup hs hc ho hu => exact ⟨l, .server (.hangup hs hc ho hu), hsame⟩
    | send hs hpos hle hcap => exact ⟨l, .server (.send hs hpos hle hcap), hsame⟩
    | next hs => exact ⟨l, .server (.next hs), hsame⟩
    | @op e r ks a k' hs hserve =>
      cases r with
      | uninit =>
        cases hserve
        exact ⟨l, .server (.op (r := .uninit) hs rfl), hsame⟩
      | host c =>
        obtain ⟨l', hl, hQ⟩ := hsim hs hserve
        exact ⟨l', .server (.op (r := .host c) hs hl), hQ⟩

/-- Some step is possible over any host that answers. -/
theorem Session.Step.exists_on {S : Session Unit α} {S' : Session L α} {l : L} (k : K) (h : (S.on l).Step H' cap S')
    (hH : ∀ c, ∃ a k', H k c a k') : ∃ S', (S.on k).Step H cap S' := by
  cases h with
  | fwrite hc => exact ⟨_, .fwrite hc⟩
  | fflush hc ho => exact ⟨_, .fflush hc ho⟩
  | fread hc hle => exact ⟨_, .fread hc hle⟩
  | @cut _ _ _ a _ _ hc hs hne => exact ⟨_, .cut (a := a) hc hs hne⟩
  | drain ho hne hcap => exact ⟨_, .drain ho hne hcap⟩
  | fetch hc hlt hd hne => exact ⟨_, .fetch hc hlt hd hne⟩
  | server h =>
    cases h with
    | receive hs hu hne hle => exact ⟨_, .server (.receive hs hu hne hle)⟩
    | hangup hs hc ho hu => exact ⟨_, .server (.hangup hs hc ho hu)⟩
    | send hs hpos hle hcap => exact ⟨_, .server (.send hs hpos hle hcap)⟩
    | next hs => exact ⟨_, .server (.next hs)⟩
    | @op e r ks a k' hs hserve =>
      cases r with
      | uninit => exact ⟨_, .server (.op (r := .uninit) (a := a) hs rfl)⟩
      | host c =>
        obtain ⟨a', k₁, ha⟩ := hH c
        exact ⟨_, .server (.op (r := .host c) hs ha)⟩

end

/-- How the sessions see the host `H`, each in its own way. -/
structure Views (ι K L : Type) [DecidableEq ι] (H : K → (c : HostCall) → c.Ans → K → Prop) where
  /-- A call of a session, on its view. -/
  call : ι → L → (c : HostCall) → c.Ans → L → Prop
  /-- What the sessions see of a host. -/
  sees : K → (ι → L) → Prop
  /-- The calls a session may make. -/
  may : ι → L → HostCall → Prop
  step : ∀ {k l i c a k'}, sees k l → may i (l i) c → H k c a k' →
    ∃ l', call i (l i) c a l' ∧ sees k' (Function.update l i l')

namespace Views

variable [DecidableEq ι] {H : K → (c : HostCall) → c.Ans → K → Prop} (V : Views ι K L H) {p : ι → Act σ Req.Resp α}
  {errno : ι → Int} {host : K} {l₀ : ι → L} {C C' : Network ι K (σ × Outcome α)} {i : ι}

/-- A request that can be sent, and whose responder makes such calls. -/
def Allows (i : ι) (w : Peer L) (r : Req) : Prop :=
  r.Sendable ∧ (respond nfsRoot (r.msg w.msgId) w.errno).Issues (HostServe (V.call i))
    (fun l q => ∀ c, q = .host c → V.may i l c) w.host

/-- The programs make such requests only. -/
def Keep (p : ι → Act σ Req.Resp α) (errno : ι → Int) (l₀ : ι → L) : Prop :=
  ∀ i, (p i).Issues (Peer.Serve (V.call i)) (V.Allows i) ⟨0, errno i, l₀ i⟩

/-- Each session has come to where it is over its view of the host. -/
def Split (cap : Nat) (p : ι → Act σ Req.Resp α) (errno : ι → Int) (l₀ : ι → L) (C : Network ι K (σ × Outcome α))
    (l : ι → L) : Prop :=
  V.sees C.host l ∧ ∀ i, (Session.start (p i) (errno i) (l₀ i)).Reach (V.call i) cap ((C.sessions i).on (l i))

variable {V}

theorem Keep.sends (hp : V.Keep p errno l₀) (i : ι) :
    (p i).Issues (Peer.Serve (V.call i)) (fun _ => Req.Sendable) ⟨0, errno i, l₀ i⟩ := (hp i).mono And.left

theorem Split.phase {l : ι → L} (h : V.Split cap p errno l₀ C l) (hp : V.Keep p errno l₀) (i : ι) :
    ((C.sessions i).on (l i)).Phase (V.call i) (p i) ⟨0, errno i, l₀ i⟩ := (h.2 i).phase (hp.sends i)

/-- Every call that is about to be made is one that may be made. -/
theorem Split.may {l : ι → L} {e : Int} {c : HostCall} {ks : c.Ans → Act Int ConnReq.Ans Unit}
    (h : V.Split cap p errno l₀ C l) (hp : V.Keep p errno l₀)
    (hs : (C.sessions i).server = .ask e (.op (.host c)) ks) : V.may i (l i) c := by
  obtain ⟨s, r, k, w, e', kb, goes, runs⟩ := (h.phase hp i).calls hs
  exact (runs.issues (goes.issues (hp i)).1.2).1 c rfl

/-- **One step** of a session is one over its view, and leaves the others theirs. -/
theorem Split.step {l : ι → L} (h : V.Split cap p errno l₀ C l) (hp : V.Keep p errno l₀) (hs : C.Step H cap i C') :
    (∃ l', V.Split cap p errno l₀ C' l') ∧ Session.Below (C'.sessions i).rank (C.sessions i).rank ∧
      ∀ j, j ≠ i → C'.sessions j = C.sessions j := by
  obtain ⟨S', hs, rfl⟩ := hs
  have hon : ∃ l', ((C.sessions i).on (l i)).Step (V.call i) cap (S'.on l') ∧
      V.sees S'.host (Function.update l i l') :=
    hs.on (Q := fun l' k' => V.sees k' (Function.update l i l')) (by rw [Function.update_eq_self]; exact h.1)
      fun hs hc => V.step h.1 (h.may hp hs) hc
  obtain ⟨l', hstep, hsees⟩ := hon
  refine ⟨⟨Function.update l i l', hsees, fun j => ?_⟩, ?_, fun j hj => Function.update_of_ne hj _ _⟩
  · by_cases hj : j = i
    · subst hj
      show Session.Reach _ _ _ ((Function.update C.sessions j (S'.on ()) j).on _)
      rw [Function.update_self, Function.update_self]
      exact (h.2 j).step hstep
    · show Session.Reach _ _ _ ((Function.update C.sessions i (S'.on ()) j).on _)
      rw [Function.update_of_ne hj, Function.update_of_ne hj]
      exact h.2 j
  · show Session.Below (Function.update C.sessions i (S'.on ()) i).rank _
    rw [Function.update_self]
    exact (h.phase hp i).step_below hstep

/-- **Each session of many** is a session over its view of the host. -/
theorem split (h₀ : V.sees host l₀) (hp : V.Keep p errno l₀) (h : (Network.start p errno host).Reach H cap C) :
    ∃ l, V.Split cap p errno l₀ C l := by
  induction h with
  | start => exact ⟨l₀, h₀, fun i => .start⟩
  | step _ hs ih =>
    obtain ⟨l, hl⟩ := ih
    exact (hl.step hp hs).1

/-- Finitely many make finitely many steps. -/
theorem acc [Finite ι] (h₀ : V.sees host l₀) (hp : V.Keep p errno l₀)
    (h : (Network.start p errno host).Reach H cap C) : Acc (fun C₂ C₁ => ∃ i, C₁.Step H cap i C₂) C := by
  refine acc_of_measure (wf_componentwise Session.below_wf) (fun C i => (C.sessions i).rank) ?_ h
  intro C C' h hs
  obtain ⟨i, hs⟩ := hs
  obtain ⟨l, hl⟩ := split h₀ hp h
  obtain ⟨-, hbelow, hother⟩ := hl.step hp hs
  exact ⟨.step h hs, i, hbelow, fun j hj => by rw [hother j hj]⟩

end Views

/-! ## The host moves in the meantime -/

section
variable [DecidableEq ι] {H : K → (c : HostCall) → c.Ans → K → Prop} {p : ι → Act σ Req.Resp α} {errno : ι → Int}
  {host : K} {C : Network ι K (σ × Outcome α)}

/-- What a host can become. -/
def Moves (H : K → (c : HostCall) → c.Ans → K → Prop) : K → K → Prop :=
  Relation.ReflTransGen fun k k' => ∃ c a, H k c a k'

/-- A call, after calls of the others. -/
def Meanwhile (H : K → (c : HostCall) → c.Ans → K → Prop) (k : K) (c : HostCall) (a : c.Ans) (k' : K) : Prop :=
  ∃ k₁, Moves H k k₁ ∧ H k₁ c a k'

/-- A session sees the host as it was after its last call. -/
def Views.meanwhile (H : K → (c : HostCall) → c.Ans → K → Prop) : Views ι K K H where
  call _ := Meanwhile H
  sees k l := ∀ i, Moves H (l i) k
  may _ _ _ := True
  step {k l i c a k'} hl _ hc := by
    refine ⟨k', ⟨k, hl i, hc⟩, fun j => ?_⟩
    by_cases hj : j = i
    · rw [hj, Function.update_self]
      exact .refl
    · rw [Function.update_of_ne hj]
      exact (hl j).tail ⟨c, a, hc⟩

theorem Views.keep_meanwhile
    (hp : ∀ i, (p i).Issues (Peer.Serve (Meanwhile H)) (fun _ => Req.Sendable) ⟨0, errno i, host⟩) :
    (Views.meanwhile H).Keep p errno fun _ => host :=
  fun i => (hp i).mono fun hr => ⟨hr, .of_forall fun _ _ _ _ => trivial⟩

/-- Either some session can go on, or all are at their end. -/
theorem Network.Reach.progress
    (hp : ∀ i, (p i).Issues (Peer.Serve (Meanwhile H)) (fun _ => Req.Sendable) ⟨0, errno i, host⟩) (hcap : 0 < cap)
    (hH : ∀ k c, ∃ a k', H k c a k') (h : (Network.start p errno host).Reach H cap C) (i : ι) :
    (∃ C', C.Step H cap i C') ∨
      (∃ t o, (C.sessions i).client = .done t o) ∧ ∃ e, (C.sessions i).server = .done e (.err clientClosed) := by
  obtain ⟨l, hl⟩ := Views.split (V := Views.meanwhile H) (fun _ => .refl) (Views.keep_meanwhile hp) h
  have hany : ∀ k c, ∃ a k', Meanwhile H k c a k' := by
    intro k c
    obtain ⟨a, k', hc⟩ := hH k c
    exact ⟨a, k', k, .refl, hc⟩
  obtain ⟨S', hs⟩ | hend := ((hl.2 i).phase (hp i)).progress (hp i) hcap hany
  · obtain ⟨S'', hs'⟩ := hs.exists_on C.host (hH C.host)
    exact .inl ⟨_, S'', hs', rfl⟩
  · exact .inr hend

end

/-! ## Two requests for attributes, at the same time -/

section
variable {I : K → Prop} {answer : K → (c : HostCall) → Option (c.Ans × K)} {H : K → (c : HostCall) → c.Ans → K → Prop}
  [DecidableEq ι]

/-- The next steps are those of the sessions in the list, as far as they have
any. -/
def Network.after (answer : K → (c : HostCall) → Option (c.Ans × K)) (cap : Nat) :
    List ι → Network ι K α → Network ι K α
  | [], C => C
  | i :: is, C => match ((C.sessions i).on C.host).next answer cap with
    | some S' => Network.after answer cap is ⟨S'.host, Function.update C.sessions i (S'.on ())⟩
    | none => Network.after answer cap is C

theorem Network.reach_after (hH : ∀ {k c r}, I k → answer k c = some r → H k c r.1 r.2 ∧ I r.2) (C₀ : Network ι K α) :
    ∀ (is : List ι) {C : Network ι K α}, I C.host → C₀.Reach H cap C → C₀.Reach H cap (C.after answer cap is)
  | [], _, _, h => h
  | i :: is, C, hI, h => by
    rw [Network.after]
    split
    · rename_i S' hnext
      obtain ⟨hs, hI'⟩ := Session.step_next hH hI hnext
      exact Network.reach_after hH C₀ is hI' (.step h ⟨S', hs, rfl⟩)
    · exact Network.reach_after hH C₀ is hI h

end

def twoStats : Network Bool (Option UInt8) (NetFS × Outcome FileAttr) :=
  .start (fun _ => NetFS.stat [102] .new) (fun _ => 0) none

/-- In turn, step by step. -/
def inTurn (n : Nat) : List Bool := (List.replicate n [true, false]).flatten

theorem twoStats_reach (n : Nat) :
    twoStats.Reach FullDisk 64 (twoStats.after (fun k c => some (fullDisk k c)) 64 (inTurn n)) := by
  refine Network.reach_after (I := fun _ => True) ?_ _ (inTurn n) trivial .start
  intro k c r _ h
  cases h
  exact ⟨rfl, trivial⟩

/-! ## Results -/

section
variable [DecidableEq ι] {H : K → (c : HostCall) → c.Ans → K → Prop} {p : ι → Act σ Req.Resp α} {errno : ι → Int}
  {host : K} {C : Network ι K (σ × Outcome α)}

/-- **All of them end.** Finitely many clients make finitely many steps, and if
there is none left to be made, every client has ended, and every thread of
the server with it. -/
theorem network_completes [Finite ι]
    (hp : ∀ i, (p i).Issues (Peer.Serve (Meanwhile H)) (fun _ => Req.Sendable) ⟨0, errno i, host⟩) (hcap : 0 < cap)
    (hH : ∀ k c, ∃ a k', H k c a k') (h : (Network.start p errno host).Reach H cap C) :
    Acc (fun C₂ C₁ => ∃ i, C₁.Step H cap i C₂) C ∧ ((∀ i C', ¬ C.Step H cap i C') → ∀ i,
      (∃ t o, (C.sessions i).client = .done t o) ∧ ∃ e, (C.sessions i).server = .done e (.err clientClosed)) := by
  refine ⟨Views.acc (V := Views.meanwhile H) (fun _ => .refl) (Views.keep_meanwhile hp) h, fun hstuck i => ?_⟩
  obtain ⟨C', hs⟩ | hend := h.progress hp hcap hH i
  · exact absurd hs (hstuck i C')
  · exact hend

/-- Also with sockets that hold a single byte. -/
theorem network_completes_stats : Acc (fun C₂ C₁ => ∃ i, C₁.Step FullDisk 1 i C₂) twoStats :=
  (network_completes (fun _ => stat_sends) Nat.one_pos (fun k c => ⟨(fullDisk k c).1, (fullDisk k c).2, rfl⟩)
    .start).1

end

end Nfs
