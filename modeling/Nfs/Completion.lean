/-
What a session comes to.

No step is lost to waiting for each other: as long as one of the two has not
ended, some step is possible, even when the socket holds a single byte
(`Session.Phase.progress`). And no run goes on for ever, which is seen from
what is left of the client's program, then from the bytes on their way to
the server, then from the server (`Session.rank`).

So neither end ever fails a check or gets an exception, what the client ends
up with is what it would have got from the responders directly, each of them
having run once for each request, in order, and it does end up with it.
-/
import Nfs.Lockstep

namespace Nfs

open PlainFile Resume Codec

-- As in `Nfs.Connection`.
seal toInt

variable {K σ α : Type} {H : K → (c : HostCall) → c.Ans → K → Prop} {cap : Nat}
variable {p₀ : Act σ Req.Resp α} {w₀ : Peer K} {S S' : Session K (σ × Outcome α)} {r : Req}
  {k : r.Resp → Act σ Req.Resp α} {w : Peer K}

/-! ## Some step is possible -/

/-- Bytes on their way to the server go on. -/
theorem Hearing.moves {e : Int} {m : Msg} {u : Bytes} (h : Hearing S.server e m u) (hcap : 0 < cap)
    (hne : S.up ++ S.outbox ≠ []) : ∃ S', S.Step H cap S' := by
  by_cases hup : S.up = []
  · have hout : S.outbox ≠ [] := by simpa [hup] using hne
    refine ⟨_, .drain (b := S.outbox.take 1) (List.take_append_drop 1 S.outbox).symm (by simpa using hout) ?_⟩
    rw [hup, List.length_take, List.length_nil]
    omega
  · obtain ⟨hs, -⟩ | ⟨t, q, ks, hs, ⟨a, _, ha⟩, -⟩ := h
    · exact ⟨_, .server (.next hs)⟩
    · cases q with
      | receiveBytes n =>
        obtain ⟨hane, han, -⟩ := ha
        have hn : 0 < n := Nat.lt_of_lt_of_le (List.length_pos_of_ne_nil hane) han
        refine ⟨_, .server (.receive hs (List.take_append_drop 1 S.up).symm (by simpa using hup) ?_)⟩
        rw [List.length_take]
        omega
      | sendBytes _ => exact ha.elim
      | op _ => exact ha.elim

theorem progress_asking {x : Act Int32 IoReq.Ans Unit} {u : Bytes} {id : Int32} {e : Int} (hcap : 0 < cap)
    (client : S.client = (x.bind fun _ => Wire.receive r id).bind (resume k))
    (puts : x.Must Puts (Returns fun _ t u' => t = id + 1 ∧ u' = []) u)
    (server : Hearing S.server e (r.msg id) (S.up ++ S.outbox ++ u)) : ∃ S', S.Step H cap S' := by
  by_cases hne : S.up ++ S.outbox = []
  · obtain ⟨hup, hout⟩ := List.append_eq_nil_iff.mp hne
    cases x with
    | done t o =>
      obtain ⟨_, rfl, -, rfl⟩ := Returns.ok puts
      rw [hne] at server
      obtain ⟨hs, -⟩ | ⟨_, q, _, -, ⟨_, _, ha⟩, -⟩ := server
      · exact ⟨_, .server (.next hs)⟩
      · -- It cannot wait for what has been received already.
        cases q with
        | receiveBytes n => exact absurd (List.append_eq_nil_iff.mp ha.2.2.symm).1 ha.1
        | sendBytes _ => exact ha.elim
        | op _ => exact ha.elim
    | ask t q kx =>
      cases q with
      | fwrite buf => exact ⟨_, .fwrite client⟩
      | fflush => exact ⟨_, .fflush client hout⟩
      | fread f =>
        obtain ⟨⟨_, _, ha⟩, -⟩ := puts
        exact ha.elim
  · exact server.moves hcap hne

theorem progress_answering {t : Int32} {e : Int} {q : IoReq} {kx : q.Ans → Act Int32 IoReq.Ans r.Resp}
    {R : r.Resp → Int32 → Bytes → Prop} {g l : Bytes} (hcap : 0 < cap)
    (client : S.client = (Act.ask t q kx).bind (resume k)) (gets : (Act.ask t q kx).Must Gets (Returns R) l)
    (server : Saying S.server e (g ++ l) (g ++ S.inbox ++ S.down)) (outbox : S.outbox = []) :
    ∃ S', S.Step H cap S' := by
  cases q with
  | fwrite buf => exact ⟨_, .fwrite client⟩
  | fflush => exact ⟨_, .fflush client outbox⟩
  | fread f =>
    by_cases hle : f.size ≤ S.inbox.length
    · exact ⟨_, .fread client hle⟩
    by_cases hd : S.down = []
    · obtain ⟨-, hall⟩ | hm := server
      · -- It cannot wait for more than the response.
        obtain ⟨⟨_, _, hl, -⟩, -⟩ := gets
        rw [hd, List.append_nil, List.append_cancel_left_eq] at hall
        exact absurd (hall ▸ hl) hle
      · cases hs : S.server with
        | done e' o =>
          rw [hs] at hm
          obtain ⟨_, rfl, -⟩ := Returns.ok hm
          exact ⟨_, .server (.next hs)⟩
        | ask e' q ks =>
          rw [hs] at hm
          obtain ⟨⟨n, _, ha⟩, -⟩ := hm
          cases q with
          | sendBytes buf =>
            obtain ⟨h0, hn, -⟩ := ha
            have hlen : (0 : Int) < buf.length := lt_of_lt_of_le h0 hn
            refine ⟨_, .server (.send (n := 1) hs Nat.one_pos (by omega) ?_)⟩
            rw [hd, List.length_nil]
            omega
          | receiveBytes _ => exact ha.elim
          | op _ => exact ha.elim
    · exact ⟨_, .fetch client (by omega) (List.append_nil S.down).symm hd⟩

/-- **There is no deadlock.** -/
theorem Session.Phase.progress (hp₀ : p₀.Issues (Peer.Serve H) (fun _ => Req.Sendable) w₀) (hcap : 0 < cap)
    (hH : ∀ k c, ∃ a k', H k c a k') (h : S.Phase H p₀ w₀) :
    (∃ S', S.Step H cap S') ∨ (∃ t o, S.client = .done t o) ∧ ∃ e, S.server = .done e (.err clientClosed) := by
  cases h with
  | rest goes client server host outbox up down inbox =>
    obtain ⟨o, hend, -⟩ | ⟨s, r, k, -, -, x, hc, puts, hears⟩ :=
      Session.Phase.rest_cases (goes.issues hp₀) client server outbox up
    · obtain hs | hs := server
      · obtain ⟨kw, hwait⟩ := serveOne_receives (e := (_ : Int))
        rw [hwait] at hs
        exact .inl ⟨_, .server (.hangup hs hend outbox up)⟩
      · exact .inl ⟨_, .server (.next hs)⟩
    · exact .inl (progress_asking hcap hc puts hears)
  | asking _ client puts server _ _ _ => exact .inl (progress_asking hcap client puts server)
  | @responding _ _ _ _ _ _ q _ _ _ _ server _ _ _ _ _ _ =>
    cases q with
    | host c =>
      obtain ⟨a, h', ha⟩ := hH S.host c
      exact .inl ⟨_, .server (.op server ha)⟩
    | uninit =>
      let any : Uninit := ⟨.epoch, .epoch, .epoch, ⟨0, 0, .epoch⟩, ⟨0, 0, 0, 0, 0, 0, 0, 0⟩⟩
      exact .inl ⟨_, .server (.op (a := any) server rfl)⟩
  | answering _ _ client gets server _ outbox _ => exact .inl (progress_answering hcap client gets server outbox)
  | closed _ _ ended server _ _ _ _ _ => exact .inr ⟨⟨_, _, ended⟩, _, server⟩

/-! ## Every run ends -/

/-- Whether the server has something to do before it receives. -/
def busy : Act Int ConnReq.Ans Unit → Nat
  | .ask _ (.receiveBytes _) _ => 0
  | .ask _ (.sendBytes _) _ => 1
  | .ask _ (.op _) _ => 1
  | .done _ (.ok _) => 1
  | .done _ (.err _) => 0
  | .done _ .fault => 0

theorem busy_le : ∀ x : Act Int ConnReq.Ans Unit, busy x ≤ 1
  | .ask _ (.receiveBytes _) _ => Nat.zero_le _
  | .ask _ (.sendBytes _) _ => le_rfl
  | .ask _ (.op _) _ => le_rfl
  | .done _ (.ok _) => le_rfl
  | .done _ (.err _) => Nat.zero_le _
  | .done _ .fault => Nat.zero_le _

/-- What a step makes smaller, the first of these that it changes at all. -/
def Session.rank (S : Session K α) :
    Act Int32 IoReq.Ans α × Nat × Nat × Act Int ConnReq.Ans Unit × Nat :=
  (S.client, S.outbox.length + S.up.length, busy S.server, S.server, S.outbox.length + S.down.length)

def Session.Below :
    Act Int32 IoReq.Ans α × Nat × Nat × Act Int ConnReq.Ans Unit × Nat →
      Act Int32 IoReq.Ans α × Nat × Nat × Act Int ConnReq.Ans Unit × Nat → Prop :=
  Prod.Lex Act.Rest (Prod.Lex (· < ·) (Prod.Lex (· < ·) (Prod.Lex Act.Rest (· < ·))))

theorem Session.below_wf : WellFounded (@Session.Below α) :=
  Act.rest_wf.prod_lex (Nat.lt_wfRel.wf.prod_lex (Nat.lt_wfRel.wf.prod_lex (Act.rest_wf.prod_lex Nat.lt_wfRel.wf)))

section
variable {S S' : Session K α}

theorem below_of_client {t : Int32} {q : IoReq} {kc : q.Ans → Act Int32 IoReq.Ans α} {a : q.Ans}
    (h : S.client = .ask t q kc) (h' : S'.client = kc a) : Session.Below S'.rank S.rank := by
  refine .left _ _ ?_
  rw [h, h']
  exact .mk ..

/-- The server goes on, being busy. -/
theorem below_of_busy {e : Int} {q : ConnReq} {ks : q.Ans → Act Int ConnReq.Ans Unit} {a : q.Ans} {host : K}
    {down : Bytes} (h : S.server = .ask e q ks) (hb : busy (.ask e q ks) = 1) :
    Session.Below { S with server := ks a, host := host, down := down }.rank S.rank := by
  refine .right _ (.right _ ?_)
  rw [h, hb]
  obtain hlt | heq := Nat.lt_or_eq_of_le (busy_le (ks a))
  · exact .left _ _ hlt
  · show Prod.Lex _ _ (busy (ks a), _) _
    rw [heq]
    exact .right _ (.left _ _ (.mk ..))

end

/-- Every step is one down. -/
theorem Session.Phase.step_below (hS : S.Phase H p₀ w₀) (h : S.Step H cap S') : Session.Below S'.rank S.rank := by
  cases h with
  | fwrite hc => exact below_of_client hc rfl
  | fflush hc _ => exact below_of_client hc rfl
  | fread hc _ => exact below_of_client hc rfl
  | cut hc _ _ => exact below_of_client hc rfl
  | @drain b rest ho hne _ =>
    have hb := List.length_pos_of_ne_nil hne
    have hsum : rest.length + (S.up ++ b).length = S.outbox.length + S.up.length := by
      rw [ho, List.length_append, List.length_append]
      omega
    refine .right _ ?_
    show Prod.Lex _ _ (rest.length + (S.up ++ b).length, _) _
    rw [hsum]
    refine .right _ (.right _ (.right _ ?_))
    show rest.length + S.down.length < _
    rw [ho, List.length_append]
    omega
  | @fetch _ _ _ b rest _ _ hd hne =>
    have hb := List.length_pos_of_ne_nil hne
    refine .right _ (.right _ (.right _ (.right _ ?_)))
    show S.outbox.length + rest.length < S.outbox.length + S.down.length
    rw [hd, List.length_append]
    omega
  | server h =>
    cases h with
    | @receive _ _ _ chunk rest hs hu hne _ =>
      have hb := List.length_pos_of_ne_nil hne
      refine .right _ (.left _ _ ?_)
      show S.outbox.length + rest.length < S.outbox.length + S.up.length
      rw [hu, List.length_append]
      omega
    | @hangup e n ks _ _ hs hc _ _ =>
      obtain ⟨p, w, -, -, hserver, -⟩ := hS.ended hc
      obtain ⟨kw, hwait, hclosed⟩ := serveOne_waits (e := w.errno)
      rw [serveOne_eq, hwait] at hserver
      obtain hs' | hs' | hs' := hserver
      · rw [hs] at hs'
        cases hs'
        refine .right _ (.right _ ?_)
        show Prod.Lex _ _ (busy ((kw []).bind respondTo), (kw []).bind respondTo, _) (busy S.server, S.server, _)
        rw [hs, hclosed]
        refine .right _ (.left _ _ ?_)
        rw [← hclosed]
        exact .mk w.errno (.receiveBytes 4) (fun a => (kw a).bind respondTo) []
      · rw [hs] at hs'
        cases hs'
      · rw [hs] at hs'
        cases hs'
    | send hs _ _ _ => exact below_of_busy hs rfl
    | op hs _ => exact below_of_busy hs rfl
    | next hs =>
      obtain ⟨kw, hwait⟩ := serveOne_receives (e := (_ : Int))
      refine .right _ (.right _ (.left _ _ ?_))
      rw [hs]
      show busy (serveOne _) < 1
      rw [hwait]
      exact Nat.one_pos

variable {p : Act σ Req.Resp α} {errno : Int} {host : K}

theorem Session.Reach.acc (hp : p.Issues (Peer.Serve H) (fun _ => Req.Sendable) ⟨0, errno, host⟩)
    (h : (Session.start p errno host).Reach H cap S) : Acc (fun S₂ S₁ => S₁.Step H cap S₂) S :=
  acc_of_measure Session.below_wf Session.rank (fun hS hs => ⟨hS.step hp hs, hS.step_below hs⟩) (h.phase hp)

/-- The client gets no exception and fails no check, except that it has no id
left in the end. -/
theorem Session.Reach.outcome {t : Int32} {o : Outcome (σ × Outcome α)}
    (hp : p.Issues (Peer.Serve H) (fun _ => Req.Sendable) ⟨0, errno, host⟩)
    (h : (Session.start p errno host).Reach H cap S) (hc : S.client = .done t o) :
    (∃ a, o = .ok a) ∨ o = .fault ∧ t.toInt = 2 ^ 31 - 1 := by
  obtain ⟨q, w, -, hvia, -⟩ := (h.phase hp).ended hc
  obtain ⟨rfl, ⟨s, o', -, rfl⟩ | hspent⟩ := via_done hvia
  · exact .inl ⟨_, rfl⟩
  · exact .inr hspent

/-- What the client ends up with, it has from the responders. -/
theorem Session.Reach.exec {t : Int32} {s : σ} {o : Outcome α}
    (hp : p.Issues (Peer.Serve H) (fun _ => Req.Sendable) ⟨0, errno, host⟩)
    (h : (Session.start p errno host).Reach H cap S) (hc : S.client = .done t (.ok (s, o))) :
    ∃ e, Exec (Peer.Serve H) p ⟨0, errno, host⟩ s o ⟨t, e, S.host⟩ := by
  obtain ⟨q, w, goes, hvia, -, hhost, -⟩ := (h.phase hp).ended hc
  obtain ⟨rfl, ⟨s', o', rfl, ho⟩ | ⟨ho, -⟩⟩ := via_done hvia
  · cases ho
    exact ⟨w.errno, hhost ▸ goes.exec (.done ..)⟩
  · cases ho

/-! ## A request for attributes, to a disk without space -/

/-- The session, after so many steps. -/
def statSession (n : Nat) : Session (Option UInt8) (NetFS × Outcome FileAttr) :=
  (Session.start (NetFS.stat [102] .new) 0 none).after (fun k c => some (fullDisk k c)) 64 n

theorem statSession_reach (n : Nat) :
    (Session.start (NetFS.stat [102] .new) 0 none).Reach FullDisk 64 (statSession n) := by
  refine Session.reach_after (I := fun _ => True) ?_ _ n trivial .start
  intro k c r _ h
  cases h
  exact ⟨rfl, trivial⟩

theorem stat_sends {w : Peer K} : (NetFS.stat [102] .new).Issues (Peer.Serve H) (fun _ => Req.Sendable) w := by
  refine ⟨show 1 < 2 ^ 31 by decide, fun a w' _ => ?_⟩
  show Act.Issues _ _ ((if _ then _ else _ : NetFSM FileAttr) _) _
  split <;> trivial

/-! ## Results -/

/-- **Neither end fails.** The client gets no exception and fails no check,
except that it has no id left after 2³¹ - 1 requests; the server's loop only
ends when the client has closed; and there are never bytes on the way in
both directions. -/
theorem session_safe (hp : p.Issues (Peer.Serve H) (fun _ => Req.Sendable) ⟨0, errno, host⟩)
    (h : (Session.start p errno host).Reach H cap S) :
    (∀ t o, S.client = .done t o → (∃ a, o = .ok a) ∨ o = .fault ∧ t.toInt = 2 ^ 31 - 1) ∧
      (∀ e o, S.server = .done e o → o = .ok () ∨ o = .err clientClosed ∧ ∃ t o', S.client = .done t o') ∧
        (S.outbox ++ S.up = [] ∨ S.down ++ S.inbox = []) := by
  have hS := h.phase hp
  exact ⟨fun t o hc => h.outcome hp hc, fun e o hs => hS.server_ended hs, hS.halfDuplex⟩

/-- The client has written its request, and the server is about to receive it. -/
theorem session_safe_stat : (statSession 8).up ≠ [] ∧
    ((statSession 8).outbox ++ (statSession 8).up = [] ∨ (statSession 8).down ++ (statSession 8).inbox = []) :=
  ⟨by decide +kernel, (session_safe stat_sends (statSession_reach 8)).2.2⟩

/-- **The client's results are those of the responders.** When the client has
ended, its requests have been carried out one after the other, each by one
run of its responder whose response it has got, and nothing is left on the
way. -/
theorem session_refines {t : Int32} {s : σ} {o : Outcome α}
    (hp : p.Issues (Peer.Serve H) (fun _ => Req.Sendable) ⟨0, errno, host⟩)
    (h : (Session.start p errno host).Reach H cap S) (hc : S.client = .done t (.ok (s, o))) :
    ∃ e, Exec (Peer.Serve H) p ⟨0, errno, host⟩ s o ⟨t, e, S.host⟩ ∧
      S.outbox = [] ∧ S.up = [] ∧ S.down = [] ∧ S.inbox = [] := by
  obtain ⟨e, hx⟩ := h.exec hp hc
  obtain ⟨-, -, -, -, -, -, hempty⟩ := (h.phase hp).ended hc
  exact ⟨e, hx, hempty⟩

/-- The client gets the attributes. -/
theorem session_refines_stat : ∃ t s e, (statSession 200).client = .done t (.ok (s, .ok ⟨0, 0, .epoch⟩)) ∧
    Exec (Peer.Serve FullDisk) (NetFS.stat [102] .new) ⟨0, 0, none⟩ s (.ok ⟨0, 0, .epoch⟩)
      ⟨t, e, (statSession 200).host⟩ := by
  obtain ⟨t, s, hc⟩ := Session.client_of_returned (S := statSession 200) (o := .ok ⟨0, 0, .epoch⟩) (by decide +kernel)
  obtain ⟨e, hx, -⟩ := session_refines stat_sends (statSession_reach 200) hc
  exact ⟨t, s, e, hc, hx⟩

/-- **Every run ends, with everything done.** However little the socket
holds, a session in which no step is left to be made is one whose client has
ended, and whose server has noticed. -/
theorem session_completes (hp : p.Issues (Peer.Serve H) (fun _ => Req.Sendable) ⟨0, errno, host⟩) (hcap : 0 < cap)
    (hH : ∀ k c, ∃ a k', H k c a k') (h : (Session.start p errno host).Reach H cap S) :
    Acc (fun S₂ S₁ => S₁.Step H cap S₂) S ∧ ((∀ S', ¬ S.Step H cap S') →
      (∃ t o, S.client = .done t o) ∧ ∃ e, S.server = .done e (.err clientClosed)) := by
  refine ⟨h.acc hp, fun hstuck => ?_⟩
  obtain ⟨S', hs⟩ | hend := (h.phase hp).progress hp hcap hH
  · exact absurd hs (hstuck S')
  · exact hend

/-- Also with a socket that holds a single byte. -/
theorem session_completes_stat :
    Acc (fun S₂ S₁ => S₁.Step FullDisk 1 S₂) (Session.start (NetFS.stat [102] .new) 0 none) :=
  (session_completes stat_sends Nat.one_pos (fun k c => ⟨(fullDisk k c).1, (fullDisk k c).2, rfl⟩) .start).1

end Nfs
