/-
The two ends of a connection keep in step: every step of a session leads
from one of its phases to the next (`Session.Phase.step`), whatever the
socket does with the bytes. So every state of a run is in one of the phases
(`Session.Reach.phase`).
-/
import Nfs.Session

namespace Nfs

open PlainFile Resume Codec

-- As in `Nfs.Connection`.
seal toInt

variable {K σ α : Type} {H : K → (c : HostCall) → c.Ans → K → Prop} {cap : Nat}
variable {p₀ : Act σ Req.Resp α} {w₀ : Peer K} {S S' : Session K (σ × Outcome α)} {s : σ} {r : Req}
  {k : r.Resp → Act σ Req.Resp α} {w : Peer K}

theorem says_within {y : Act Int ConnReq.Ans Unit} {e : Int} {enc said : Bytes}
    (h : y.Must Says (Returns fun _ e' u => e' = e ∧ u = enc) said) : said <+: enc := by
  induction y generalizing said with
  | done e' o =>
    cases o with
    | ok _ => exact h.2 ▸ List.prefix_rfl
    | err _ => exact h.elim
    | fault => exact h.elim
  | ask e' q ky ih =>
    obtain ⟨⟨a, u, hs⟩, hall⟩ := h
    cases q with
    | sendBytes buf => exact (hs.2.2 ▸ List.prefix_append ..).trans (ih a (hall a u hs))
    | receiveBytes n => exact hs.elim
    | op c => exact hs.elim

theorem Saying.within {server : Act Int ConnReq.Ans Unit} {e : Int} {enc said : Bytes} (h : Saying server e enc said) :
    said <+: enc := by
  obtain ⟨-, rfl⟩ | h := h
  · exact List.prefix_rfl
  · exact says_within h

/-- Everything is said. -/
theorem Saying.all {server : Act Int ConnReq.Ans Unit} {e : Int} {enc : Bytes} (h : Saying server e enc enc) :
    server = serveOne e ∨ server = .done e (.ok ()) := by
  obtain ⟨h, -⟩ | h := h
  · exact .inl h
  · cases server with
    | done e' o =>
      cases o with
      | ok _ => exact .inr (h.1 ▸ rfl)
      | err _ => exact h.elim
      | fault => exact h.elim
    | ask e' q ky =>
      exfalso
      obtain ⟨⟨a, u, hs⟩, hall⟩ := h
      cases q with
      | sendBytes buf =>
        -- One more byte would be too many.
        have hlen := (says_within (hall a u hs)).length_le
        obtain ⟨h0, hle, rfl⟩ := hs
        obtain ⟨n, rfl⟩ := Int.eq_ofNat_of_zero_le (Int.le_of_lt h0)
        replace h0 : (0 : Int) < n := h0
        replace hle : (n : Int) ≤ buf.length := hle
        rw [List.length_append, List.length_take, Int.toNat_natCast] at hlen
        omega
      | receiveBytes n => exact hs
      | op c => exact hs

/-- The flush comes, and then the response. -/
theorem flush_must {x : Act Int32 IoReq.Ans Unit} {t : Int32} {f : Unit → WireM r.Resp}
    {Q : Int32 → Bytes → Outcome r.Resp → Prop} {enc : Bytes}
    (h : x.Must Puts (Returns fun _ t' u => t' = t ∧ u = []) []) (hf : (f () t).Must Gets Q enc) :
    (x.bind f).Must Gets Q enc := by
  induction x with
  | done t' o =>
    cases o with
    | ok _ => exact h.1 ▸ hf
    | err _ => exact h.elim
    | fault => exact h.elim
  | ask t' q kx ih =>
    obtain ⟨⟨a, u, hs⟩, hall⟩ := h
    cases q with
    | fwrite buf =>
      have hnil : buf = [] ∧ u = [] := List.append_eq_nil_iff.mp hs.2.symm
      refine ⟨⟨a, enc, hs.1, hnil.1, rfl⟩, fun b u' hb => ?_⟩
      obtain ⟨rfl, hbuf, rfl⟩ := hb
      exact ih _ (hall _ [] ⟨rfl, by simp [hbuf]⟩)
    | fflush =>
      refine ⟨⟨0, enc, rfl, rfl⟩, fun b u' hb => ?_⟩
      obtain ⟨rfl, rfl⟩ := hb
      exact ih _ (hall _ [] ⟨rfl, rfl⟩)
    | fread f => exact hs.elim

theorem Msg.Fits.any {m : Msg} (h : m.Fits narrow) : m.Fits anyLength := by
  cases m with
  | readdirResp => exact ⟨h.1, fun name hn => ⟨(h.2 name hn).1, rfl⟩⟩
  | write => exact ⟨⟨h.1.1, rfl⟩, h.2.1, rfl⟩
  | rename => exact ⟨⟨h.1.1, rfl⟩, h.2.1, rfl⟩
  | access | create | stat | readdir | read | readResp | truncate | unlink | rmdir | mkdir => exact ⟨h.1, rfl⟩
  | _ => trivial

namespace Session.Phase

/-! ### One phase after the other -/

/-- When the client has read the response, both are at rest. -/
theorem answer {v : Peer K} {a : r.Resp} {x : Act Int32 IoReq.Ans r.Resp} (g : Bytes) {l : Bytes}
    (goes : p₀.Goes (Peer.Serve H) w₀ (.ask s r k) w) (served : w.Serve H r a v)
    (client : S.client = x.bind (resume k))
    (gets : x.Must Gets (Returns fun b t u => b = a ∧ t = v.msgId ∧ u = []) l)
    (server : Saying S.server v.errno (g ++ l) (g ++ S.inbox ++ S.down)) (host : S.host = v.host)
    (outbox : S.outbox = []) (up : S.up = []) : S.Phase H p₀ w₀ := by
  cases x with
  | ask t q kx => exact .answering goes served client gets server host outbox up
  | done t o =>
    cases o with
    | ok b =>
      obtain ⟨rfl, rfl, rfl⟩ := gets
      obtain ⟨hin, hdown⟩ : S.inbox = [] ∧ S.down = [] := by
        have hlen := server.within.length_le
        simp only [List.length_append, List.length_nil] at hlen
        exact ⟨List.eq_nil_of_length_eq_zero (by omega), List.eq_nil_of_length_eq_zero (by omega)⟩
      rw [hin, hdown, List.append_nil, List.append_nil] at server
      exact .rest (goes.step served) client server.all host outbox up hdown hin
    | err _ => exact gets.elim
    | fault => exact gets.elim

/-- When the responder has returned, the response is on its way. -/
theorem respond {x : Act Int32 IoReq.Ans Unit} {b : Act Int OpReq.Ans Msg}
    (goes : p₀.Goes (Peer.Serve H) w₀ (.ask s r k) w)
    (client : S.client = (x.bind fun _ => Wire.receive r w.msgId).bind (resume k))
    (puts : x.Must Puts (Returns fun _ t u' => t = w.msgId + 1 ∧ u' = []) [])
    (server : S.server = (b.lift id ConnReq.op fun _ a => a).bind fun m => writeAll (serializeMsg m))
    (yields : b.Yields fun m => m.Fits narrow ∧ r.Accepts w.msgId m)
    (runs : (Nfs.respond nfsRoot (r.msg w.msgId) w.errno).Goes (HostServe H) w.host b S.host)
    (outbox : S.outbox = []) (up : S.up = []) (down : S.down = []) (inbox : S.inbox = []) : S.Phase H p₀ w₀ := by
  cases b with
  | ask e q kb => exact .responding goes client puts server yields runs outbox up down inbox
  | done e o =>
    obtain ⟨m, rfl, hfits, a, ha, hid⟩ := yields
    refine answer (v := ⟨w.msgId + 1, e, S.host⟩) (l := m.encoding) [] goes ⟨rfl, m, runs.exec (.done ..), ha⟩ client
      (flush_must puts ?_) ?_ rfl outbox up
    · exact Wire.receive_must hfits.any ha hid
    · rw [server, down, inbox]
      exact .inr (writeAll_must (hfits.within roomy_narrow))

/-- When the request is received, the responder is at work. -/
theorem hear {x : Act Int32 IoReq.Ans Unit} {u : Bytes} {a : Act Int ConnReq.Ans Msg}
    (hr : r.Sendable) (goes : p₀.Goes (Peer.Serve H) w₀ (.ask s r k) w)
    (client : S.client = (x.bind fun _ => Wire.receive r w.msgId).bind (resume k))
    (puts : x.Must Puts (Returns fun _ t u' => t = w.msgId + 1 ∧ u' = []) u)
    (server : S.server = a.bind respondTo)
    (hears : a.Must Hears (Returns fun b e' u' => b = r.msg w.msgId ∧ e' = w.errno ∧ u' = []) (S.up ++ S.outbox ++ u))
    (host : S.host = w.host) (down : S.down = []) (inbox : S.inbox = []) : S.Phase H p₀ w₀ := by
  cases a with
  | ask e q ka => exact .asking goes client puts (.inr ⟨e, q, ka, server, hears⟩) host down inbox
  | done e o =>
    cases o with
    | ok m =>
      obtain ⟨rfl, rfl, hu⟩ := hears
      obtain ⟨hup, hout, rfl⟩ : S.up = [] ∧ S.outbox = [] ∧ u = [] := by simpa using hu
      have hm : (r.msg w.msgId).Issued ∧ (r.msg w.msgId).Short := hr.short
      have hlim : ∀ n, n < 256 → narrow n := fun n hn => decide_eq_true (by omega)
      have hless : ∀ n ≤ (r.msg w.msgId).asksFor, narrow n := fun n hn =>
        decide_eq_true (Nat.lt_of_le_of_lt hn (of_decide_eq_true hm.2.2))
      refine respond goes client puts server ?_ (host ▸ .refl) hout hup down inbox
      refine (((respond_yields hm.1 hlim hless w.errno).and (respond_accepted hr w.errno))).imp ?_
      exact fun m hm => ⟨hm.1.2, hm.2⟩
    | err _ => exact hears.elim
    | fault => exact hears.elim

/-! ### Steps -/

theorem step_answering {v : Peer K} {a : r.Resp} {t : Int32} {q : IoReq} {kx : q.Ans → Act Int32 IoReq.Ans r.Resp}
    {g l : Bytes} (goes : p₀.Goes (Peer.Serve H) w₀ (.ask s r k) w) (served : w.Serve H r a v)
    (client : S.client = (Act.ask t q kx).bind (resume k))
    (gets : (Act.ask t q kx).Must Gets (Returns fun b t u => b = a ∧ t = v.msgId ∧ u = []) l)
    (server : Saying S.server v.errno (g ++ l) (g ++ S.inbox ++ S.down)) (host : S.host = v.host)
    (outbox : S.outbox = []) (up : S.up = []) (h : S.Step H cap S') : S'.Phase H p₀ w₀ := by
  obtain ⟨kw, hwait⟩ := serveOne_receives (e := v.errno)
  cases h with
  | fwrite hc =>
    rw [client] at hc
    cases hc
    obtain ⟨⟨_, _, hs⟩, hall⟩ := gets
    obtain ⟨-, hnil, -⟩ := hs
    refine answer g goes served rfl (hall _ l ⟨rfl, hnil, rfl⟩) server host ?_ up
    rw [outbox, hnil]
    rfl
  | fflush hc _ =>
    rw [client] at hc
    cases hc
    exact answer g goes served rfl (gets.2 _ l ⟨rfl, rfl⟩) server host outbox up
  | @fread _ f _ hc hle =>
    rw [client] at hc
    cases hc
    -- What is there is the beginning of what is to come.
    obtain ⟨tail, hl⟩ : S.inbox ++ S.down <+: l := by
      have hp := server.within
      rw [List.append_assoc, List.prefix_append_right_inj] at hp
      exact hp
    have htake : l.take f.size = S.inbox.take f.size := by
      rw [← hl, List.append_assoc, List.take_append_of_le_length hle]
    have hle' : f.size ≤ l.length := by
      rw [← hl, List.length_append, List.length_append]
      omega
    refine answer (l := l.drop f.size) (g ++ l.take f.size) goes served rfl
      (gets.2 _ _ ⟨hle', ?_, rfl⟩) ?_ host outbox up
    · rw [htake]
    · have hsaid : g ++ l.take f.size ++ S.inbox.drop f.size = g ++ S.inbox := by
        rw [htake, List.append_assoc, List.take_append_drop]
      show Saying S.server _ _ (g ++ l.take f.size ++ S.inbox.drop f.size ++ S.down)
      rw [hsaid, List.append_assoc, List.take_append_drop]
      exact server
  | cut _ hs ho =>
    obtain ⟨hs', -⟩ | hm := server
    · rw [hs, hwait] at hs'
      cases hs'
    · rw [hs] at hm
      obtain ⟨_, rfl, -⟩ := Returns.ok hm
      exact absurd rfl ho
  | drain ho hb _ =>
    rw [outbox] at ho
    exact absurd (List.append_eq_nil_iff.mp ho.symm).1 hb
  | @fetch _ _ _ b rest hc _ hd _ =>
    refine .answering (g := g) goes served client gets ?_ host outbox up
    rw [hd] at server
    simpa using server
  | server h =>
    -- The loop may have started its next round.
    have hserver : ∀ {e q ks}, S.server = .ask e q ks → (∀ n, q ≠ .receiveBytes n) →
        (Act.ask e q ks).Must Says (Returns fun _ e' u => e' = v.errno ∧ u = g ++ l) (g ++ S.inbox ++ S.down) := by
      intro e q ks hs hq
      obtain ⟨hs', -⟩ | hm := server
      · rw [hs, hwait] at hs'
        cases hs'
        exact absurd rfl (hq 4)
      · exact hs ▸ hm
    cases h with
    | receive hs hu hne _ =>
      rw [up] at hu
      exact absurd (List.append_eq_nil_iff.mp hu.symm).1 hne
    | hangup _ hc _ _ =>
      rw [client] at hc
      cases hc
    | @send e buf ks n hs h0 hle _ =>
      have hm := (hserver hs (by simp)).2 (n : Int) (g ++ S.inbox ++ S.down ++ buf.take n)
        ⟨Int.natCast_pos.mpr h0, Int.ofNat_le.mpr hle, rfl⟩
      refine .answering (g := g) goes served client gets (.inr ?_) host outbox up
      rw [List.append_assoc] at hm
      exact hm
    | op hs _ =>
      obtain ⟨⟨_, _, hf⟩, -⟩ := hserver hs (by simp)
      exact hf.elim
    | next hs =>
      refine .answering (g := g) goes served client gets (.inl ?_) host outbox up
      obtain ⟨hs', -⟩ | hm := server
      · rw [hs, hwait] at hs'
        cases hs'
      · rw [hs] at hm
        exact ⟨by rw [hm.1], hm.2⟩

/-- As long as nothing comes back, the client writes or waits. -/
theorem sending {x : Act Int32 IoReq.Ans Unit} {id : Int32} {u : Bytes}
    (client : S.client = (x.bind fun _ => Wire.receive r id).bind (resume k))
    (puts : x.Must Puts (Returns fun _ t u' => t = id + 1 ∧ u' = []) u) (down : S.down = []) (inbox : S.inbox = [])
    (hserver : ∀ {e o}, S.server = .done e o → o = .ok ()) (h : S.Step H cap S') :
    S.Serves H cap S' ∨ ∃ (x' : Act Int32 IoReq.Ans Unit) (u' : Bytes),
      S'.client = (x'.bind fun _ => Wire.receive r id).bind (resume k) ∧
      x'.Must Puts (Returns fun _ t u' => t = id + 1 ∧ u' = []) u' ∧
      S'.up ++ S'.outbox ++ u' = S.up ++ S.outbox ++ u ∧ S'.server = S.server ∧ S'.host = S.host ∧ S'.down = [] ∧
      S'.inbox = [] := by
  -- When the message is written, the client waits for a tag.
  have hdone : ∀ {q t' kc}, S.client = .ask t' q kc → (∃ f, q = .fread f ∧ 0 < f.size) ∨
      ∃ kx, x = .ask t' q kx ∧ kc = fun a => ((kx a).bind fun _ => Wire.receive r id).bind (resume k) := by
    intro q t' kc hc
    rw [client] at hc
    cases x with
    | done t o =>
      obtain ⟨_, rfl, -⟩ := Returns.ok puts
      cases hc
      exact .inl ⟨_, rfl, by decide⟩
    | ask t q' kx =>
      cases hc
      exact .inr ⟨kx, rfl, rfl⟩
  cases h with
  | server h => exact .inl h
  | fwrite hc =>
    obtain ⟨_, hf, -⟩ | ⟨kx, rfl, rfl⟩ := hdone hc
    · cases hf
    · obtain ⟨⟨_, u', hs⟩, hall⟩ := puts
      obtain ⟨-, rfl⟩ := hs
      exact .inr ⟨_, u', rfl, hall _ u' ⟨rfl, rfl⟩, by simp, rfl, rfl, down, inbox⟩
  | fflush hc _ =>
    obtain ⟨_, hf, -⟩ | ⟨kx, rfl, rfl⟩ := hdone hc
    · cases hf
    · exact .inr ⟨_, u, rfl, puts.2 _ u ⟨rfl, rfl⟩, rfl, rfl, rfl, down, inbox⟩
  | fread hc hle =>
    obtain ⟨f, hf, h0⟩ | ⟨kx, rfl, rfl⟩ := hdone hc
    · cases hf
      rw [inbox] at hle
      exact absurd h0 (by simpa using hle)
    · obtain ⟨⟨_, _, hs⟩, -⟩ := puts
      exact hs.elim
  | cut _ hs ho => exact absurd (hserver hs) ho
  | drain ho _ _ => exact .inr ⟨x, u, client, puts, by simp [ho], rfl, rfl, down, inbox⟩
  | fetch _ _ hd hb =>
    rw [down] at hd
    exact absurd (List.append_eq_nil_iff.mp hd.symm).1 hb

theorem step_responding {x : Act Int32 IoReq.Ans Unit} {e : Int} {q : OpReq} {kb : q.Ans → Act Int OpReq.Ans Msg}
    (goes : p₀.Goes (Peer.Serve H) w₀ (.ask s r k) w)
    (client : S.client = (x.bind fun _ => Wire.receive r w.msgId).bind (resume k))
    (puts : x.Must Puts (Returns fun _ t u' => t = w.msgId + 1 ∧ u' = []) [])
    (server : S.server = ((Act.ask e q kb).lift id ConnReq.op fun _ a => a).bind fun m => writeAll (serializeMsg m))
    (yields : (Act.ask e q kb).Yields fun m => m.Fits narrow ∧ r.Accepts w.msgId m)
    (runs : (Nfs.respond nfsRoot (r.msg w.msgId) w.errno).Goes (HostServe H) w.host (.ask e q kb) S.host)
    (outbox : S.outbox = []) (up : S.up = []) (down : S.down = []) (inbox : S.inbox = [])
    (h : S.Step H cap S') : S'.Phase H p₀ w₀ := by
  have hask : S.server = .ask e (.op q) fun a =>
      ((kb a).lift id ConnReq.op fun _ a => a).bind fun m => writeAll (serializeMsg m) := server
  have hlive : ∀ {e' o}, S.server = .done e' o → o = .ok () := by
    intro e' o hs
    rw [hask] at hs
    cases hs
  obtain h | ⟨x', u', client', puts', hu, server', host', down', inbox'⟩ := sending client puts down inbox hlive h
  · cases h with
    | op hs ha =>
      rw [hask] at hs
      cases hs
      exact respond goes client puts rfl (yields _) (runs.step ha) outbox up down inbox
    | receive hs _ _ _ | hangup hs _ _ _ | send hs _ _ _ | next hs =>
      rw [hask] at hs
      cases hs
  · rw [outbox, up] at hu
    obtain ⟨hup, hout, rfl⟩ : S'.up = [] ∧ S'.outbox = [] ∧ u' = [] := by simpa using hu
    exact .responding goes client' puts' (server'.trans server) yields (host' ▸ runs) hout hup down'
      inbox'

theorem step_asking {x : Act Int32 IoReq.Ans Unit} {u : Bytes} (hr : r.Sendable)
    (goes : p₀.Goes (Peer.Serve H) w₀ (.ask s r k) w)
    (client : S.client = (x.bind fun _ => Wire.receive r w.msgId).bind (resume k))
    (puts : x.Must Puts (Returns fun _ t u' => t = w.msgId + 1 ∧ u' = []) u)
    (server : Hearing S.server w.errno (r.msg w.msgId) (S.up ++ S.outbox ++ u)) (host : S.host = w.host)
    (down : S.down = []) (inbox : S.inbox = []) (h : S.Step H cap S') : S'.Phase H p₀ w₀ := by
  have hlive : ∀ {e o}, S.server = .done e o → o = .ok () := by
    intro e o hs
    obtain ⟨hs', -⟩ | ⟨_, _, _, hs', -⟩ := server
    · rw [hs] at hs'
      cases hs'
      rfl
    · rw [hs] at hs'
      cases hs'
  obtain h | ⟨x', u', client', puts', hu, server', host', down', inbox'⟩ := sending client puts down inbox hlive h
  · -- The server can only receive.
    have hserver : ∀ {e q ks}, S.server = .ask e q ks → ∃ kq, ks = (fun a => (kq a).bind respondTo) ∧
        (Act.ask e q kq).Must Hears (Returns fun b e' u' => b = r.msg w.msgId ∧ e' = w.errno ∧ u' = [])
          (S.up ++ S.outbox ++ u) := by
      intro e q ks hs
      obtain ⟨hs', -⟩ | ⟨_, _, kq, hs', hm⟩ := server
      · rw [hs] at hs'
        cases hs'
      · rw [hs] at hs'
        cases hs'
        exact ⟨kq, rfl, hm⟩
    cases h with
    | @receive e n ks chunk rest hs hup hne hle =>
      obtain ⟨kq, rfl, hm⟩ := hserver hs
      refine hear hr goes client puts rfl (hm.2 chunk _ ⟨hne, hle, ?_⟩) host down inbox
      rw [hup, List.append_assoc, List.append_assoc, List.append_assoc]
    | hangup _ hc _ _ =>
      rw [client] at hc
      cases x with
      | done t o =>
        obtain ⟨_, rfl, -⟩ := Returns.ok puts
        cases hc
      | ask t q kx => cases hc
    | send hs _ _ _ | op hs _ =>
      obtain ⟨_, -, ⟨⟨_, _, hf⟩, -⟩⟩ := hserver hs
      exact hf.elim
    | next hs =>
      obtain ⟨hs', hu⟩ | ⟨_, _, _, hs', -⟩ := server
      · rw [hs] at hs'
        cases hs'
        refine hear hr goes client puts serveOne_eq ?_ host down inbox
        show Act.Must _ _ _ (S.up ++ S.outbox ++ u)
        rw [hu]
        exact receive_must (Req.Sendable.short hr).2.1
      · rw [hs] at hs'
        cases hs'
  · exact .asking goes client' puts' (by rw [hu, server']; exact server) (host'.trans host) down' inbox'

/-- The client is at rest: it has ended, or it is about to ask. -/
theorem rest_cases {p : Act σ Req.Resp α} (hp : p.Issues (Peer.Serve H) (fun _ => Req.Sendable) w)
    (client : S.client = p.via Wire.exchange w.msgId)
    (server : S.server = serveOne w.errno ∨ S.server = .done w.errno (.ok ()))
    (outbox : S.outbox = []) (up : S.up = []) :
    (∃ o, S.client = .done w.msgId o ∧ ((∃ s o', p = .done s o' ∧ o = .ok (s, o')) ∨
      o = .fault ∧ ¬ w.msgId.toInt + 1 < 2 ^ 31)) ∨
    ∃ s r k, p = .ask s r k ∧ r.Sendable ∧ ∃ x : Act Int32 IoReq.Ans Unit,
      S.client = (x.bind fun _ => Wire.receive r w.msgId).bind (resume k) ∧
      x.Must Puts (Returns fun _ t u' => t = w.msgId + 1 ∧ u' = []) (r.msg w.msgId).encoding ∧
      Hearing S.server w.errno (r.msg w.msgId) (S.up ++ S.outbox ++ (r.msg w.msgId).encoding) := by
  cases p with
  | done s o => exact .inl ⟨_, client, .inl ⟨s, o, rfl, rfl⟩⟩
  | ask s r k =>
    by_cases hid : w.msgId.toInt + 1 < 2 ^ 31
    · refine .inr ⟨s, r, k, rfl, hp.1, (Wire.sendMsg (r.msg w.msgId)) (w.msgId + 1), ?_, Wire.sendMsg_must, ?_⟩
      · rw [client, ← Wire.exchange_eq hid]
        rfl
      · rw [outbox, up]
        obtain h | h := server
        · obtain ⟨kw, hwait, -⟩ := serveOne_waits (e := w.errno)
          refine .inr ⟨_, _, kw, by rw [h, serveOne_eq, hwait], ?_⟩
          rw [← hwait]
          exact receive_must (Req.Sendable.short hp.1).2.1
        · exact .inl ⟨h, rfl⟩
    · refine .inl ⟨.fault, ?_, .inr ⟨rfl, hid⟩⟩
      rw [client]
      show (Wire.exchange r w.msgId).bind _ = _
      rw [Wire.exchange_spent hid]
      rfl

/-- When the client has ended, the server ends too. -/
theorem step_ended {p : Act σ Req.Resp α} {t : Int32} {o : Outcome (σ × Outcome α)}
    (goes : p₀.Goes (Peer.Serve H) w₀ p w) (client : S.client = p.via Wire.exchange w.msgId)
    (ended : S.client = .done t o) (server : S.server = serveOne w.errno ∨ S.server = .done w.errno (.ok ()))
    (host : S.host = w.host) (outbox : S.outbox = []) (up : S.up = []) (down : S.down = []) (inbox : S.inbox = [])
    (h : S.Step H cap S') : S'.Phase H p₀ w₀ := by
  obtain ⟨kw, hwait, hclosed⟩ := serveOne_waits (e := w.errno)
  rw [serveOne_eq, hwait] at server
  cases h with
  | fwrite hc | fflush hc _ | fread hc _ | cut hc _ _ | fetch hc _ _ _ =>
    rw [ended] at hc
    cases hc
  | drain ho hb _ =>
    rw [outbox] at ho
    exact absurd (List.append_eq_nil_iff.mp ho.symm).1 hb
  | server h =>
    cases h with
    | receive _ hu hne _ =>
      rw [up] at hu
      exact absurd (List.append_eq_nil_iff.mp hu.symm).1 hne
    | hangup hs _ _ _ =>
      obtain hs' | hs' := server
      · rw [hs] at hs'
        cases hs'
        exact .closed goes client ended hclosed host outbox up down inbox
      · rw [hs] at hs'
        cases hs'
    | send hs _ _ _ | op hs _ =>
      obtain hs' | hs' := server
      · rw [hs] at hs'
        cases hs'
      · rw [hs] at hs'
        cases hs'
    | next hs =>
      obtain hs' | hs' := server
      · rw [hs] at hs'
        cases hs'
      · rw [hs] at hs'
        cases hs'
        exact .rest goes client (.inl rfl) host outbox up down inbox

/-- **Every step** leads from phase to phase. -/
theorem step (hp₀ : p₀.Issues (Peer.Serve H) (fun _ => Req.Sendable) w₀) (hS : S.Phase H p₀ w₀) (h : S.Step H cap S') :
    S'.Phase H p₀ w₀ := by
  cases hS with
  | answering goes served client gets server host outbox up =>
    exact step_answering goes served client gets server host outbox up h
  | responding goes client puts server yields runs outbox up down inbox =>
    exact step_responding goes client puts server yields runs outbox up down inbox h
  | asking goes client puts server host down inbox =>
    exact step_asking (goes.issues hp₀).1 goes client puts server host down inbox h
  | closed goes client ended server host outbox up down inbox =>
    -- There is nothing left to do.
    cases h with
    | fwrite hc | fflush hc _ | fread hc _ | cut hc _ _ | fetch hc _ _ _ =>
      rw [ended] at hc
      cases hc
    | drain ho hb _ =>
      rw [outbox] at ho
      exact absurd (List.append_eq_nil_iff.mp ho.symm).1 hb
    | server h =>
      cases h with
      | receive hs _ _ _ | hangup hs _ _ _ | send hs _ _ _ | op hs _ | next hs =>
        rw [server] at hs
        cases hs
  | @rest p w goes client server host outbox up down inbox =>
    obtain ⟨o, ended, -⟩ | ⟨s, r, k, rfl, hr, x, client', puts, hears⟩ :=
      rest_cases (goes.issues hp₀) client server outbox up
    · exact step_ended goes client ended server host outbox up down inbox h
    · exact step_asking hr goes client' puts hears host down inbox h

end Session.Phase

/-! ## Runs -/

theorem Session.Phase.start {p : Act σ Req.Resp α} {errno : Int} {host : K} :
    (Session.start p errno host).Phase H p ⟨0, errno, host⟩ :=
  .rest .refl rfl (.inl rfl) rfl rfl rfl rfl rfl

variable {p : Act σ Req.Resp α} {errno : Int} {host : K}

theorem Session.Reach.phase (hp : p.Issues (Peer.Serve H) (fun _ => Req.Sendable) ⟨0, errno, host⟩)
    (h : (Session.start p errno host).Reach H cap S) : S.Phase H p ⟨0, errno, host⟩ := by
  induction h with
  | start => exact .start
  | step _ hs ih => exact ih.step hp hs

/-- A client that waits has not ended. -/
theorem sending_asks {x : Act Int32 IoReq.Ans Unit} {id : Int32} {u : Bytes}
    (h : x.Must Puts (Returns fun _ t u' => t = id + 1 ∧ u' = []) u) :
    ∃ t q kq, (x.bind fun _ => Wire.receive r id).bind (resume k) = .ask t q kq := by
  cases x with
  | done t o =>
    obtain ⟨_, rfl, -⟩ := Returns.ok h
    exact ⟨_, _, _, rfl⟩
  | ask t q kx => exact ⟨_, _, _, rfl⟩

/-- Where the client may end. -/
theorem via_done {id t : Int32} {o : Outcome (σ × Outcome α)} (h : p.via Wire.exchange id = .done t o) :
    t = id ∧ ((∃ s o', p = .done s o' ∧ o = .ok (s, o')) ∨ o = .fault ∧ id.toInt = 2 ^ 31 - 1) := by
  cases p with
  | done s o' =>
    cases h
    exact ⟨rfl, .inl ⟨s, o', rfl, rfl⟩⟩
  | ask s r k =>
    replace h : (Wire.exchange r id).bind (resume k) = .done t o := h
    by_cases hid : id.toInt + 1 < 2 ^ 31
    · obtain ⟨t', q, kq, hask⟩ := sending_asks (r := r) (k := k) (Wire.sendMsg_must (t := id + 1) (m := r.msg id))
      rw [Wire.exchange_eq hid, hask] at h
      cases h
    · rw [Wire.exchange_spent hid] at h
      cases h
      have hlt := Int32.toInt_lt id
      exact ⟨rfl, .inr ⟨rfl, by omega⟩⟩

/-- When the client has ended, nothing is on its way, and the server waits or
has ended too. -/
theorem Session.Phase.ended {t : Int32} {o : Outcome (σ × Outcome α)} (h : S.Phase H p₀ w₀)
    (hc : S.client = .done t o) : ∃ p w, p₀.Goes (Peer.Serve H) w₀ p w ∧ p.via Wire.exchange w.msgId = .done t o ∧
      (S.server = serveOne w.errno ∨ S.server = .done w.errno (.ok ()) ∨
        S.server = .done w.errno (.err clientClosed)) ∧
      S.host = w.host ∧ S.outbox = [] ∧ S.up = [] ∧ S.down = [] ∧ S.inbox = [] := by
  cases h with
  | rest goes client server host outbox up down inbox =>
    exact ⟨_, _, goes, client.symm.trans hc, server.imp_right .inl, host, outbox, up, down, inbox⟩
  | closed goes client _ server host outbox up down inbox =>
    exact ⟨_, _, goes, client.symm.trans hc, .inr (.inr server), host, outbox, up, down, inbox⟩
  | asking _ client puts _ _ _ _ =>
    obtain ⟨_, _, _, hask⟩ := sending_asks puts
    rw [client, hask] at hc
    cases hc
  | responding _ client puts _ _ _ _ _ _ _ =>
    obtain ⟨_, _, _, hask⟩ := sending_asks puts
    rw [client, hask] at hc
    cases hc
  | answering _ _ client _ _ _ _ _ =>
    rw [client] at hc
    cases hc

theorem Session.Phase.server_ended {e : Int} {o : Outcome Unit} (h : S.Phase H p₀ w₀) (hs : S.server = .done e o) :
    o = .ok () ∨ o = .err clientClosed ∧ ∃ t o', S.client = .done t o' := by
  have hone : ∀ e', S.server = serveOne e' → False := by
    intro e' h'
    obtain ⟨kw, hwait⟩ := serveOne_receives (e := e')
    rw [hs, hwait] at h'
    cases h'
  cases h with
  | rest _ _ server _ _ _ _ _ =>
    obtain hs' | hs' := server
    · exact (hone _ hs').elim
    · rw [hs] at hs'
      cases hs'
      exact .inl rfl
  | closed _ _ ended server _ _ _ _ _ =>
    rw [hs] at server
    cases server
    exact .inr ⟨rfl, _, _, ended⟩
  | asking _ _ _ server _ _ _ =>
    obtain ⟨hs', -⟩ | ⟨_, _, _, hs', -⟩ := server
    · rw [hs] at hs'
      cases hs'
      exact .inl rfl
    · rw [hs] at hs'
      cases hs'
  | responding _ _ _ server _ _ _ _ _ _ =>
    rw [hs] at server
    cases server
  | answering _ _ _ _ server _ _ _ =>
    obtain ⟨hs', -⟩ | hm := server
    · exact (hone _ hs').elim
    · rw [hs] at hm
      obtain ⟨_, rfl, -⟩ := Returns.ok hm
      exact .inl rfl

/-- A call that the server is about to make is one of a responder's, for a
request of the client. -/
theorem Session.Phase.calls {e : Int} {c : HostCall} {ks : c.Ans → Act Int ConnReq.Ans Unit} (h : S.Phase H p₀ w₀)
    (hs : S.server = .ask e (.op (.host c)) ks) :
    ∃ s r k w e' kb, p₀.Goes (Peer.Serve H) w₀ (.ask s r k) w ∧
      (Nfs.respond nfsRoot (r.msg w.msgId) w.errno).Goes (HostServe H) w.host (.ask e' (.host c) kb) S.host := by
  have hone : ∀ e', S.server = serveOne e' → False := by
    intro e' h'
    obtain ⟨kw, hwait⟩ := serveOne_receives (e := e')
    rw [hs, hwait] at h'
    cases h'
  cases h with
  | rest _ _ server _ _ _ _ _ =>
    obtain hs' | hs' := server
    · exact (hone _ hs').elim
    · rw [hs] at hs'
      cases hs'
  | closed _ _ _ server _ _ _ _ _ =>
    rw [hs] at server
    cases server
  | asking _ _ _ server _ _ _ =>
    obtain ⟨hs', -⟩ | ⟨_, _, _, hs', hm⟩ := server
    · rw [hs] at hs'
      cases hs'
    · rw [hs] at hs'
      cases hs'
      obtain ⟨⟨_, _, hf⟩, -⟩ := hm
      exact hf.elim
  | responding goes _ _ server _ runs _ _ _ _ =>
    rw [hs] at server
    cases server
    exact ⟨_, _, _, _, _, _, goes, runs⟩
  | answering _ _ _ _ server _ _ _ =>
    obtain ⟨hs', -⟩ | hm := server
    · exact (hone _ hs').elim
    · rw [hs] at hm
      obtain ⟨⟨_, _, hf⟩, -⟩ := hm
      exact hf.elim

/-- Bytes travel in one direction at a time. -/
theorem Session.Phase.halfDuplex (h : S.Phase H p₀ w₀) : S.outbox ++ S.up = [] ∨ S.down ++ S.inbox = [] := by
  cases h with
  | rest _ _ _ _ outbox up _ _ | closed _ _ _ _ _ outbox up _ _ | responding _ _ _ _ _ _ outbox up _ _
  | answering _ _ _ _ _ _ outbox up => exact .inl (by rw [outbox, up]; rfl)
  | asking _ _ _ _ _ down inbox => exact .inr (by rw [down, inbox]; rfl)

end Nfs
