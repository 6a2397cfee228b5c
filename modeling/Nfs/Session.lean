/-
A client and the server's loop for its connection, with everything between
them that holds bytes.

The client's `FILE` for writing hands its bytes to the socket when it likes
to, at the latest when it is flushed; the one for reading takes more than it
is asked for. Either direction of the socket holds at most `cap` bytes, and
a call on it moves as many as it likes to, at least one. So a step is one
call of one of the two, or some bytes moving on (`Session.Step`).

The client is any program that issues requests, carried out by `exchange`.
A run goes through phases (`Phase`): both are at rest, the request is on its
way, the responder is at work, the response is on its way. In each of them
it is known what is left for either of them to do, and where the bytes are.
-/
import Nfs.Wire

namespace Nfs

open PlainFile Resume Codec

variable {K σ α : Type} {H : K → (c : HostCall) → c.Ans → K → Prop} {cap : Nat}

/-! ## Steps -/

structure Session (K α : Type) where
  client : Act Int32 IoReq.Ans α
  /-- Written by the client, and still with `stdio`. -/
  outbox : Bytes
  /-- On the way to the server. -/
  up : Bytes
  server : Act Int ConnReq.Ans Unit
  /-- On the way to the client. -/
  down : Bytes
  /-- Received, but not yet read by the client. -/
  inbox : Bytes
  host : K

/-- A step of the server. The loop starts its next round after the last one;
`receiveBytes` returns nothing when the client's end is closed. -/
inductive Session.Serves (H : K → (c : HostCall) → c.Ans → K → Prop) (cap : Nat) (S : Session K α) :
    Session K α → Prop
  | receive {e n k chunk rest} : S.server = .ask e (.receiveBytes n) k → S.up = chunk ++ rest → chunk ≠ [] →
      chunk.length ≤ n → Serves H cap S { S with server := k chunk, up := rest }
  | hangup {e n k t o} : S.server = .ask e (.receiveBytes n) k → S.client = .done t o → S.outbox = [] → S.up = [] →
      Serves H cap S { S with server := k [] }
  | send {e buf k} {n : Nat} : S.server = .ask e (.sendBytes buf) k → 0 < n → n ≤ buf.length →
      S.down.length + n ≤ cap → Serves H cap S { S with server := k n, down := S.down ++ buf.take n }
  | op {e r k a h} : S.server = .ask e (.op r) k → HostServe H S.host r a h →
      Serves H cap S { S with server := k a, host := h }
  | next {e} : S.server = .done e (.ok ()) → Serves H cap S { S with server := serveOne e }

/-- A step: a call of the client, bytes that go on, or a step of the server.
When an exception or an `abort` has ended the loop, the client's calls may
return anything. -/
inductive Session.Step (H : K → (c : HostCall) → c.Ans → K → Prop) (cap : Nat) (S : Session K α) :
    Session K α → Prop
  | fwrite {t buf k} : S.client = .ask t (.fwrite buf) k →
      Step H cap S { S with client := k ⟨buf.length, false⟩, outbox := S.outbox ++ buf }
  | fflush {t k} : S.client = .ask t .fflush k → S.outbox = [] → Step H cap S { S with client := k 0 }
  | fread {t r k} : S.client = .ask t (.fread r) k → r.size ≤ S.inbox.length →
      Step H cap S { S with client := k ⟨S.inbox.take r.size, false, false, []⟩, inbox := S.inbox.drop r.size }
  | cut {t q k a e o} : S.client = .ask t q k → S.server = .done e o → o ≠ .ok () →
      Step H cap S { S with client := k a }
  | drain {b rest} : S.outbox = b ++ rest → b ≠ [] → S.up.length + b.length ≤ cap →
      Step H cap S { S with outbox := rest, up := S.up ++ b }
  | fetch {t r k b rest} : S.client = .ask t (.fread r) k → S.inbox.length < r.size → S.down = b ++ rest → b ≠ [] →
      Step H cap S { S with inbox := S.inbox ++ b, down := rest }
  | server {S' : Session K α} : S.Serves H cap S' → Step H cap S S'

/-- The states of a run. -/
inductive Session.Reach (H : K → (c : HostCall) → c.Ans → K → Prop) (cap : Nat) (S₀ : Session K α) :
    Session K α → Prop
  | start : Reach H cap S₀ S₀
  | step {S S' : Session K α} : Reach H cap S₀ S → S.Step H cap S' → Reach H cap S₀ S'

/-- The client has connected and is about to carry out `p`. -/
def Session.start (p : Act σ Req.Resp α) (errno : Int) (host : K) : Session K (σ × Outcome α) where
  client := p.via Wire.exchange 0
  outbox := []
  up := []
  server := serveOne errno
  down := []
  inbox := []
  host := host

/-! ## One of the runs

The one in which bytes move on at once, and as many as there are. -/

section
variable {α : Type} {I : K → Prop} {answer : K → (c : HostCall) → Option (c.Ans × K)}

/-- The server's next step. -/
def Session.nextServer (answer : K → (c : HostCall) → Option (c.Ans × K)) (cap : Nat) (S : Session K α) :
    Option (Session K α) :=
  match S.server with
  | .ask _ (.receiveBytes n) k =>
    if S.up.take n = [] then none else some { S with server := k (S.up.take n), up := S.up.drop n }
  | .ask _ (.sendBytes buf) k =>
    if 0 < buf.length ∧ S.down.length + buf.length ≤ cap then
      some { S with server := k buf.length, down := S.down ++ buf }
    else none
  | .ask _ (.op .uninit) k =>
    some { S with server := k ⟨.epoch, .epoch, .epoch, ⟨0, 0, .epoch⟩, ⟨0, 0, 0, 0, 0, 0, 0, 0⟩⟩ }
  | .ask _ (.op (.host c)) k => (answer S.host c).map fun r => { S with server := k r.1, host := r.2 }
  | .done e (.ok ()) => some { S with server := serveOne e }
  | _ => none

/-- The next step, the client's before the server's. -/
def Session.next (answer : K → (c : HostCall) → Option (c.Ans × K)) (cap : Nat) (S : Session K α) :
    Option (Session K α) :=
  if S.outbox ≠ [] ∧ S.up.length + S.outbox.length ≤ cap then
    some { S with outbox := [], up := S.up ++ S.outbox }
  else match S.client with
    | .ask _ (.fwrite buf) k => some { S with client := k ⟨buf.length, false⟩, outbox := S.outbox ++ buf }
    | .ask _ .fflush k => if S.outbox = [] then some { S with client := k 0 } else none
    | .ask _ (.fread r) k =>
      if r.size ≤ S.inbox.length then
        some { S with client := k ⟨S.inbox.take r.size, false, false, []⟩, inbox := S.inbox.drop r.size }
      else if S.down ≠ [] then some { S with inbox := S.inbox ++ S.down, down := [] }
      else S.nextServer answer cap
    | .done _ _ => S.nextServer answer cap

/-- What the client's program has returned. -/
def Session.returned (S : Session K (σ × Outcome α)) : Option (Outcome α) :=
  match S.client with
  | .done _ (.ok (_, o)) => some o
  | _ => none

theorem Session.client_of_returned {S : Session K (σ × Outcome α)} {o : Outcome α} (h : S.returned = some o) :
    ∃ t s, S.client = .done t (.ok (s, o)) := by
  unfold Session.returned at h
  split at h
  · rename_i t s o' hc
    cases h
    exact ⟨t, s, hc⟩
  · cases h

/-- So many steps, or as many as there are. -/
def Session.after (answer : K → (c : HostCall) → Option (c.Ans × K)) (cap : Nat) : Nat → Session K α → Session K α
  | 0, S => S
  | n + 1, S => match S.next answer cap with
    | some S' => S'.after answer cap n
    | none => S

variable {S S' : Session K α} (hH : ∀ {k c r}, I k → answer k c = some r → H k c r.1 r.2 ∧ I r.2)
include hH

theorem Session.serves_nextServer (hI : I S.host) (h : S.nextServer answer cap = some S') :
    S.Serves H cap S' ∧ I S'.host := by
  unfold Session.nextServer at h
  split at h
  · rename_i n k hs
    split at h
    · cases h
    · rename_i hne
      cases h
      exact ⟨.receive hs (List.take_append_drop ..).symm hne (List.length_take_le ..), hI⟩
  · rename_i buf k hs
    split at h
    · rename_i hn
      cases h
      have := Session.Serves.send (H := H) hs hn.1 le_rfl hn.2
      rw [List.take_length] at this
      exact ⟨this, hI⟩
    · cases h
  · rename_i k hs
    cases h
    exact ⟨.op hs rfl, hI⟩
  · rename_i c k hs
    obtain ⟨r, hr, rfl⟩ := Option.map_eq_some_iff.mp h
    obtain ⟨hserve, hI'⟩ := hH hI hr
    exact ⟨.op (r := .host c) hs hserve, hI'⟩
  · rename_i e hs
    cases h
    exact ⟨.next hs, hI⟩
  · cases h

theorem Session.step_next (hI : I S.host) (h : S.next answer cap = some S') : S.Step H cap S' ∧ I S'.host := by
  have hserver : S.nextServer answer cap = some S' → S.Step H cap S' ∧ I S'.host := by
    intro h
    obtain ⟨hs, hI'⟩ := Session.serves_nextServer hH hI h
    exact ⟨.server hs, hI'⟩
  unfold Session.next at h
  split at h
  · rename_i hout
    cases h
    exact ⟨.drain (List.append_nil _).symm hout.1 hout.2, hI⟩
  · split at h
    · rename_i hc
      cases h
      exact ⟨.fwrite hc, hI⟩
    · rename_i hc
      split at h
      · rename_i hout
        cases h
        exact ⟨.fflush hc hout, hI⟩
      · cases h
    · rename_i hc
      split at h
      · rename_i hle
        cases h
        exact ⟨.fread hc hle, hI⟩
      · rename_i hle
        split at h
        · rename_i hd
          cases h
          exact ⟨.fetch hc (by omega) (List.append_nil _).symm hd, hI⟩
        · exact hserver h
    · exact hserver h

/-- It is a run. -/
theorem Session.reach_after (S₀ : Session K α) : ∀ (n : Nat) {S : Session K α}, I S.host → S₀.Reach H cap S →
    S₀.Reach H cap (S.after answer cap n)
  | 0, _, _, h => h
  | n + 1, S, hI, h => by
    rw [Session.after]
    split
    · rename_i S' hnext
      obtain ⟨hs, hI'⟩ := Session.step_next hH hI hnext
      exact Session.reach_after S₀ n hI' (.step h hs)
    · exact h

end

/-! ## What the server does to its socket -/

/-- The server receives what is left of a message. -/
def Hears (u : Bytes) : (q : ConnReq) → q.Ans → Bytes → Prop
  | .receiveBytes n, chunk, u' => chunk ≠ [] ∧ chunk.length ≤ n ∧ u = chunk ++ u'
  | .sendBytes _, _, _ => False
  | .op _, _, _ => False

/-- The server sends, after `u`. -/
def Says (u : Bytes) : (q : ConnReq) → q.Ans → Bytes → Prop
  | .sendBytes buf, n, u' => 0 < n ∧ n ≤ buf.length ∧ u' = u ++ buf.take n.toNat
  | .receiveBytes _, _, _ => False
  | .op _, _, _ => False

-- As in `Nfs.Connection`.
seal toInt

section
variable {errno : Int}

theorem recvLoop_must : ∀ (rounds : Nat) {left : Nat} {got u : Bytes}, left ≤ rounds → left ≤ u.length →
    ((recvLoop rounds left got) errno).Must Hears (Returns fun b e u' =>
      b = got ++ u.take left ∧ e = errno ∧ u' = u.drop left) u
  | 0, left, got, u, hr, _ => by
    obtain rfl : left = 0 := by omega
    exact ⟨by simp, rfl, rfl⟩
  | rounds + 1, left, got, u, hr, hle => by
    rw [recvLoop]
    split
    · rename_i hpos
      refine ⟨⟨u.take 1, u.drop 1, ?_, ?_, (List.take_append_drop ..).symm⟩, fun chunk u' hc => ?_⟩
      · exact List.ne_nil_of_length_pos (by rw [List.length_take]; omega)
      · rw [List.length_take, Int.toNat_natCast]
        omega
      · obtain ⟨hne, hlen, rfl⟩ := hc
        replace hlen : chunk.length ≤ left := hlen
        have h0 : chunk.length ≠ 0 := fun h => hne (List.eq_nil_of_length_eq_zero h)
        show Act.Must _ _ ((if chunk.length = 0 then _ else _ : ConnM Bytes) errno) _
        rw [if_neg h0]
        show Act.Must _ _ ((Prog.assert ((chunk.length : Int) ≤ left) >>= fun _ =>
          recvLoop rounds (left - chunk.length) (got ++ chunk) : ConnM Bytes) errno) _
        rw [Prog.assert_pos (by omega)]
        show Act.Must _ _ (recvLoop rounds (left - chunk.length) (got ++ chunk) errno) _
        have hsub : (left : Int) - chunk.length = (left - chunk.length : Nat) := by omega
        rw [List.length_append] at hle
        rw [hsub]
        refine (recvLoop_must rounds (by omega) (by omega)).mono fun e w o hQ => ?_
        cases o with
        | ok b =>
          obtain ⟨rfl, rfl, rfl⟩ := hQ
          refine ⟨?_, rfl, ?_⟩
          · simp [List.take_append, List.take_of_length_le hlen]
          · simp [List.drop_append, List.drop_of_length_le hlen]
        | err _ => exact hQ
        | fault => exact hQ
    · obtain rfl : left = 0 := by omega
      exact ⟨by simp, rfl, rfl⟩

theorem unserialReader_must {r : Fill} {a v v' : Bytes} (h : exactly narrow v (.fill r) = some (a, v')) :
    ((unserialReader r) errno).Must Hears (Returns fun b e u => b = a ∧ e = errno ∧ u = v') v := by
  rw [exactly] at h
  split at h
  · rename_i hok
    obtain ⟨hnarrow, hle⟩ : narrow r.size ∧ r.size ≤ v.length := by simpa using hok
    cases h
    unfold unserialReader
    rw [toInt_of_narrow hnarrow, Int.toNat_natCast]
    refine must_returns (recvLoop_must r.size le_rfl hle) fun e u b hb => ?_
    obtain ⟨rfl, rfl, rfl⟩ := hb
    exact ⟨by simp [hle], rfl, rfl⟩
  · cases h

/-- **A request is received.** -/
theorem receive_must {m : Msg} (h : m.Fits narrow) :
    ((unserializeMsg ()).handle (withMemory unserialReader) errno).Must Hears (Returns fun b e u =>
      b = m ∧ e = errno ∧ u = []) m.encoding := by
  have hrun : (unserializeMsg ()).interpOr streamError (exactly narrow) m.encoding = ((), .ok m, []) :=
    Prod.ext rfl ((reads_msg roomy_narrow _ m []).mpr ⟨h, by simp⟩)
  refine must_handle (R := fun v e u => e = errno ∧ u = v) ?_ (unserializeMsg ()) hrun ⟨rfl, rfl⟩
  intro v q a v' e u hg hR
  obtain ⟨rfl, rfl⟩ := hR
  cases q with
  | alloc n =>
    cases hg
    exact ⟨rfl, rfl, rfl⟩
  | fill r => exact unserialReader_must hg

theorem sendLoop_must : ∀ (rounds : Nat) {buf u : Bytes}, buf.length ≤ rounds →
    ((sendLoop rounds buf.length buf) errno).Must Says (Returns fun _ e u' => e = errno ∧ u' = u ++ buf) u
  | 0, buf, u, hr => by
    obtain rfl : buf = [] := List.eq_nil_of_length_eq_zero (by omega)
    exact ⟨rfl, by simp⟩
  | rounds + 1, buf, u, hr => by
    rw [sendLoop]
    split
    · rename_i hpos
      rw [Int.toNat_natCast, List.take_length]
      refine ⟨⟨(1 : Int), u ++ buf.take 1, Int.one_pos, ?_, rfl⟩, fun n u' hn => ?_⟩
      · show (1 : Int) ≤ buf.length
        omega
      obtain ⟨h0, hle, rfl⟩ := hn
      obtain ⟨n, rfl⟩ := Int.eq_ofNat_of_zero_le (Int.le_of_lt h0)
      replace h0 : (0 : Int) < n := h0
      replace hle : (n : Int) ≤ buf.length := hle
      show Act.Must _ _ ((if (n : Int) ≤ 0 then _ else _ : ConnM Unit) errno) _
      rw [if_neg (by omega)]
      show Act.Must _ _ ((Prog.assert ((n : Int) ≤ buf.length) >>= fun _ =>
        sendLoop rounds (buf.length - n) (buf.drop n) : ConnM Unit) errno) _
      rw [Prog.assert_pos hle]
      show Act.Must _ _ (sendLoop rounds (buf.length - n) (buf.drop n) errno) _
      have hsub : (buf.length : Int) - n = ((buf.drop n).length : Nat) := by simp; omega
      rw [hsub]
      refine (sendLoop_must rounds (by simp; omega)).mono fun e w o hQ => ?_
      cases o with
      | ok b =>
        obtain ⟨rfl, rfl⟩ := hQ
        exact ⟨rfl, by simp⟩
      | err _ => exact hQ
      | fault => exact hQ
    · obtain rfl : buf = [] := List.eq_nil_of_length_eq_zero (by omega)
      exact ⟨rfl, by simp⟩

theorem writeAll_must {bufs : List Bytes} {u : Bytes} (h : Within narrow bufs) :
    ((writeAll bufs) errno).Must Says (Returns fun _ e u' => e = errno ∧ u' = u ++ bufs.flatten) u := by
  induction bufs generalizing u with
  | nil => exact ⟨rfl, by simp⟩
  | cons buf bufs ih =>
    have hbuf : ((serialWriter buf) errno).Must Says (Returns fun _ e u' => e = errno ∧ u' = u ++ buf) u := by
      rw [serialWriter, toInt_of_narrow (h buf (List.mem_cons_self ..))]
      exact sendLoop_must _ (by simp)
    refine must_returns hbuf fun e u' _ hu => ?_
    obtain ⟨rfl, rfl⟩ := hu
    have hrest := ih (u := u ++ buf) fun b hb => h b (List.mem_cons_of_mem _ hb)
    simpa using hrest

end

/-! ## The phases -/

/-- The server as the requests of one client meet it: the id of the next
request, the `errno` of the thread and the host. -/
structure Peer (K : Type) where
  msgId : Int32
  errno : Int
  host : K

/-- One request, carried out by its responder as if nothing were sent. -/
def Peer.Serve (H : K → (c : HostCall) → c.Ans → K → Prop) (w : Peer K) (r : Req) (a : r.Resp) (w' : Peer K) : Prop :=
  w'.msgId = w.msgId + 1 ∧ ∃ resp,
    Exec (HostServe H) (respond nfsRoot (r.msg w.msgId) w.errno) w.host w'.errno (.ok resp) w'.host ∧
      r.decode resp = some a

/-- A round of the loop, once the request is received. -/
def respondTo (m : Msg) : ConnM Unit := do
  let respMsg ← onConn (respond nfsRoot m)
  writeAll (serializeMsg respMsg)

/-- The server has still to receive `u` of the request `m`. -/
def Hearing (server : Act Int ConnReq.Ans Unit) (e : Int) (m : Msg) (u : Bytes) : Prop :=
  (server = .done e (.ok ()) ∧ u = m.encoding) ∨ ∃ t q k, server = (Act.ask t q k).bind respondTo ∧
    (Act.ask t q k).Must Hears (Returns fun b e' u' => b = m ∧ e' = e ∧ u' = []) u

/-- The server has sent `said` of the response that is encoded as `enc`. -/
def Saying (server : Act Int ConnReq.Ans Unit) (e : Int) (enc said : Bytes) : Prop :=
  (server = serveOne e ∧ said = enc) ∨ server.Must Says (Returns fun _ e' u => e' = e ∧ u = enc) said

/-- What the client goes on with after the exchange. -/
def resume {r : Req} (k : r.Resp → Act σ Req.Resp α) (a : r.Resp) : WireM (σ × Outcome α) := (k a).via Wire.exchange

/-- **Where a run is.** Up to now the client has come from `p₀` to some `p`,
its requests being carried out one by one, by their responders alone. -/
inductive Session.Phase (H : K → (c : HostCall) → c.Ans → K → Prop) (p₀ : Act σ Req.Resp α) (w₀ : Peer K)
    (S : Session K (σ × Outcome α)) : Prop
  | rest {p : Act σ Req.Resp α} {w : Peer K} (goes : p₀.Goes (Peer.Serve H) w₀ p w)
      (client : S.client = p.via Wire.exchange w.msgId)
      (server : S.server = serveOne w.errno ∨ S.server = .done w.errno (.ok ())) (host : S.host = w.host)
      (outbox : S.outbox = []) (up : S.up = []) (down : S.down = []) (inbox : S.inbox = [])
  | asking {s : σ} {r : Req} {k : r.Resp → Act σ Req.Resp α} {w : Peer K} {x : Act Int32 IoReq.Ans Unit} {u : Bytes}
      (goes : p₀.Goes (Peer.Serve H) w₀ (.ask s r k) w)
      (client : S.client = (x.bind fun _ => Wire.receive r w.msgId).bind (resume k))
      (puts : x.Must Puts (Returns fun _ t u' => t = w.msgId + 1 ∧ u' = []) u)
      (server : Hearing S.server w.errno (r.msg w.msgId) (S.up ++ S.outbox ++ u)) (host : S.host = w.host)
      (down : S.down = []) (inbox : S.inbox = [])
  | responding {s : σ} {r : Req} {k : r.Resp → Act σ Req.Resp α} {w : Peer K} {x : Act Int32 IoReq.Ans Unit}
      {e : Int} {q : OpReq} {kb : q.Ans → Act Int OpReq.Ans Msg} (goes : p₀.Goes (Peer.Serve H) w₀ (.ask s r k) w)
      (client : S.client = (x.bind fun _ => Wire.receive r w.msgId).bind (resume k))
      (puts : x.Must Puts (Returns fun _ t u' => t = w.msgId + 1 ∧ u' = []) [])
      (server : S.server = ((Act.ask e q kb).lift id ConnReq.op fun _ a => a).bind fun m => writeAll (serializeMsg m))
      (yields : (Act.ask e q kb).Yields fun m => m.Fits narrow ∧ r.Accepts w.msgId m)
      (runs : (respond nfsRoot (r.msg w.msgId) w.errno).Goes (HostServe H) w.host (.ask e q kb) S.host)
      (outbox : S.outbox = []) (up : S.up = []) (down : S.down = []) (inbox : S.inbox = [])
  | answering {s : σ} {r : Req} {k : r.Resp → Act σ Req.Resp α} {w v : Peer K} {a : r.Resp} {t : Int32} {q : IoReq}
      {kx : q.Ans → Act Int32 IoReq.Ans r.Resp} {g l : Bytes}
      (goes : p₀.Goes (Peer.Serve H) w₀ (.ask s r k) w) (served : w.Serve H r a v)
      (client : S.client = (Act.ask t q kx).bind (resume k))
      (gets : (Act.ask t q kx).Must Gets (Returns fun b t u => b = a ∧ t = v.msgId ∧ u = []) l)
      (server : Saying S.server v.errno (g ++ l) (g ++ S.inbox ++ S.down)) (host : S.host = v.host)
      (outbox : S.outbox = []) (up : S.up = [])
  | closed {p : Act σ Req.Resp α} {w : Peer K} {t : Int32} {o : Outcome (σ × Outcome α)}
      (goes : p₀.Goes (Peer.Serve H) w₀ p w) (client : S.client = p.via Wire.exchange w.msgId)
      (ended : S.client = .done t o) (server : S.server = .done w.errno (.err clientClosed)) (host : S.host = w.host)
      (outbox : S.outbox = []) (up : S.up = []) (down : S.down = []) (inbox : S.inbox = [])

/-! ### What the parties look like -/

theorem serveOne_eq {e : Int} :
    serveOne e = ((unserializeMsg ()).handle (withMemory unserialReader) e).bind respondTo := rfl

/-- The loop waits for a tag; when the client has closed, it ends. -/
theorem serveOne_waits {e : Int} : ∃ k,
    (unserializeMsg ()).handle (withMemory unserialReader) e = .ask e (.receiveBytes 4) k ∧
      (k []).bind respondTo = .done e (.err clientClosed) := by
  have h4 : toInt (4 : Nat) = (4 : Nat) := toInt_of_narrow (by decide)
  have htag : (unserializeMsg ()).handle (withMemory unserialReader) e = ((unserialReader ⟨false, 4⟩) e).bind fun b =>
      (unserializorAt (Pod.ofBytes b) ()).handle (withMemory unserialReader) := rfl
  rw [htag]
  have hread : unserialReader ⟨false, 4⟩ = recvLoop 4 (4 : Nat) [] >>= fun got =>
      pure (got ++ List.replicate (4 - got.length) 0) := by
    unfold unserialReader
    rw [h4]
    rfl
  rw [hread]
  exact ⟨_, rfl, rfl⟩

theorem serveOne_receives {e : Int} : ∃ ks, serveOne e = .ask e (.receiveBytes 4) ks := by
  obtain ⟨k, hwait, -⟩ := serveOne_waits (e := e)
  rw [serveOne_eq, hwait]
  exact ⟨_, rfl⟩

end Nfs
