/-
`StorageServerConnection::run`: the loop of one connection of the server.

The loop receives a request, has it responded to and sends the response,
until an exception ends it; the one it is meant to end with is that the
client has closed. `receiveBytes` and `sendBytes` move some of the bytes, at
least one, and are called until all are moved. The bytes still to move are
counted in an `int`, which the number that `unserializeMsg` or
`serializeMsg` passes is converted to. Allocation is assumed to succeed.
-/
import Nfs.Respond

namespace Nfs

open PlainFile Resume Codec

/-! ## The loop -/

inductive ConnReq
  /-- `receiveBytes(buf, length)` -/
  | receiveBytes (length : Nat)
  /-- `sendBytes(&buf[0], buf.size())` -/
  | sendBytes (buf : Bytes)
  | op (r : OpReq)

/-- The bytes received, or how many have been sent. -/
abbrev ConnReq.Ans : ConnReq → Type
  | .receiveBytes _ => Bytes
  | .sendBytes _ => Int
  | .op r => r.Ans

abbrev ConnM := Prog Int ConnReq.Ans

def onConn {α : Type} (p : OpM α) : ConnM α := fun s => (p s).lift id ConnReq.op fun _ a => a

/-- `std::runtime_error("client closed with out say bye-bye. rude")` -/
def clientClosed : Int := 3

/-- `std::runtime_error("error happened while sending Msg to client")` -/
def sendFailed : Int := 4

/-- The loop of `unserial_reader`, which has put `got` into the buffer. Every
round gets something, so as many rounds as there are bytes left are enough. -/
def recvLoop : Nat → Int → Bytes → ConnM Bytes
  | 0, _, got => pure got
  | rounds + 1, left, got =>
    if left > 0 then do
      let chunk ← Prog.ask (ConnReq.receiveBytes left.toNat)
      if chunk.length = 0 then Prog.throw clientClosed
      else do
        Prog.assert (chunk.length ≤ left)
        recvLoop rounds (left - chunk.length) (got ++ chunk)
    else pure got

/-- Only a buffer of 2³¹ bytes or more can stay unfilled; it is one that is zero
before. -/
def unserialReader (r : Fill) : ConnM Bytes := do
  let left := toInt r.size
  let got ← recvLoop left.toNat left []
  pure (got ++ List.replicate (r.size - got.length) 0)

/-- The loop of `serial_writer`, which has still `buf` to send, or as much of it
as `left` says. -/
def sendLoop : Nat → Int → Bytes → ConnM Unit
  | 0, _, _ => pure ()
  | rounds + 1, left, buf =>
    if left > 0 then do
      let sentSize ← Prog.ask (ConnReq.sendBytes (buf.take left.toNat))
      if sentSize ≤ 0 then Prog.throw sendFailed
      else do
        Prog.assert (sentSize ≤ left)
        sendLoop rounds (left - sentSize) (buf.drop sentSize.toNat)
    else pure ()

def serialWriter (buf : Bytes) : ConnM Unit := sendLoop (toInt buf.length).toNat (toInt buf.length) buf

def writeAll : List Bytes → ConnM Unit
  | [] => pure ()
  | buf :: bufs => do
    serialWriter buf
    writeAll bufs

def nfsRoot : Str := "./nfs_root".toList.map fun c => c.toNat.toUInt8

/-- The body of the loop. -/
def serveOne : ConnM Unit := do
  let msg ← (unserializeMsg ()).handle (withMemory unserialReader)
  let respMsg ← onConn (respond nfsRoot msg)
  writeAll (serializeMsg respMsg)

/-- The loop. It only ends with an exception; a failed check stands for a run
of more than `rounds` rounds. -/
def serveLoop : Nat → ConnM Unit
  | 0 => Prog.check none
  | rounds + 1 => do
    serveOne
    serveLoop rounds

/-- The exception is caught and printed. -/
def run (rounds : Nat) : ConnM Unit := (serveLoop rounds).swallow

/-- What the client has sent and will send until it closes, what has been sent
to it, and the host. -/
structure Conn (K : Type) where
  input : Bytes
  output : Bytes
  host : K

/-! ## The buffers a message is sent in -/

section
variable {lim : Nat → Bool}

/-- All buffers are within the limit. -/
def Within (lim : Nat → Bool) (bufs : List Bytes) : Prop := ∀ buf ∈ bufs, lim buf.length

theorem Within.append {bufs bufs' : List Bytes} (h : Within lim bufs) (h' : Within lim bufs') :
    Within lim (bufs ++ bufs') := List.forall_mem_append.mpr ⟨h, h'⟩

theorem within_tail {b : Bytes} (h : lim b.length) : Within lim (if b.length > 0 then [b] else []) := by
  split
  · exact List.forall_mem_singleton.mpr h
  · exact nofun

variable (hlim : Roomy lim)
include hlim

theorem within_pod {α : Type} [Pod α] {a : α} (hsize : Pod.size α ≤ 64) : Within lim (serializePod a) := by
  refine List.forall_mem_singleton.mpr ?_
  rw [Pod.length_toBytes]
  exact hlim _ hsize

theorem within_string {str : Str} (h : StrFits lim str) : Within lim (serializeString str) :=
  (within_pod hlim (by decide)).append (within_tail h.2)

theorem within_vectorChar {vec : Bytes} (h : VecFits lim vec) : Within lim (serializeVectorChar vec) :=
  (within_pod hlim (by decide)).append (within_tail h.2)

theorem within_strings {strs : List Str} (h : ∀ str ∈ strs, StrFits lim str) :
    Within lim (serializeVector strs serializeString) := by
  refine (within_pod hlim (by decide)).append fun buf hb => ?_
  obtain ⟨str, hs, hb⟩ := List.mem_flatMap.mp hb
  exact within_string hlim (h str hs) buf hb

theorem within_named {id : Int32} {filename : Str} (h : StrFits lim filename) :
    Within lim (serializeNamed id filename) :=
  (within_pod hlim (by decide)).append (within_string hlim h)

theorem within_error {id error : Int32} : Within lim (serializeError id error) :=
  (within_pod hlim (by decide)).append (within_pod hlim (by decide))

theorem within_change {id error : Int32} {before after : FileTime} :
    Within lim (serializeChange id error before after) :=
  ((within_error hlim).append (within_pod hlim (by decide))).append (within_pod hlim (by decide))

/-- The buffers of a message that fits are within the limit. -/
theorem Msg.Fits.within {m : Msg} (h : m.Fits lim) : Within lim (serializeMsg m) := by
  refine (within_pod hlim (by decide)).append ?_
  cases m with
  | statfs => exact within_pod hlim (by decide)
  | access | create | stat | readdir | unlink | rmdir => exact within_named hlim h
  | createResp | unlinkResp | rmdirResp | mkdirResp | renameResp => exact within_error hlim
  | accessResp | statfsResp | statResp => exact (within_error hlim).append (within_pod hlim (by decide))
  | writeResp | truncateResp => exact within_change hlim
  | readdirResp => exact (within_error hlim).append (within_strings hlim h.2)
  | readResp => exact (within_error hlim).append (within_vectorChar hlim h)
  | truncate | mkdir => exact (within_named hlim h).append (within_pod hlim (by decide))
  | read => exact ((within_named hlim h).append (within_pod hlim (by decide))).append (within_pod hlim (by decide))
  | write =>
    exact ((within_named hlim h.1).append (within_pod hlim (by decide))).append (within_vectorChar hlim h.2)
  | rename =>
    exact ((within_named hlim h.1).append (within_string hlim h.2)).append (within_pod hlim (by decide))

end

/-! ## The world of a connection -/

section
variable {K : Type}

/-- How `H` answers a responder's requests. -/
def HostServe (H : K → (c : HostCall) → c.Ans → K → Prop) (k : K) : (r : OpReq) → r.Ans → K → Prop
  | .host c, a, k' => H k c a k'
  | .uninit, _, k' => k' = k

/-- The socket moves at least one byte at a time, or tells that the client has
closed. -/
def Conn.Serve (H : K → (c : HostCall) → c.Ans → K → Prop) (C : Conn K) : (r : ConnReq) → r.Ans → Conn K → Prop
  | .receiveBytes n, chunk, C' => chunk <+: C.input ∧ chunk.length ≤ n ∧ (chunk = [] → C.input = []) ∧
      C' = { C with input := C.input.drop chunk.length }
  | .sendBytes buf, n, C' => 0 < n ∧ n ≤ buf.length ∧ C' = { C with output := C.output ++ buf.take n.toNat }
  | .op r, a, C' => HostServe H C.host r a C'.host ∧ C'.input = C.input ∧ C'.output = C.output

/-! ## Moving bytes -/

/-- What an `int` counts. -/
def narrow (n : Nat) : Bool := n < 2 ^ 31

theorem toInt_of_narrow {n : Nat} (h : narrow n) : toInt n = n := by
  have hn : n < 2 ^ 31 := of_decide_eq_true h
  have hm : ((2 ^ 32 : Nat) : Int) = 4294967296 := rfl
  rw [toInt, Int.bmod_def, hm]
  split <;> omega

-- A loop of the model would otherwise be unfolded as far as a count of 2³².
seal toInt

variable {H : K → (c : HostCall) → c.Ans → K → Prop} {errno : Int} {C : Conn K}

theorem recvLoop_wp : ∀ (rounds : Nat) {left : Nat} {got : Bytes} {C : Conn K},
    left ≤ rounds → left ≤ C.input.length →
    ((recvLoop rounds left got) errno).wp (Env.solo (Conn.Serve H)) (Returns fun b e C' =>
      b = got ++ C.input.take left ∧ e = errno ∧ C' = { C with input := C.input.drop left }) C
  | 0, left, got, C, hr, _ => by
    obtain rfl : left = 0 := by omega
    exact ⟨by simp, rfl, rfl⟩
  | rounds + 1, left, got, C, hr, hle => by
    rw [recvLoop]
    split
    · rename_i hpos
      refine wp_bind.mpr ⟨trivial, ?_⟩
      rintro _ rfl chunk C' ⟨⟨rest, hrest⟩, hlen, hend, rfl⟩
      have hlen : chunk.length ≤ left := hlen
      have hne : chunk.length ≠ 0 := by
        intro h0
        have hnil := hend (List.eq_nil_of_length_eq_zero h0)
        rw [hnil, List.length_nil] at hle
        omega
      show Act.wp _ _ ((if chunk.length = 0 then _ else _ : ConnM Bytes) errno) _
      rw [if_neg hne]
      refine wp_bind.mpr ((wp_assert (by omega)).mpr ?_)
      have hsub : (left : Int) - chunk.length = (left - chunk.length : Nat) := by omega
      show Act.wp _ _ (recvLoop rounds (left - chunk.length) (got ++ chunk) errno) _
      rw [hsub]
      refine (recvLoop_wp rounds (by omega) (by simp; omega)).returns ?_
      rintro _ _ _ ⟨rfl, rfl, rfl⟩
      have hin : C.input = chunk ++ rest := hrest.symm
      refine ⟨?_, rfl, ?_⟩
      · simp [hin, List.take_append, List.take_of_length_le hlen]
      · simp [hin, List.drop_append, List.drop_of_length_le hlen]
    · obtain rfl : left = 0 := by omega
      exact ⟨by simp, rfl, rfl⟩

/-- **The reader** fills a buffer of less than 2³¹ bytes. -/
theorem unserialReader_wp {r : Fill} {a v v' out : Bytes} {k : K} (h : exactly narrow v (.fill r) = some (a, v')) :
    ((unserialReader r) errno).wp (Env.solo (Conn.Serve H)) (Returns fun b e C' =>
      b = a ∧ e = errno ∧ C' = ⟨v', out, k⟩) ⟨v, out, k⟩ := by
  rw [exactly] at h
  split at h
  · rename_i hok
    obtain ⟨hnarrow, hle⟩ : narrow r.size ∧ r.size ≤ v.length := by simpa using hok
    cases h
    unfold unserialReader
    rw [toInt_of_narrow hnarrow, Int.toNat_natCast]
    refine wp_returns (recvLoop_wp r.size le_rfl hle) ?_
    rintro _ _ _ ⟨rfl, rfl, rfl⟩
    refine ⟨?_, rfl, rfl⟩
    simp [hle]
  · cases h

theorem sendLoop_wp : ∀ (rounds : Nat) {buf : Bytes} {C : Conn K}, buf.length ≤ rounds →
    ((sendLoop rounds buf.length buf) errno).wp (Env.solo (Conn.Serve H)) (Returns fun _ e C' =>
      e = errno ∧ C' = { C with output := C.output ++ buf }) C
  | 0, buf, C, hr => by
    obtain rfl : buf = [] := List.eq_nil_of_length_eq_zero (by omega)
    exact ⟨rfl, by simp⟩
  | rounds + 1, buf, C, hr => by
    rw [sendLoop]
    split
    · refine wp_bind.mpr ⟨trivial, ?_⟩
      rintro _ rfl n C' ⟨hpos, hle, rfl⟩
      obtain ⟨n, rfl⟩ := Int.eq_ofNat_of_zero_le (Int.le_of_lt hpos)
      rw [Int.toNat_natCast, List.take_length] at hle ⊢
      replace hpos : (0 : Int) < n := hpos
      replace hle : (n : Int) ≤ buf.length := hle
      show Act.wp _ _ ((if (n : Int) ≤ 0 then _ else _ : ConnM Unit) errno) _
      rw [if_neg (by omega)]
      refine wp_bind.mpr ((wp_assert (by omega)).mpr ?_)
      show Act.wp _ _ (sendLoop rounds (buf.length - n) (buf.drop n) errno) _
      have hsub : (buf.length : Int) - n = ((buf.drop n).length : Nat) := by simp; omega
      rw [hsub]
      refine (sendLoop_wp rounds (by simp; omega)).returns ?_
      rintro _ _ _ ⟨rfl, rfl⟩
      exact ⟨rfl, by simp⟩
    · obtain rfl : buf = [] := List.eq_nil_of_length_eq_zero (by omega)
      exact ⟨rfl, by simp⟩

theorem writeAll_wp {bufs : List Bytes} (h : Within narrow bufs) :
    ((writeAll bufs) errno).wp (Env.solo (Conn.Serve H)) (Returns fun _ e C' =>
      e = errno ∧ C' = { C with output := C.output ++ bufs.flatten }) C := by
  induction bufs generalizing C with
  | nil => exact ⟨rfl, by simp⟩
  | cons buf bufs ih =>
    have hbuf : ((serialWriter buf) errno).wp (Env.solo (Conn.Serve H)) (Returns fun _ e C' =>
        e = errno ∧ C' = { C with output := C.output ++ buf }) C := by
      rw [serialWriter, toInt_of_narrow (h buf (List.mem_cons_self ..))]
      exact sendLoop_wp _ (by simp)
    refine wp_returns hbuf ?_
    rintro _ _ _ ⟨rfl, rfl⟩
    have hrest := ih (C := { C with output := C.output ++ buf }) fun b hb => h b (List.mem_cons_of_mem _ hb)
    simpa using hrest

/-! ## One request -/

theorem roomy_narrow : Roomy narrow := fun n hn => decide_eq_true (by omega)

/-- **A request is received** as it was sent. -/
theorem receive_wp {m : Msg} {t out : Bytes} {k : K} (h : m.Fits narrow) :
    ((unserializeMsg ()).handle (withMemory unserialReader) errno).wp (Env.solo (Conn.Serve H)) (Returns fun b e C' =>
      b = m ∧ e = errno ∧ C' = ⟨t, out, k⟩) ⟨m.encoding ++ t, out, k⟩ := by
  have hrun : (unserializeMsg ()).interpOr streamError (exactly narrow) (m.encoding ++ t) = ((), .ok m, t) :=
    Prod.ext rfl ((reads_msg roomy_narrow _ m t).mpr ⟨h, rfl⟩)
  refine wp_handle (R := fun v e (C' : Conn K) => e = errno ∧ C' = ⟨v, out, k⟩) ?_ (unserializeMsg ()) hrun ⟨rfl, rfl⟩
  rintro v q a v' _ _ hg ⟨rfl, rfl⟩
  cases q with
  | alloc n =>
    cases hg
    exact ⟨rfl, rfl, rfl⟩
  | fill r => exact unserialReader_wp hg

/-- **At the end** the client has closed. -/
theorem receive_closed {out : Bytes} {k : K} :
    ((unserializeMsg ()).handle (withMemory unserialReader) errno).wp (Env.solo (Conn.Serve H)) (fun e C' o =>
      o = .err clientClosed ∧ e = errno ∧ C' = ⟨[], out, k⟩) ⟨[], out, k⟩ := by
  have htag : (unserializeMsg ()).handle (withMemory unserialReader) = unserialReader ⟨false, 4⟩ >>= fun b =>
      (unserializorAt (Pod.ofBytes b) ()).handle (withMemory unserialReader) := rfl
  rw [htag, unserialReader]
  refine wp_bind.mpr (wp_bind.mpr ?_)
  rw [show ((4 : Nat) : Int) = (4 : Nat) from rfl, toInt_of_narrow (by decide)]
  refine wp_bind.mpr ⟨trivial, ?_⟩
  rintro _ rfl chunk C' ⟨hpre, -, -, rfl⟩
  obtain rfl : chunk = [] := List.prefix_nil.mp hpre
  exact ⟨rfl, rfl, rfl⟩

/-- What the responder does, it does to the host only. -/
theorem respond_wp {m : Msg} {k : K} {input out : Bytes} (h : m.Issued) (hread : narrow m.asksFor) :
    ((onConn (respond nfsRoot m)) errno).wp (Env.solo (Conn.Serve H)) (Returns fun resp e C' =>
      Answers m resp ∧ resp.Fits narrow ∧ C'.input = input ∧ C'.output = out ∧
        Exec (HostServe H) (respond nfsRoot m errno) k e (.ok resp) C'.host) ⟨input, out, k⟩ := by
  refine wp_lift.mpr (wp_of_exec fun e o C' hx => ?_)
  have hlim : ∀ n, n < 256 → narrow n := fun n hn => decide_eq_true (by omega)
  have hless : ∀ n ≤ m.asksFor, narrow n := fun n hn =>
    decide_eq_true (Nat.lt_of_le_of_lt hn (of_decide_eq_true hread))
  obtain ⟨resp, rfl, hans, hfits⟩ := (respond_yields h hlim hless errno).exec hx
  have hio : C'.input = input ∧ C'.output = out := by
    refine hx.keeps (P := fun C => C.input = input ∧ C.output = out) ?_ ⟨rfl, rfl⟩
    rintro w r a w' ⟨_, ⟨-, hin, hout⟩, -⟩ hw
    exact ⟨hin.trans hw.1, hout.trans hw.2⟩
  refine ⟨hans, hfits, hio.1, hio.2, hx.map Conn.host ?_⟩
  rintro w r a w' ⟨_, ⟨hs, -⟩, rfl⟩
  exact hs

/-- **One round** of the loop. -/
theorem serveOne_wp {m : Msg} {k : K} {t out : Bytes} (h : m.Issued) (hfits : m.Fits narrow)
    (hread : narrow m.asksFor) :
    ((serveOne) errno).wp (Env.solo (Conn.Serve H)) (Returns fun _ e C' => ∃ resp, Answers m resp ∧
      C'.input = t ∧ C'.output = out ++ resp.encoding ∧
        Exec (HostServe H) (respond nfsRoot m errno) k e (.ok resp) C'.host) ⟨m.encoding ++ t, out, k⟩ := by
  refine wp_returns (receive_wp hfits) ?_
  rintro _ _ _ ⟨rfl, rfl, rfl⟩
  refine wp_returns (respond_wp h hread) ?_
  rintro e C' resp ⟨hans, hfits', hin, hout, hx⟩
  refine (writeAll_wp (hfits'.within roomy_narrow)).returns ?_
  rintro _ _ _ ⟨rfl, rfl⟩
  exact ⟨resp, hans, hin, by rw [← hout]; rfl, hx⟩

/-! ## The whole connection -/

/-- The responders, one after the other: the requests and their responses. -/
inductive Answered (H : K → (c : HostCall) → c.Ans → K → Prop) : Int → K → List Msg → List Msg → Int → K → Prop
  | nil : Answered H e k [] [] e k
  | cons : Exec (HostServe H) (respond nfsRoot m e) k e' (.ok resp) k' → Answered H e' k' reqs resps e'' k'' →
      Answered H e k (m :: reqs) (resp :: resps) e'' k''

/-- What the connection has to move for a request, an `int` can count. -/
def Msg.Short (m : Msg) : Prop := m.Fits narrow ∧ narrow m.asksFor

theorem serveLoop_wp : ∀ (reqs : List Msg) {rounds : Nat} {errno : Int} {out : Bytes} {k : K}, reqs.length < rounds →
    (∀ m ∈ reqs, m.Issued) → (∀ m ∈ reqs, m.Short) →
    ((serveLoop rounds) errno).wp (Env.solo (Conn.Serve H)) (fun e C' o => o = .err clientClosed ∧ C'.input = [] ∧
      ∃ resps, C'.output = out ++ resps.flatMap Msg.encoding ∧ List.Forall₂ Answers reqs resps ∧
        Answered H errno k reqs resps e C'.host) ⟨reqs.flatMap Msg.encoding, out, k⟩
  | [], 0, _, _, _, hr, _, _ => (Nat.not_lt_zero _ hr).elim
  | [], rounds + 1, errno, out, k, _, _, _ => by
    refine wp_bind.mpr (wp_bind.mpr (receive_closed.mono fun e C' o hQ => ?_))
    obtain ⟨rfl, rfl, rfl⟩ := hQ
    exact ⟨rfl, rfl, [], by simp, .nil, .nil⟩
  | m :: reqs, 0, _, _, _, hr, _, _ => (Nat.not_lt_zero _ hr).elim
  | m :: reqs, rounds + 1, errno, out, k, hr, hissued, hshort => by
    obtain ⟨hfits, hread⟩ := hshort m (List.mem_cons_self ..)
    refine wp_returns (serveOne_wp (hissued m (List.mem_cons_self ..)) hfits hread) ?_
    rintro e ⟨input, output, k'⟩ _ ⟨resp, hans, rfl, rfl, hx⟩
    refine (serveLoop_wp reqs (Nat.lt_of_succ_lt_succ hr) (fun q hq => hissued q (List.mem_cons_of_mem _ hq))
      fun q hq => hshort q (List.mem_cons_of_mem _ hq)).mono fun e' C' o hQ => ?_
    obtain ⟨ho, hin, resps, hout, hall, hrest⟩ := hQ
    exact ⟨ho, hin, resp :: resps, by simp [hout], .cons hans hall, .cons hx hrest⟩

end

/-- **The connection answers** every request, in order and with one response,
as long as an `int` counts the bytes it moves. -/
theorem requests_answered {K : Type} {H : K → (c : HostCall) → c.Ans → K → Prop} {reqs : List Msg} {rounds : Nat}
    {errno e : Int} {k : K} {o : Outcome Unit} {C' : Conn K} (hr : reqs.length < rounds)
    (hissued : ∀ m ∈ reqs, m.Issued) (hshort : ∀ m ∈ reqs, m.Short)
    (hx : Exec (Conn.Serve H) (run rounds errno) ⟨reqs.flatMap Msg.encoding, [], k⟩ e o C') :
    o = .ok () ∧ C'.input = [] ∧ ∃ resps, C'.output = resps.flatMap Msg.encoding ∧ List.Forall₂ Answers reqs resps ∧
      Answered H errno k reqs resps e C'.host := by
  refine Act.wp.exec (Q := fun e (C' : Conn K) o => o = .ok () ∧ C'.input = [] ∧ ∃ resps,
    C'.output = resps.flatMap Msg.encoding ∧ List.Forall₂ Answers reqs resps ∧
      Answered H errno k reqs resps e C'.host)
    (wp_swallow.mpr ((serveLoop_wp reqs hr hissued hshort).mono ?_)) hx
  rintro e C' _ ⟨rfl, hin, resps, hout, h⟩
  exact ⟨rfl, hin, resps, hout, h⟩

/-- A host that is out of space: it notes the first byte it is to write. -/
def fullDisk (k : Option UInt8) : (c : HostCall) → c.Ans × Option UInt8
  | .sys (.stat _) => (.ok ⟨0, 0, .epoch⟩, k)
  | .sys (.openW _) => (.ok 0, k)
  | .sys (.lseek _ offset) => (.ok offset, k)
  | .sys (.write _ buf) => (.error 28, buf.head?)
  | .sys (.close _) => (.ok (), k)
  | _ => (.error 28, k)

def FullDisk (k : Option UInt8) (c : HostCall) (a : c.Ans) (k' : Option UInt8) : Prop := (a, k') = fullDisk k c

/-- A socket that moves as much as it is asked to. -/
def deliver (C : Conn (Option UInt8)) : (r : ConnReq) → r.Ans × Conn (Option UInt8)
  | .receiveBytes n => (C.input.take n, { C with input := C.input.drop (C.input.take n).length })
  | .sendBytes buf => (buf.length, { C with output := C.output ++ buf })
  | .op .uninit => (⟨.epoch, .epoch, .epoch, ⟨0, 0, .epoch⟩, ⟨0, 0, 0, 0, 0, 0, 0, 0⟩⟩, C)
  | .op (.host c) => ((fullDisk C.host c).1, { C with host := (fullDisk C.host c).2 })

def ConnReq.moves : ConnReq → Bool
  | .receiveBytes n => 0 < n
  | .sendBytes buf => 0 < buf.length
  | .op _ => true

theorem deliver_serves (C : Conn (Option UInt8)) (r : ConnReq) (h : r.moves) :
    C.Serve FullDisk r (deliver C r).1 (deliver C r).2 := by
  cases r with
  | receiveBytes n =>
    refine ⟨List.take_prefix .., by simp [deliver], fun hnil => ?_, rfl⟩
    have hn : n ≠ 0 := by simp [ConnReq.moves] at h; omega
    simpa [deliver, hn] using hnil
  | sendBytes buf =>
    have hb : 0 < buf.length := by simpa [ConnReq.moves] using h
    refine ⟨?_, ?_, ?_⟩
    · show (0 : Int) < buf.length
      omega
    · exact le_rfl (a := (buf.length : Int))
    · simp [deliver]
  | op r =>
    cases r with
    | uninit => exact ⟨rfl, rfl, rfl⟩
    | host c => exact ⟨rfl, rfl, rfl⟩

/-- What such a connection does. -/
theorem exec_deliver (rounds : Nat) (C : Conn (Option UInt8))
    (h : ((run rounds 0).asked deliver C).all ConnReq.moves) :
    Exec (Conn.Serve FullDisk) (run rounds 0) C ((run rounds 0).interp deliver C).1
      ((run rounds 0).interp deliver C).2.1 ((run rounds 0).interp deliver C).2.2 :=
  (exec_interp (P := fun _ => True) (R := fun r => r.moves) (fun C r hr _ => ⟨deliver_serves C r hr, trivial⟩) _ _
    (by simpa using h) trivial).1

/-- A write of one byte. -/
theorem requests_answered_byte : ∃ e C', Exec (Conn.Serve FullDisk) (run 2 0)
    ⟨[Msg.write 1 [102] 0 [5]].flatMap Msg.encoding, [], none⟩ e (.ok ()) C' ∧ C'.input = [] ∧
      ∃ resps, C'.output = resps.flatMap Msg.encoding ∧ List.Forall₂ Answers [Msg.write 1 [102] 0 [5]] resps := by
  have hx := exec_deliver 2 ⟨[Msg.write 1 [102] 0 [5]].flatMap Msg.encoding, [], none⟩ (by decide +kernel)
  have hshort : ∀ m ∈ [Msg.write 1 [102] 0 [5]], m.Short := by
    simp [Msg.Short, Msg.Fits, StrFits, VecFits, narrow, Msg.asksFor]
  have h := requests_answered (by decide) (by simp [Msg.Issued]) hshort hx
  rw [h.1] at hx
  exact ⟨_, _, hx, h.2.1, h.2.2.imp fun _ h => ⟨h.1, h.2.1⟩⟩

/-- What is sent for a write of `n` ones. -/
def ones (n : Nat) : Bytes :=
  (serializePod MsgType.write.toUInt32 ++ (serializeNamed 1 [102] ++ serializePod (0 : Int64) ++
    serializePod (UInt64.ofNat n))).flatten ++ List.replicate n 1

theorem encoding_ones {n : Nat} (h : 0 < n) :
    [Msg.write 1 [102] 0 (List.replicate n 1)].flatMap Msg.encoding = ones n := by
  rw [List.flatMap_singleton, Msg.encoding, serializeMsg, Msg.serializeBody, serializeVectorChar,
    List.length_replicate, if_pos h, ← List.append_assoc _ _ [_], ← List.append_assoc, List.flatten_append,
    List.flatten_singleton]
  rfl

/-- **A write of 2³¹ bytes** is received as zeros, and what it was to write is
left to be taken for requests. -/
theorem long_write_lost : ∃ e C', Exec (Conn.Serve FullDisk) (run 2 0)
    ⟨[Msg.write 1 [102] 0 (List.replicate (2 ^ 31) 1)].flatMap Msg.encoding, [], none⟩ e (.ok ()) C' ∧
      C'.input ≠ [] ∧ C'.host = some 0 := by
  have hx := exec_deliver 2 ⟨ones (2 ^ 31), [], none⟩ (by decide +kernel)
  have ho : ((run 2 0).interp deliver ⟨ones (2 ^ 31), [], none⟩).2.1 = .ok () := by decide +kernel
  rw [ho] at hx
  rw [encoding_ones (by decide)]
  exact ⟨_, _, hx, by decide +kernel, by decide +kernel⟩

end Nfs
