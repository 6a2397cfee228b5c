/-
The client's half of the connection (`client_src/stream.hpp`, the ends of
the operations in `client_src/netfs.cpp`): how a request goes out and its
response comes in.

Every operation that sends a message does the same: it takes the next
message id, `sendMsg` hands the message to a `FILE` piece by piece and
flushes it, `recvMsg` reads a message, and the operation asserts that it is
the response it waits for. `exchange` is this part, once for all twelve
requests. The one difference is that `do_read` does not look at the id, but
at the length of the data.

The state of a program is the counter of the messages. Its overflow is
undefined, which is modelled as a failed check.
-/
import Mathlib.Algebra.Ring.Int.Defs
import Nfs.Lib.Layers
import Nfs.Connection

namespace Nfs

open PlainFile Resume Codec

/-! ## Streams -/

inductive IoReq
  /-- `fwrite(buf, 1, size, _f)` -/
  | fwrite (buf : Bytes)
  /-- `fflush(_f)` -/
  | fflush
  /-- `fread(buf, 1, size, _f)` -/
  | fread (r : Fill)

/-- What `fwrite` returns, and `ferror` after it. -/
structure FwriteRes where
  res : Nat
  ferror : Bool

/-- What `fread` has put into the buffer, `ferror` and `feof` after it, and
what the rest of a variable that is not initialised holds. -/
structure FreadRes where
  data : Bytes
  ferror : Bool
  feof : Bool
  junk : Bytes

abbrev IoReq.Ans : IoReq → Type
  | .fwrite _ => FwriteRes
  | .fflush => Int
  | .fread _ => FreadRes

abbrev WireM := Prog Int32 IoReq.Ans

/-- `std::system_error` -/
def systemError : Int := 5

namespace Wire

def FdWriter.write (buf : Bytes) : WireM Unit := do
  let w ← Prog.ask (IoReq.fwrite buf)
  if w.res < buf.length then do
    Prog.assert w.ferror
    Prog.throw systemError
  else
    Prog.assert (w.res = buf.length)

def FdWriter.flush : WireM Unit := do
  let res ← Prog.ask IoReq.fflush
  if res ≠ 0 then Prog.throw systemError else pure ()

/-- The buffer after the call; the number of bytes is not looked at. -/
def FdReader.read (r : Fill) : WireM Bytes := do
  let got ← Prog.ask (IoReq.fread r)
  if got.data.length < r.size then
    if got.ferror then Prog.throw systemError
    else do
      Prog.assert got.feof
      pure (got.data ++ if r.zeroed then List.replicate (r.size - got.data.length) 0 else got.junk)
  else do
    Prog.assert (got.data.length = r.size)
    pure got.data

def writeAll : List Bytes → WireM Unit
  | [] => pure ()
  | buf :: bufs => do
    FdWriter.write buf
    writeAll bufs

def sendMsg (msg : Msg) : WireM Unit := do
  writeAll (serializeMsg msg)
  FdWriter.flush

def recvMsg : WireM Msg := (unserializeMsg ()).handle (withMemory FdReader.read)

/-- `msg_id++` -/
def nextId : WireM Int32 := do
  let id ← Prog.get
  Prog.assert (id.toInt + 1 < 2 ^ 31)
  Prog.set (id + 1)
  pure id

end Wire

/-! ## Requests as messages -/

/-- The message an operation constructs; lengths and offsets are converted to
`int64_t`, a mode to `int32_t`. -/
def Req.msg (id : Int32) : Req → Msg
  | .access filename => .access id filename
  | .create filename => .create id filename
  | .stat filename => .stat id filename
  | .statfs => .statfs id
  | .readdir filename => .readdir id filename
  | .read filename offset size => .read id filename (Int64.ofNat offset) (Int64.ofNat size)
  | .write filename offset data => .write id filename (Int64.ofNat offset) data
  | .truncate filename offset => .truncate id filename (Int64.ofNat offset)
  | .unlink filename => .unlink id filename
  | .rmdir filename => .rmdir id filename
  | .mkdir filename mode => .mkdir id filename mode.toInt32
  | .rename fromName toName flags => .rename id fromName toName flags

/-- What is taken from the response, if the casts succeed and the data of a
read is not too long. -/
def Req.decode : (r : Req) → Msg → Option r.Resp
  | .access _, m => match m with
    | .accessResp _ error time => some { error := error.toInt, time := time }
    | _ => none
  | .create _, m => match m with
    | .createResp _ error => some { error := error.toInt }
    | _ => none
  | .stat _, m => match m with
    | .statResp _ error st =>
      some { error := error.toInt, size := st.size.toUInt64.toNat, mode := st.mode, time := st.time }
    | _ => none
  | .statfs, m => match m with
    | .statfsResp _ error st => some { error := error.toInt, stat := st }
    | _ => none
  | .readdir _, m => match m with
    | .readdirResp _ error dirNames => some { error := error.toInt, dirNames := dirNames }
    | _ => none
  | .read _ _ size, m => match m with
    | .readResp _ error data =>
      if h : data.length ≤ size then some { error := error.toInt, data := data, bound := h } else none
    | _ => none
  | .write .., m => match m with
    | .writeResp _ error before after =>
      some { error := error.toInt, beforeChange := before, afterChange := after }
    | _ => none
  | .truncate .., m => match m with
    | .truncateResp _ error before after =>
      some { error := error.toInt, beforeChange := before, afterChange := after }
    | _ => none
  | .unlink _, m => match m with
    | .unlinkResp _ error => some { error := error.toInt }
    | _ => none
  | .rmdir _, m => match m with
    | .rmdirResp _ error => some { error := error.toInt }
    | _ => none
  | .mkdir .., m => match m with
    | .mkdirResp _ error => some { error := error.toInt }
    | _ => none
  | .rename .., m => match m with
    | .renameResp _ error => some { error := error.toInt }
    | _ => none

/-- Whether the operation asserts `ptr->id == msg.id`. -/
def Req.checksId : Req → Bool
  | .read .. => false
  | _ => true

namespace Wire

/-- The second half of an exchange. -/
def receive (r : Req) (id : Int32) : WireM r.Resp := do
  let resp ← recvMsg
  let a ← Prog.check (r.decode resp)
  Prog.assert (r.checksId → resp.id = id)
  pure a

def exchange (r : Req) : WireM r.Resp := do
  let id ← nextId
  sendMsg (r.msg id)
  receive r id

variable {r : Req} {id : Int32}

theorem nextId_eq (h : id.toInt + 1 < 2 ^ 31) : nextId id = .done (id + 1) (.ok id) := by
  show ((Prog.assert (id.toInt + 1 < 2 ^ 31) >>= fun _ => Prog.set (id + 1) >>= fun _ => pure id : WireM Int32) id) = _
  rw [Prog.assert_pos h]
  rfl

/-- The first half of an exchange sends the request. -/
theorem exchange_eq (h : id.toInt + 1 < 2 ^ 31) :
    exchange r id = ((sendMsg (r.msg id)) (id + 1)).bind fun _ => receive r id := by
  show (nextId id).bind _ = _
  rw [nextId_eq h]
  rfl

/-- There is no next id. -/
theorem exchange_spent (h : ¬ id.toInt + 1 < 2 ^ 31) : exchange r id = .done id .fault := by
  have hnext : nextId id = .done id .fault := by
    show ((Prog.assert (id.toInt + 1 < 2 ^ 31) >>= fun _ => Prog.set (id + 1) >>= fun _ => pure id :
      WireM Int32) id) = _
    rw [Prog.assert_neg h]
    rfl
  show (nextId id).bind _ = _
  rw [hnext]
  rfl

end Wire

/-! ## Requests that get through

Their lengths go through an `int` on the server's side. -/

def Req.Sendable : Req → Prop
  | .statfs => True
  | .read filename _ size => filename.length < 2 ^ 31 ∧ 0 < size ∧ size < 2 ^ 31
  | .write filename _ data => filename.length < 2 ^ 31 ∧ data ≠ [] ∧ data.length < 2 ^ 31
  | .rename fromName toName _ => fromName.length < 2 ^ 31 ∧ toName.length < 2 ^ 31
  | .access filename => filename.length < 2 ^ 31
  | .create filename => filename.length < 2 ^ 31
  | .stat filename => filename.length < 2 ^ 31
  | .readdir filename => filename.length < 2 ^ 31
  | .truncate filename _ => filename.length < 2 ^ 31
  | .unlink filename => filename.length < 2 ^ 31
  | .rmdir filename => filename.length < 2 ^ 31
  | .mkdir filename _ => filename.length < 2 ^ 31

section
variable {r : Req} {id : Int32} {root : Str}

theorem strFits_narrow {str : Str} (h : str.length < 2 ^ 31) : StrFits narrow str :=
  ⟨by omega, decide_eq_true h⟩

theorem toNat_ofNat64 {n : Nat} (h : n < 2 ^ 63) : (Int64.ofNat n).toUInt64.toNat = n := by
  have hn : (Int64.ofNat n).toUInt64 = UInt64.ofNat n := rfl
  rw [hn, UInt64.toNat_ofNat', Nat.mod_eq_of_lt (by omega)]

theorem ofNat64_pos {n : Nat} (h0 : 0 < n) (h : n < 2 ^ 63) : (0 : Int64) < Int64.ofNat n := by
  rw [Int64.lt_iff_toInt_lt, Int64.toInt_ofNat_of_lt h]
  show (0 : Int) < n
  omega

/-- Such a request is one the connection answers. -/
theorem Req.Sendable.short (h : r.Sendable) : (r.msg id).Issued ∧ (r.msg id).Short := by
  cases r with
  | statfs => exact ⟨trivial, trivial, rfl⟩
  | read filename offset size =>
    obtain ⟨hf, h0, hs⟩ := h
    refine ⟨ofNat64_pos h0 (by omega), strFits_narrow hf, decide_eq_true ?_⟩
    show (Int64.ofNat size).toUInt64.toNat < _
    rwa [toNat_ofNat64 (by omega)]
  | write filename offset data =>
    obtain ⟨hf, hne, hd⟩ := h
    exact ⟨hne, ⟨strFits_narrow hf, by omega, decide_eq_true hd⟩, rfl⟩
  | rename fromName toName flags => exact ⟨trivial, ⟨strFits_narrow h.1, strFits_narrow h.2⟩, rfl⟩
  | _ => exact ⟨trivial, strFits_narrow h, rfl⟩

/-- What the client takes for the response to a request. -/
def Req.Accepts (r : Req) (id : Int32) (resp : Msg) : Prop :=
  ∃ a, r.decode resp = some a ∧ (r.checksId → resp.id = id)

/-- **The client accepts** whatever a responder returns for its request. -/
theorem respond_accepted (h : r.Sendable) : (respond root (r.msg id)).Yields (r.Accepts id) := by
  cases r with
  | access filename =>
    exact yields_ask.bind fun _ _ => (onOp_yields FileOp.access_yields).bind fun _ _ =>
      yields_pure ⟨_, rfl, fun _ => rfl⟩
  | statfs =>
    exact yields_ask.bind fun _ _ => (onOp_yields FileOp.statfs_yields).bind fun _ _ =>
      yields_pure ⟨_, rfl, fun _ => rfl⟩
  | stat filename =>
    exact yields_ask.bind fun _ _ => (onOp_yields FileOp.stat_yields).bind fun _ _ =>
      yields_pure ⟨_, rfl, fun _ => rfl⟩
  | readdir filename =>
    exact (onOp_yields FileOp.readdir_yields).bind fun _ _ => yields_pure ⟨_, rfl, fun _ => rfl⟩
  | read filename offset size =>
    obtain ⟨-, -, hs⟩ := h
    refine (onOp_yields FileOp.read_yields).bind fun d hd => yields_pure ⟨?_, ?_, nofun⟩
    · exact { error := (Int32.ofInt d.1).toInt, data := d.2, bound := by rwa [toNat_ofNat64 (by omega)] at hd }
    · rw [toNat_ofNat64 (by omega)] at hd
      exact dif_pos hd
  | write filename offset data =>
    exact (yields_assert h.2.1).bind fun _ _ =>
      respondChange_yields (fun _ _ => FileOp.write_yields) fun _ _ _ => ⟨_, rfl, fun _ => rfl⟩
  | truncate filename offset =>
    exact respondChange_yields (fun _ _ => FileOp.truncate_yields) fun _ _ _ => ⟨_, rfl, fun _ => rfl⟩
  | create filename => exact respondError_yields FileOp.creat_yields fun _ => ⟨_, rfl, fun _ => rfl⟩
  | unlink filename => exact respondError_yields FileOp.plainly_yields fun _ => ⟨_, rfl, fun _ => rfl⟩
  | rmdir filename => exact respondError_yields FileOp.plainly_yields fun _ => ⟨_, rfl, fun _ => rfl⟩
  | mkdir filename mode => exact respondError_yields FileOp.plainly_yields fun _ => ⟨_, rfl, fun _ => rfl⟩
  | rename fromName toName flags => exact respondError_yields FileOp.plainly_yields fun _ => ⟨_, rfl, fun _ => rfl⟩

end

/-! ## What the client does to its streams -/

/-- The client writes what is left of a message, and flushes. -/
def Puts (u : Bytes) : (q : IoReq) → q.Ans → Bytes → Prop
  | .fwrite buf, a, u' => a = ⟨buf.length, false⟩ ∧ u = buf ++ u'
  | .fflush, a, u' => a = 0 ∧ u' = u
  | .fread _, _, _ => False

/-- The client reads what is left of a message; the flush of the one it has
written may still be to come. -/
def Gets (u : Bytes) : (q : IoReq) → q.Ans → Bytes → Prop
  | .fread r, a, u' => r.size ≤ u.length ∧ a = ⟨u.take r.size, false, false, []⟩ ∧ u' = u.drop r.size
  | .fflush, a, u' => a = 0 ∧ u' = u
  | .fwrite buf, a, u' => a = ⟨buf.length, false⟩ ∧ buf = [] ∧ u' = u

section
variable {t : Int32} {u : Bytes}

theorem Wire.writeAll_must (bufs : List Bytes) :
    ((Wire.writeAll bufs) t).Must Puts (Returns fun _ t' u' => t' = t ∧ u' = u) (bufs.flatten ++ u) := by
  induction bufs with
  | nil => exact ⟨rfl, rfl⟩
  | cons buf bufs ih =>
    have hbuf : ((Wire.FdWriter.write buf) t).Must Puts (Returns fun _ t' u' => t' = t ∧ u' = bufs.flatten ++ u)
        ((buf :: bufs).flatten ++ u) := by
      refine ⟨⟨_, bufs.flatten ++ u, rfl, by simp⟩, fun a u' ha => ?_⟩
      obtain ⟨rfl, hu⟩ := ha
      have hu : bufs.flatten ++ u = u' := by simpa using hu
      show Act.Must _ _ ((if buf.length < buf.length then _ else Prog.assert (buf.length = buf.length) :
        WireM Unit) t) u'
      rw [if_neg (Nat.lt_irrefl _), Prog.assert_pos rfl]
      exact ⟨rfl, hu.symm⟩
    refine must_returns hbuf fun t' u' _ h => ?_
    obtain ⟨rfl, rfl⟩ := h
    exact ih

/-- **A message goes out** as it is encoded. -/
theorem Wire.sendMsg_must {m : Msg} :
    ((Wire.sendMsg m) t).Must Puts (Returns fun _ t' u' => t' = t ∧ u' = []) m.encoding := by
  have h := Wire.writeAll_must (t := t) (u := []) (serializeMsg m)
  rw [List.append_nil] at h
  refine must_returns h fun t' u' _ hu => ⟨⟨0, u', rfl, rfl⟩, fun a u'' ha => ?_⟩
  obtain ⟨rfl, rfl⟩ := ha
  exact hu

theorem Wire.read_must {f : Fill} {a v v' : Bytes} (h : exactly anyLength v (.fill f) = some (a, v')) :
    ((Wire.FdReader.read f) t).Must Gets (Returns fun b t' u => b = a ∧ t' = t ∧ u = v') v := by
  rw [exactly] at h
  split at h
  · rename_i hok
    have hle : f.size ≤ v.length := by simpa [anyLength] using hok
    cases h
    refine ⟨⟨_, _, hle, rfl, rfl⟩, fun got u' hg => ?_⟩
    obtain ⟨-, rfl, rfl⟩ := hg
    have hlen : (v.take f.size).length = f.size := List.length_take_of_le hle
    show Act.Must _ _ ((if (v.take f.size).length < f.size then _ else _ : WireM Bytes) t) _
    rw [if_neg (by omega)]
    show Act.Must _ _ ((Prog.assert ((v.take f.size).length = f.size) >>= fun _ => pure (v.take f.size) :
      WireM Bytes) t) _
    rw [Prog.assert_pos hlen]
    exact ⟨rfl, rfl, rfl⟩
  · cases h

/-- **A response comes in** as it was sent, and is accepted. -/
theorem Wire.receive_must {r : Req} {id : Int32} {resp : Msg} {a : r.Resp} (hfits : resp.Fits anyLength)
    (ha : r.decode resp = some a) (hid : r.checksId → resp.id = id) :
    ((Wire.receive r id) t).Must Gets (Returns fun b t' u => b = a ∧ t' = t ∧ u = []) resp.encoding := by
  have hrun : (unserializeMsg ()).interpOr streamError (exactly anyLength) resp.encoding = ((), .ok resp, []) :=
    Prod.ext rfl ((reads_msg roomy_anyLength _ resp []).mpr ⟨hfits, by simp⟩)
  have hrecv : (Wire.recvMsg t).Must Gets (Returns fun b t' u => b = resp ∧ t' = t ∧ u = []) resp.encoding := by
    refine must_handle (R := fun v t' u => t' = t ∧ u = v) ?_ (unserializeMsg ()) hrun ⟨rfl, rfl⟩
    intro v q b v' t' u hg hR
    obtain ⟨rfl, rfl⟩ := hR
    cases q with
    | alloc n =>
      cases hg
      exact ⟨rfl, rfl, rfl⟩
    | fill f => exact Wire.read_must hg
  refine must_returns hrecv fun t' u b hb => ?_
  obtain ⟨rfl, rfl, rfl⟩ := hb
  show Act.Must _ _ ((Prog.check (r.decode b) >>= fun a => Prog.assert (r.checksId → b.id = id) >>= fun _ => pure a :
    WireM r.Resp) t') _
  rw [ha, Prog.assert_pos hid]
  exact ⟨rfl, rfl, rfl⟩

end

end Nfs
