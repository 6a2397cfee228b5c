/-
How the client receives a message (`client_src/stream.hpp`,
`NetFS::recvMsg`), in particular from a connection that has been cut.

`FdReader::read` reports the end of the stream by a return value that is
smaller than what was asked for. `recvMsg` wraps it in a function without a
result, so nothing is reported to `unserializeMsg`: a buffer keeps what it
held before, zeros for strings and vectors, anything for plain variables.
A length that is not received is one of these, so there may be no memory for
what it announces; this raises an exception, like an unknown tag.
-/
import Nfs.Framing

namespace Nfs

open PlainFile Resume Codec

/-- A stream that is going to end: what it still delivers, and what
uninitialised variables happen to hold, one byte after the other. -/
structure FdStream where
  left : Bytes
  junk : Nat → UInt8

/-- `FdReader::read` at a stream without errors, called for a buffer: how much
was read is not looked at. -/
def FdReader.read (w : FdStream) (r : Fill) : Bytes × FdStream :=
  let got := w.left.take r.size
  let missing := r.size - got.length
  if r.zeroed then (got ++ List.replicate missing 0, { w with left := w.left.drop r.size })
  else (got ++ (List.range missing).map w.junk,
    { left := w.left.drop r.size, junk := fun i => w.junk (missing + i) })

/-- Whether a string or a vector of `n` bytes can be made: it is not longer than
`max_size`, and `operator new` has `room` for it. -/
def allocates (room : Nat → Bool) (n : Nat) : Bool := n < 2 ^ 63 && room n

namespace NetFS

section
variable (room : Nat → Bool) (w : FdStream)

def recvMsg : Outcome Msg × FdStream := ((unserializeMsg ()).interp (filling (allocates room) FdReader.read) w).2

/-- `do_read`, once the request is sent: the data it returns with 0, or an
error. -/
def recvRead (size : Nat) : Outcome Bytes :=
  match (recvMsg room w).1 with
  | .ok (.readResp _ error data) =>
    if h : data.length ≤ size then
      let ans := doRead { error := error.toInt, data := data, bound := h }
      if ans.err ≠ 0 then .err ans.err else .ok ans.data
    else .fault
  | .ok _ => .fault
  | .err e => .err e
  | .fault => .fault

end

end NetFS

/-! ## What a message needs -/

/-- The sizes of the strings and vectors of a message, in bytes. -/
def Msg.buffers : Msg → List Nat
  | .access _ filename => [filename.length]
  | .create _ filename => [filename.length]
  | .stat _ filename => [filename.length]
  | .readdir _ filename => [filename.length]
  | .readdirResp _ _ dirNames => sizeofString * dirNames.length :: dirNames.map List.length
  | .read _ filename _ _ => [filename.length]
  | .readResp _ _ data => [data.length]
  | .write _ filename _ data => [filename.length, data.length]
  | .truncate _ filename _ => [filename.length]
  | .unlink _ filename => [filename.length]
  | .rmdir _ filename => [filename.length]
  | .mkdir _ filename _ => [filename.length]
  | .rename _ fromName toName _ => [fromName.length, toName.length]
  | _ => []

section
variable {α β : Type} {p : Reader α} {S : β → List Nat → Prop} {need : α → List Nat}

theorem needs_pod [Pod α] : Needs (unserializePod α) fun _ l => l = [] :=
  (needs_fill (S := fun _ l => l = []) fun _ _ => rfl).then_ fun _ => needs_pure rfl

/-- Plain variables take no memory. -/
theorem needs_pod_bind [Pod α] {f : α → Reader β} (hf : ∀ a, Needs (f a) S) : Needs (unserializePod α >>= f) S :=
  needs_pod.then_ hf

/-- A length, and then as many bytes. -/
theorem needs_counted [Pod α] (size : α → Nat) :
    Needs (do let n ← unserializePod α; alloc (size n); if size n > 0 then fill ⟨true, size n⟩ else pure [])
      fun b l => l = [b.length] := by
  refine needs_pod_bind fun n => (needs_alloc (S := fun _ l => l = [size n]) rfl).then_ fun _ => ?_
  split
  · exact needs_fill fun b hb => by rw [hb]; rfl
  · rename_i h0
    refine needs_pure ?_
    simp only [gt_iff_lt, not_lt, Nat.le_zero] at h0
    rw [h0]
    rfl

theorem needs_string : Needs unserializeString fun str l => l = [str.length] := needs_counted UInt32.toNat

theorem needs_vectorChar : Needs unserializeVectorChar fun vec l => l = [vec.length] := needs_counted UInt64.toNat

theorem needs_vector {sizeofT : Nat} (hp : Needs p fun a l => l = need a) :
    Needs (unserializeVector sizeofT p) fun vec l => l = sizeofT * vec.length :: vec.flatMap need := by
  refine needs_pod_bind fun n => (needs_alloc (S := fun _ l => l = [sizeofT * n.toNat]) rfl).then_ fun _ => ?_
  refine (hp.times n.toNat).imp fun vec l hl => ?_
  obtain ⟨hlen, rfl⟩ := hl
  rw [hlen]
  rfl

end

/-- **What a body needs** are the strings and vectors of its message. -/
theorem needs_body (ty : MsgType) : Needs (unserializorLookup ty) fun m l => m.type = ty ∧ l = m.buffers := by
  cases ty with
  | access | create | stat | readdir | unlink | rmdir =>
    exact needs_pod_bind fun _ => needs_string.then_ fun _ => needs_pure ⟨rfl, rfl⟩
  | createResp | unlinkResp | rmdirResp | mkdirResp | renameResp =>
    exact needs_pod_bind fun _ => needs_pod_bind fun _ => needs_pure ⟨rfl, rfl⟩
  | writeResp | truncateResp =>
    exact needs_pod_bind fun _ => needs_pod_bind fun _ => needs_pod_bind fun _ => needs_pod_bind fun _ =>
      needs_pure ⟨rfl, rfl⟩
  | accessResp | statfsResp | statResp =>
    exact needs_pod_bind fun _ => needs_pod_bind fun _ => needs_pod_bind fun _ => needs_pure ⟨rfl, rfl⟩
  | readdirResp =>
    refine needs_pod_bind fun _ => needs_pod_bind fun _ => (needs_vector needs_string).then_ fun vec =>
      needs_pure ⟨rfl, ?_⟩
    rw [Msg.buffers, List.map_eq_flatMap, List.append_nil]
  | readResp =>
    exact needs_pod_bind fun _ => needs_pod_bind fun _ => needs_vectorChar.then_ fun _ => needs_pure ⟨rfl, rfl⟩
  | statfs => exact needs_pod_bind fun _ => needs_pure ⟨rfl, rfl⟩
  | read =>
    exact needs_pod_bind fun _ => needs_string.then_ fun _ => needs_pod_bind fun _ => needs_pod_bind fun _ =>
      needs_pure ⟨rfl, rfl⟩
  | write =>
    exact needs_pod_bind fun _ => needs_string.then_ fun _ => needs_pod_bind fun _ => needs_vectorChar.then_ fun _ =>
      needs_pure ⟨rfl, rfl⟩
  | truncate | mkdir =>
    exact needs_pod_bind fun _ => needs_string.then_ fun _ => needs_pod_bind fun _ => needs_pure ⟨rfl, rfl⟩
  | rename =>
    exact needs_pod_bind fun _ => needs_string.then_ fun _ => needs_string.then_ fun _ => needs_pod_bind fun _ =>
      needs_pure ⟨rfl, rfl⟩

/-! ## A connection that is cut -/

namespace FdStream

variable (w : FdStream)

/-- What plain variables are filled with, one byte after the other: what the
stream delivers, and then what they held. -/
def byte (i : Nat) : UInt8 := w.left[i]?.getD (w.junk (i - w.left.length))

variable {w}

theorem read_pod {n : Nat} : (FdReader.read w ⟨false, n⟩).1 = (List.range n).map w.byte := by
  refine List.ext_getElem (by simp [FdReader.read]) fun i _ h => ?_
  simp only [FdReader.read, Bool.false_eq_true, if_false, List.getElem_map, List.getElem_range, List.getElem_append,
    List.length_take, List.getElem_take, byte]
  simp only [List.length_map, List.length_range] at h
  split
  · rw [List.getElem?_eq_getElem (by omega)]
    rfl
  · rw [List.getElem?_eq_none (by omega), Nat.min_eq_right (by omega)]
    rfl

/-- What the next variable is filled with. -/
theorem byte_read {n i : Nat} : (FdReader.read w ⟨false, n⟩).2.byte i = w.byte (n + i) := by
  simp only [FdReader.read, Bool.false_eq_true, if_false, byte, List.length_drop, List.length_take,
    List.getElem?_drop]
  congr 2
  omega

end FdStream

/-- The message that is read if there is memory for anything. -/
def NetFS.decoded (w : FdStream) : Outcome Msg :=
  ((unserializeMsg ()).interp (filling (fun _ => true) FdReader.read) w).2.1

section
variable {w : FdStream} {p : Bytes} {junk : Nat → UInt8} {room : Nat → Bool}

/-- What the tag variable holds after it has been read. -/
def tagOf (w : FdStream) : UInt32 :=
  Pod.ofBytes (w.left.take 4 ++ (List.range (4 - (w.left.take 4).length)).map w.junk)

theorem length_read (w : FdStream) (r : Fill) : (FdReader.read w r).1.length = r.size := by
  unfold FdReader.read
  split <;> simp

theorem interp_unserializeMsg : (unserializeMsg ()).interp (filling room FdReader.read) w =
    (unserializorAt (tagOf w) ()).interp (filling room FdReader.read) (FdReader.read w ⟨false, 4⟩).2 := rfl

variable (room) in
/-- **The body**, if the tag is known. -/
theorem recvMsg_body {ty : MsgType} (hty : MsgType.ofUInt32 (tagOf w) = some ty) :
    ∃ m, m.type = ty ∧ NetFS.decoded w = .ok m ∧
      ((∃ e, (NetFS.recvMsg room w).1 = .err e) ↔ ∃ n ∈ m.buffers, allocates room n = false) := by
  have hat : unserializorAt (tagOf w) = unserializorLookup ty := by rw [unserializorAt, hty]
  obtain ⟨m, w', l, ⟨htype, rfl⟩, hm⟩ :=
    needs_body ty FdStream FdReader.read (FdReader.read w ⟨false, 4⟩).2 length_read
  refine ⟨m, htype, by rw [NetFS.decoded, interp_unserializeMsg, hat, (hm _).1 fun _ _ => rfl], ?_⟩
  rw [NetFS.recvMsg, interp_unserializeMsg, hat]
  by_cases hroom : ∀ n ∈ m.buffers, allocates room n
  · rw [(hm _).1 hroom]
    refine iff_of_false (fun h => ?_) fun h => ?_
    · obtain ⟨e, he⟩ := h
      cases he
    · obtain ⟨n, hn, hno⟩ := h
      rw [hroom n hn] at hno
      cases hno
  · have hno : ∃ n ∈ m.buffers, allocates room n = false := by simpa using hroom
    obtain ⟨w'', herr⟩ := (hm _).2 hno
    exact iff_of_true ⟨badAlloc, by rw [herr]⟩ hno

/-- What is noticed: an unknown tag, and memory that there is not. -/
theorem recvMsg_err_iff : (∃ e, (NetFS.recvMsg room w).1 = .err e) ↔ MsgType.ofUInt32 (tagOf w) = none ∨
    ∃ m, NetFS.decoded w = .ok m ∧ ∃ n ∈ m.buffers, allocates room n = false := by
  cases hty : MsgType.ofUInt32 (tagOf w) with
  | none =>
    refine iff_of_true ⟨outOfRange, ?_⟩ (.inl rfl)
    rw [NetFS.recvMsg, interp_unserializeMsg, unserializorAt, hty]
    rfl
  | some ty =>
    obtain ⟨m, -, hm, hiff⟩ := recvMsg_body room hty
    simp [hm, hiff]

/-- A buffer is as long as it should be. -/
theorem counted_length (n : Nat) : ∃ data w',
    ((if n > 0 then fill ⟨true, n⟩ else pure [] : Reader Bytes) ()).interp (filling room FdReader.read) w =
      ((), .ok data, w') ∧ data.length = n := by
  split
  · exact ⟨_, _, rfl, length_read w ⟨true, n⟩⟩
  · exact ⟨[], w, rfl, by rw [List.length_nil]; omega⟩

theorem vectorChar_length : ∃ data w',
    (unserializeVectorChar ()).interp (filling (fun _ => true) FdReader.read) w = ((), .ok data, w') ∧
      data.length = leVal ((List.range 8).map w.byte) := by
  have hlt : leVal ((List.range 8).map w.byte) < 2 ^ 64 :=
    Nat.lt_of_lt_of_eq (leVal_lt _) (by rw [List.length_map, List.length_range]; decide)
  have hsize : (Pod.ofBytes (FdReader.read w ⟨false, 8⟩).1 : UInt64).toNat = leVal ((List.range 8).map w.byte) := by
    rw [FdStream.read_pod]
    show (UInt64.ofNat _).toNat = _
    rw [UInt64.toNat_ofNat', Nat.mod_eq_of_lt hlt]
  rw [← hsize]
  exact counted_length _

/-- **The length of the data** of a read, as it is received and, where the cut
comes before its end, as the variable held it. -/
theorem decoded_length {id error : Int32} {data : Bytes} (h : NetFS.decoded w = .ok (.readResp id error data)) :
    data.length = leVal ((List.range 8).map fun i => w.byte (12 + i)) := by
  cases hty : MsgType.ofUInt32 (tagOf w) with
  | none =>
    rw [NetFS.decoded, interp_unserializeMsg, unserializorAt, hty] at h
    cases h
  | some ty =>
    obtain ⟨m, htype, hm, -⟩ := recvMsg_body (fun _ => true) hty
    cases h.symm.trans hm
    have hat : unserializorAt (tagOf w) = MsgReadResp.unserialize := by rw [unserializorAt, hty, ← htype]; rfl
    obtain ⟨data', w', hrun, hlen⟩ := vectorChar_length
      (w := (FdReader.read (FdReader.read (FdReader.read w ⟨false, 4⟩).2 ⟨false, 4⟩).2 ⟨false, 4⟩).2)
    have hresp : ∀ w : FdStream, ∃ make : Bytes → Msg, (∀ b, ∃ id error, make b = .readResp id error b) ∧
        (MsgReadResp.unserialize ()).interp (filling (fun _ => true) FdReader.read) w =
          ((unserializeVectorChar ()).bind fun b => pure (make b)).interp (filling (fun _ => true) FdReader.read)
            (FdReader.read (FdReader.read w ⟨false, 4⟩).2 ⟨false, 4⟩).2 := fun w => ⟨_, fun b => ⟨_, _, rfl⟩, rfl⟩
    obtain ⟨make, hmake, hmsg⟩ := hresp (FdReader.read w ⟨false, 4⟩).2
    rw [NetFS.decoded, interp_unserializeMsg, hat, hmsg, interp_bind, hrun] at h
    obtain ⟨id', error', hdata⟩ := hmake data'
    cases hdata.symm.trans (Outcome.ok.inj h)
    rw [hlen]
    refine congrArg leVal (List.map_congr_left fun i _ => ?_)
    rw [FdStream.byte_read, FdStream.byte_read, FdStream.byte_read]
    congr 1
    omega

theorem ofUInt32_eq_none {tag : UInt32} : MsgType.ofUInt32 tag = none ↔ 24 ≤ tag.toNat := List.getElem?_eq_none_iff

/-- The tag of a message whose first four bytes have arrived. -/
theorem tagOf_prefix {m : Msg} (hp : p <+: m.encoding) (hlen : 4 ≤ p.length) :
    tagOf ⟨p, junk⟩ = m.type.toUInt32 := by
  have hfour : (Pod.toBytes m.type.toUInt32).length = 4 := Pod.length_toBytes _
  have htake : p.take 4 = Pod.toBytes m.type.toUInt32 := by
    obtain ⟨q, hq⟩ := hp
    have h : (p ++ q).take 4 = (Pod.toBytes m.type.toUInt32 ++ m.serializeBody.flatten).take 4 := by
      rw [hq]
      rfl
    rw [List.take_append_of_le_length hlen, List.take_left' hfour] at h
    exact h
  simp only [tagOf, htake, hfour, Nat.sub_self, List.range_zero, List.map_nil, List.append_nil, Pod.ofBytes_toBytes]

/-- The value of a tag that is only partly read. -/
theorem tagOf_short (hlen : p.length < 4) :
    (tagOf ⟨p, junk⟩).toNat = leVal (p ++ (List.range (4 - p.length)).map junk) := by
  have hlt := leVal_lt (p ++ (List.range (4 - p.length)).map junk)
  rw [List.length_append, List.length_map, List.length_range, Nat.add_sub_cancel' (by omega)] at hlt
  simp only [tagOf, List.take_of_length_le (Nat.le_of_lt hlen)]
  show (UInt32.ofNat _).toNat = _
  rw [UInt32.toNat_ofNat', Nat.mod_eq_of_lt (Nat.lt_of_lt_of_eq hlt (by decide))]

end

end Nfs
