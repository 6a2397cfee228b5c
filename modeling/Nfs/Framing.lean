/-
`unserializeMsg` accepts the encodings of messages and nothing else.

Everything is in one equivalence (`reads_msg`): over a stream that delivers
what is asked for or fails, `unserializeMsg` returns `m` and leaves `t` just
when the stream is the encoding of `m` followed by `t`, and the strings and
vectors of `m` are such that their lengths can be written down.
-/
import Nfs.Msg

namespace Nfs

open PlainFile Resume Codec

/-- The length of the string goes into its prefix, and through the limit. -/
def StrFits (lim : Nat → Bool) (str : Str) : Prop := str.length < 2 ^ 32 ∧ lim str.length

def VecFits (lim : Nat → Bool) (vec : Bytes) : Prop := vec.length < 2 ^ 64 ∧ lim vec.length

/-- The strings and vectors of a message fit. -/
def Msg.Fits (lim : Nat → Bool) : Msg → Prop
  | .access _ filename => StrFits lim filename
  | .create _ filename => StrFits lim filename
  | .stat _ filename => StrFits lim filename
  | .readdir _ filename => StrFits lim filename
  | .readdirResp _ _ dirNames => dirNames.length < 2 ^ 64 ∧ ∀ name ∈ dirNames, StrFits lim name
  | .read _ filename _ _ => StrFits lim filename
  | .readResp _ _ data => VecFits lim data
  | .write _ filename _ data => StrFits lim filename ∧ VecFits lim data
  | .truncate _ filename _ => StrFits lim filename
  | .unlink _ filename => StrFits lim filename
  | .rmdir _ filename => StrFits lim filename
  | .mkdir _ filename _ => StrFits lim filename
  | .rename _ fromName toName _ => StrFits lim fromName ∧ StrFits lim toName
  | _ => True

/-- No limit. -/
def anyLength : Nat → Bool := fun _ => true

/-! ## Bodies -/

section
variable {lim : Nat → Bool} {s t : Bytes} {m : Msg} (hlim : Roomy lim)
include hlim

theorem pod_bind {α β : Type} [Pod α] (hsize : Pod.size α ≤ 64) {f : α → Reader β} {b : β} :
    (unserializePod α >>= f).run lim s = (.ok b, t) ↔
      ∃ a u, s = Pod.toBytes a ++ u ∧ (f a).run lim u = (.ok b, t) := by
  rw [(reads_pod (hlim _ hsize)).bind]
  simp [serializePod]

theorem run_named {make : Int32 → Str → Msg} : (unserializeNamed make).run lim s = (.ok m, t) ↔
    ∃ id filename, StrFits lim filename ∧ make id filename = m ∧ s = (serializeNamed id filename).flatten ++ t := by
  simp only [unserializeNamed, pod_bind hlim (by decide : Pod.size Int32 ≤ 64), (reads_string hlim).bind, run_pure_ok,
    serializeNamed, serializePod, List.singleton_append, List.flatten_cons, List.append_assoc]
  constructor
  · rintro ⟨id, u, rfl, filename, hf, v, rfl, rfl, rfl⟩
    exact ⟨id, filename, hf, rfl, rfl⟩
  · rintro ⟨id, filename, hf, rfl, rfl⟩
    exact ⟨id, _, rfl, filename, hf, _, rfl, rfl, rfl⟩

theorem run_error {make : Int32 → Int32 → Msg} : (unserializeError make).run lim s = (.ok m, t) ↔
    ∃ id error, make id error = m ∧ s = (serializeError id error).flatten ++ t := by
  simp only [unserializeError, pod_bind hlim (by decide : Pod.size Int32 ≤ 64), run_pure_ok, serializeError,
    serializePod, List.singleton_append, List.flatten_cons, List.flatten_nil, List.append_nil, List.append_assoc]
  constructor
  · rintro ⟨id, u, rfl, error, v, rfl, rfl, rfl⟩
    exact ⟨id, error, rfl, rfl⟩
  · rintro ⟨id, error, rfl, rfl⟩
    exact ⟨id, _, rfl, error, _, rfl, rfl, rfl⟩

theorem run_change {make : Int32 → Int32 → FileTime → FileTime → Msg} :
    (unserializeChange make).run lim s = (.ok m, t) ↔
      ∃ id error beforeChange afterChange, make id error beforeChange afterChange = m ∧
        s = (serializeChange id error beforeChange afterChange).flatten ++ t := by
  simp only [unserializeChange, pod_bind hlim (by decide : Pod.size Int32 ≤ 64),
    pod_bind hlim (by decide : Pod.size FileTime ≤ 64), run_pure_ok, serializeChange, serializePod,
    List.cons_append, List.nil_append, List.flatten_cons, List.flatten_nil, List.append_nil, List.append_assoc]
  constructor
  · rintro ⟨id, u₁, rfl, error, u₂, rfl, before, u₃, rfl, after, u₄, rfl, rfl, rfl⟩
    exact ⟨id, error, before, after, rfl, rfl⟩
  · rintro ⟨id, error, before, after, rfl, rfl⟩
    exact ⟨id, _, rfl, error, _, rfl, before, _, rfl, after, _, rfl, rfl, rfl⟩

theorem run_resp {α : Type} {field : Reader α} {ser : α → List Bytes} {ok : α → Prop} {make : Int32 → Int32 → α → Msg}
    (hf : Reads lim field (fun a => (ser a).flatten) ok) : (unserializeResp field make).run lim s = (.ok m, t) ↔
      ∃ id error a, ok a ∧ make id error a = m ∧
        s = (serializePod id ++ serializePod error ++ ser a).flatten ++ t := by
  simp only [unserializeResp, pod_bind hlim (by decide : Pod.size Int32 ≤ 64), hf.bind, run_pure_ok, serializePod,
    List.cons_append, List.nil_append, List.flatten_cons, List.append_assoc]
  constructor
  · rintro ⟨id, u₁, rfl, error, u₂, rfl, a, ha, u₃, rfl, rfl, rfl⟩
    exact ⟨id, error, a, ha, rfl, rfl⟩
  · rintro ⟨id, error, a, ha, rfl, rfl⟩
    exact ⟨id, _, rfl, error, _, rfl, a, ha, _, rfl, rfl, rfl⟩

theorem run_statfs : MsgStatfs.unserialize.run lim s = (.ok m, t) ↔
    ∃ id, .statfs id = m ∧ s = (serializePod id).flatten ++ t := by
  simp only [MsgStatfs.unserialize, pod_bind hlim (by decide : Pod.size Int32 ≤ 64), run_pure_ok, serializePod,
    List.flatten_cons, List.flatten_nil, List.append_nil]
  constructor
  · rintro ⟨id, u, rfl, rfl, rfl⟩
    exact ⟨id, rfl, rfl⟩
  · rintro ⟨id, rfl, rfl⟩
    exact ⟨id, _, rfl, rfl, rfl⟩

/-- A name and what `field` reads after it. -/
theorem run_named_bind {α : Type} {field : Reader α} {ser : α → List Bytes} {ok : α → Prop}
    {make : Int32 → Str → α → Msg} (hf : Reads lim field (fun a => (ser a).flatten) ok) :
    Reader.run lim (do
      let id ← unserializePod Int32
      let filename ← unserializeString
      let a ← field
      pure (make id filename a)) s = (.ok m, t) ↔
      ∃ id filename a, (StrFits lim filename ∧ ok a) ∧ make id filename a = m ∧
        s = (serializePod id ++ serializeString filename ++ ser a).flatten ++ t := by
  simp only [pod_bind hlim (by decide : Pod.size Int32 ≤ 64), (reads_string hlim).bind, hf.bind, run_pure_ok,
    serializePod, List.cons_append, List.nil_append, List.flatten_cons, List.flatten_append, List.append_assoc]
  constructor
  · rintro ⟨id, u₁, rfl, filename, hn, u₂, rfl, a, ha, u₃, rfl, rfl, rfl⟩
    exact ⟨id, filename, a, ⟨hn, ha⟩, rfl, rfl⟩
  · rintro ⟨id, filename, a, ⟨hn, ha⟩, rfl, rfl⟩
    exact ⟨id, _, rfl, filename, hn, _, rfl, a, ha, _, rfl, rfl, rfl⟩

/-- The same with two more fields. -/
theorem run_named_bind₂ {α β : Type} {field : Reader α} {ser : α → List Bytes} {ok : α → Prop} {field' : Reader β}
    {ser' : β → List Bytes} {ok' : β → Prop} {make : Int32 → Str → α → β → Msg}
    (hf : Reads lim field (fun a => (ser a).flatten) ok) (hf' : Reads lim field' (fun b => (ser' b).flatten) ok') :
    Reader.run lim (do
      let id ← unserializePod Int32
      let filename ← unserializeString
      let a ← field
      let b ← field'
      pure (make id filename a b)) s = (.ok m, t) ↔
      ∃ id filename a b, (StrFits lim filename ∧ ok a ∧ ok' b) ∧ make id filename a b = m ∧
        s = (serializePod id ++ serializeString filename ++ ser a ++ ser' b).flatten ++ t := by
  simp only [pod_bind hlim (by decide : Pod.size Int32 ≤ 64), (reads_string hlim).bind, hf.bind, hf'.bind,
    run_pure_ok, serializePod, List.cons_append, List.nil_append, List.flatten_cons, List.flatten_append,
    List.append_assoc]
  constructor
  · rintro ⟨id, u₁, rfl, filename, hn, u₂, rfl, a, ha, u₃, rfl, b, hb, u₄, rfl, rfl, rfl⟩
    exact ⟨id, filename, a, b, ⟨hn, ha, hb⟩, rfl, rfl⟩
  · rintro ⟨id, filename, a, b, ⟨hn, ha, hb⟩, rfl, rfl⟩
    exact ⟨id, _, rfl, filename, hn, _, rfl, a, ha, _, rfl, b, hb, _, rfl, rfl, rfl⟩

/-- **The lookup table** has the right reader for every tag. -/
theorem reads_body (ty : MsgType) : Reads lim (unserializorLookup ty) (fun m => m.serializeBody.flatten)
    fun m => m.type = ty ∧ m.Fits lim := by
  intro s m t
  have hpod : ∀ {α : Type} [Pod α], Pod.size α ≤ 64 →
      Reads lim (unserializePod α) (fun a => (serializePod a).flatten) fun _ => True := fun h => reads_pod (hlim _ h)
  cases ty with
  | access | create | stat | readdir | unlink | rmdir =>
    refine (run_named hlim).trans ⟨?_, ?_⟩
    · rintro ⟨id, filename, hf, rfl, rfl⟩
      exact ⟨⟨rfl, hf⟩, rfl⟩
    · rintro ⟨⟨hty, hf⟩, rfl⟩
      cases m <;> cases hty
      exact ⟨_, _, hf, rfl, rfl⟩
  | createResp | unlinkResp | rmdirResp | mkdirResp | renameResp =>
    refine (run_error hlim).trans ⟨?_, ?_⟩
    · rintro ⟨id, error, rfl, rfl⟩
      exact ⟨⟨rfl, trivial⟩, rfl⟩
    · rintro ⟨⟨hty, -⟩, rfl⟩
      cases m <;> cases hty
      exact ⟨_, _, rfl, rfl⟩
  | writeResp | truncateResp =>
    refine (run_change hlim).trans ⟨?_, ?_⟩
    · rintro ⟨id, error, before, after, rfl, rfl⟩
      exact ⟨⟨rfl, trivial⟩, rfl⟩
    · rintro ⟨⟨hty, -⟩, rfl⟩
      cases m <;> cases hty
      exact ⟨_, _, _, _, rfl, rfl⟩
  | accessResp | statfsResp | statResp =>
    refine (run_resp hlim (hpod (by decide))).trans ⟨?_, ?_⟩
    · rintro ⟨id, error, a, hf, rfl, rfl⟩
      exact ⟨⟨rfl, trivial⟩, rfl⟩
    · rintro ⟨⟨hty, hf⟩, rfl⟩
      cases m <;> cases hty
      exact ⟨_, _, _, trivial, rfl, rfl⟩
  | readdirResp =>
    refine (run_resp hlim (reads_vector hlim (reads_string hlim))).trans ⟨?_, ?_⟩
    · rintro ⟨id, error, dirNames, hf, rfl, rfl⟩
      exact ⟨⟨rfl, hf⟩, rfl⟩
    · rintro ⟨⟨hty, hf⟩, rfl⟩
      cases m <;> cases hty
      exact ⟨_, _, _, hf, rfl, rfl⟩
  | readResp =>
    refine (run_resp hlim (reads_vectorChar hlim)).trans ⟨?_, ?_⟩
    · rintro ⟨id, error, data, hf, rfl, rfl⟩
      exact ⟨⟨rfl, hf⟩, rfl⟩
    · rintro ⟨⟨hty, hf⟩, rfl⟩
      cases m <;> cases hty
      exact ⟨_, _, _, hf, rfl, rfl⟩
  | statfs =>
    refine (run_statfs hlim).trans ⟨?_, ?_⟩
    · rintro ⟨id, rfl, rfl⟩
      exact ⟨⟨rfl, trivial⟩, rfl⟩
    · rintro ⟨⟨hty, -⟩, rfl⟩
      cases m <;> cases hty
      exact ⟨_, rfl, rfl⟩
  | read =>
    refine (run_named_bind₂ hlim (hpod (by decide)) (hpod (by decide))).trans ⟨?_, ?_⟩
    · rintro ⟨id, filename, offset, size, hf, rfl, rfl⟩
      exact ⟨⟨rfl, hf.1⟩, rfl⟩
    · rintro ⟨⟨hty, hf⟩, rfl⟩
      cases m <;> cases hty
      exact ⟨_, _, _, _, ⟨hf, trivial, trivial⟩, rfl, rfl⟩
  | write =>
    refine (run_named_bind₂ hlim (hpod (by decide)) (reads_vectorChar hlim)).trans ⟨?_, ?_⟩
    · rintro ⟨id, filename, offset, data, hf, rfl, rfl⟩
      exact ⟨⟨rfl, hf.1, hf.2.2⟩, rfl⟩
    · rintro ⟨⟨hty, hf⟩, rfl⟩
      cases m <;> cases hty
      exact ⟨_, _, _, _, ⟨hf.1, trivial, hf.2⟩, rfl, rfl⟩
  | truncate | mkdir =>
    refine (run_named_bind hlim (hpod (by decide))).trans ⟨?_, ?_⟩
    · rintro ⟨id, filename, a, hf, rfl, rfl⟩
      exact ⟨⟨rfl, hf.1⟩, rfl⟩
    · rintro ⟨⟨hty, hf⟩, rfl⟩
      cases m <;> cases hty
      exact ⟨_, _, _, ⟨hf, trivial⟩, rfl, rfl⟩
  | rename =>
    refine (run_named_bind₂ hlim (reads_string hlim) (hpod (by decide))).trans ⟨?_, ?_⟩
    · rintro ⟨id, fromName, toName, flags, hf, rfl, rfl⟩
      exact ⟨⟨rfl, hf.1, hf.2.1⟩, rfl⟩
    · rintro ⟨⟨hty, hf⟩, rfl⟩
      cases m <;> cases hty
      exact ⟨_, _, _, _, ⟨hf.1, hf.2, trivial⟩, rfl, rfl⟩

end

/-! ## Messages -/

theorem MsgType.ofUInt32_eq_some {tag : UInt32} {ty : MsgType} : ofUInt32 tag = some ty ↔ tag = ty.toUInt32 := by
  have hback : ∀ ty : MsgType, ofUInt32 ty.toUInt32 = some ty := by
    intro ty
    cases ty <;> rfl
  have hnodup : MsgType.all.Nodup := by decide
  constructor
  · intro h
    obtain ⟨hlt, rfl⟩ := List.getElem?_eq_some_iff.mp h
    rw [toUInt32, hnodup.idxOf_getElem, UInt32.ofNat_toNat]
  · rintro rfl
    exact hback ty

/-- **What `unserializeMsg` accepts.** -/
theorem reads_msg {lim : Nat → Bool} (hlim : Roomy lim) : Reads lim unserializeMsg Msg.encoding (Msg.Fits lim) := by
  intro s m t
  rw [unserializeMsg, pod_bind hlim (by decide)]
  have hbody : ∀ (tag : UInt32) (u : Bytes), (unserializorAt tag).run lim u = (.ok m, t) ↔
      tag = m.type.toUInt32 ∧ m.Fits lim ∧ u = m.serializeBody.flatten ++ t := by
    intro tag u
    rw [← MsgType.ofUInt32_eq_some, unserializorAt]
    split
    · rename_i ty hty
      rw [reads_body hlim ty u m t, hty, Option.some.injEq, and_assoc, eq_comm (a := m.type)]
    · rename_i hno
      rw [hno]
      exact ⟨fun h => (by cases h), fun h => (by cases h.1)⟩
  simp only [hbody, Msg.encoding, serializeMsg, serializePod, List.singleton_append, List.flatten_cons,
    List.append_assoc]
  constructor
  · rintro ⟨tag, u, rfl, rfl, hfits, rfl⟩
    exact ⟨hfits, rfl⟩
  · rintro ⟨hfits, rfl⟩
    exact ⟨m.type.toUInt32, _, rfl, rfl, hfits, rfl⟩

theorem roomy_anyLength : Roomy anyLength := fun _ _ => rfl

/-- **Round trip.** `unserializeMsg` takes the encoding of a message from the
front of a stream, whatever follows, and messages that follow one another are
taken one by one. -/
theorem unserialize_serialize :
    (∀ m : Msg, m.Fits anyLength → ∀ rest : Bytes,
      unserializeMsg.run anyLength (m.encoding ++ rest) = (.ok m, rest)) ∧
    ∀ ms : List Msg, (∀ m ∈ ms, m.Fits anyLength) → ∀ rest : Bytes,
      (times ms.length unserializeMsg).run anyLength (ms.flatMap Msg.encoding ++ rest) = (.ok ms, rest) := by
  have hmsg := reads_msg roomy_anyLength
  exact ⟨fun m hm rest => (hmsg _ m rest).mpr ⟨hm, rfl⟩,
    fun ms hms rest => (hmsg.times ms.length _ ms rest).mpr ⟨⟨rfl, hms⟩, rfl⟩⟩

/-- A write, a directory with two names, and an unlink. -/
theorem unserialize_serialize_three :
    (times 3 unserializeMsg).run anyLength
        ([.write 7 [102] (-1) [1, 2, 3], .readdirResp 8 0 [[46], []], .unlink 9 [102]].flatMap Msg.encoding ++ [5]) =
      (.ok [.write 7 [102] (-1) [1, 2, 3], .readdirResp 8 0 [[46], []], .unlink 9 [102]], [5]) := by
  refine unserialize_serialize.2 [.write 7 [102] (-1) [1, 2, 3], .readdirResp 8 0 [[46], []], .unlink 9 [102]] ?_ [5]
  simp [Msg.Fits, StrFits, VecFits, anyLength]

/-- **Canonical decoding.** What `unserializeMsg` has taken from a stream is the
encoding of the message it returns. So the streams it accepts are those that
begin with the encoding of a message, and no message is taken from two
different encodings. -/
theorem unserialize_canonical :
    (∀ (s rest : Bytes) (m : Msg), unserializeMsg.run anyLength s = (.ok m, rest) → s = m.encoding ++ rest) ∧
    (∀ s : Bytes, (∃ m rest, unserializeMsg.run anyLength s = (.ok m, rest)) ↔
      ∃ (m : Msg) (rest : Bytes), m.Fits anyLength ∧ s = m.encoding ++ rest) ∧
    ∀ (p p' : Bytes) (m : Msg), unserializeMsg.run anyLength p = (.ok m, []) →
      unserializeMsg.run anyLength p' = (.ok m, []) → p = p' := by
  have hmsg := reads_msg roomy_anyLength
  refine ⟨fun s rest m h => ((hmsg s m rest).mp h).2, fun s => ?_, fun p p' m h h' => ?_⟩
  · exact exists_congr fun m => exists_congr fun rest => hmsg s m rest
  · exact ((hmsg p m []).mp h).2.trans ((hmsg p' m []).mp h').2.symm

/-- The four bytes of the tag, the id and an error, with a byte to spare. -/
theorem unserialize_canonical_resp :
    unserializeMsg.run anyLength [5, 0, 0, 0, 1, 0, 0, 0, 2, 0, 0, 0, 9] = (.ok (.createResp 1 2), [9]) ∧
      [5, 0, 0, 0, 1, 0, 0, 0, 2, 0, 0, 0, 9] = (Msg.createResp 1 2).encoding ++ [9] := by
  have h : unserializeMsg.run anyLength [5, 0, 0, 0, 1, 0, 0, 0, 2, 0, 0, 0, 9] = (.ok (.createResp 1 2), [9]) := rfl
  exact ⟨h, unserialize_canonical.1 _ _ _ h⟩

end Nfs
