/-
Byte formats: fixed-size values as little-endian bytes (`Pod`), and readers
that take what they need from a stream.

A reader is a program that asks for memory and for buffers to be filled, so
it can be run over streams of every kind. Over a stream that delivers what is
asked for or fails (`exactly`) a reader either recognises a format or it does
not: it `Reads` the encodings `enc a` of the values `a` that are `ok`, each to
its value, and nothing else. This one equivalence is the round trip and the
uniqueness of encodings, and it is closed under sequencing (`Reads.bind`) and
repetition (`Reads.times`).

Over a stream that fills every buffer with something, the only thing that
can stop a reader is the memory: what it `Needs` decides whether it returns.
-/
import Mathlib.Logic.Equiv.Basic
import Nfs.Lib.Act
import Nfs.Lib.PlainFile

namespace Codec

open PlainFile Resume

/-! ## Little-endian numbers -/

/-- The `n` low bytes of `v`, the lowest first. -/
def leBytes : Nat → Nat → Bytes
  | 0, _ => []
  | n + 1, v => UInt8.ofNat (v % 256) :: leBytes n (v / 256)

def leVal : Bytes → Nat
  | [] => 0
  | b :: bs => b.toNat + 256 * leVal bs

@[simp] theorem leBytes_length : ∀ (n v : Nat), (leBytes n v).length = n
  | 0, _ => rfl
  | n + 1, v => by rw [leBytes, List.length_cons, leBytes_length n]

theorem leVal_lt : ∀ bs : Bytes, leVal bs < 256 ^ bs.length
  | [] => by simp [leVal]
  | b :: bs => by
    have hb := b.toNat_lt
    have ih := leVal_lt bs
    rw [leVal, List.length_cons, Nat.pow_succ]
    omega

theorem leVal_leBytes : ∀ {n v : Nat}, v < 256 ^ n → leVal (leBytes n v) = v
  | 0, v, h => by
    rw [leBytes, leVal]
    rw [Nat.pow_zero] at h
    omega
  | n + 1, v, h => by
    have hv : v / 256 < 256 ^ n := Nat.div_lt_of_lt_mul (by rw [Nat.mul_comm, ← Nat.pow_succ]; exact h)
    rw [leBytes, leVal, leVal_leBytes hv, UInt8.toNat_ofNat', Nat.mod_eq_of_lt (a := v % 256) (by omega)]
    omega

theorem leBytes_leVal : ∀ bs : Bytes, leBytes bs.length (leVal bs) = bs
  | [] => rfl
  | b :: bs => by
    have hb := b.toNat_lt
    have hmod : (b.toNat + 256 * leVal bs) % 256 = b.toNat := by omega
    have hdiv : (b.toNat + 256 * leVal bs) / 256 = leVal bs := by omega
    rw [List.length_cons, leVal, leBytes, hmod, hdiv, leBytes_leVal bs, UInt8.ofNat_toNat]

/-! ## Values of a fixed size -/

/-- A type whose values are stored in `size` bytes, every pattern of which is
a value. -/
class Pod (α : Type) where
  size : Nat
  toBytes : α → Bytes
  ofBytes : Bytes → α
  length_toBytes : ∀ a, (toBytes a).length = size
  ofBytes_toBytes : ∀ a, ofBytes (toBytes a) = a
  toBytes_ofBytes : ∀ b, b.length = size → toBytes (ofBytes b) = b

instance : Pod UInt32 where
  size := 4
  toBytes a := leBytes 4 a.toNat
  ofBytes b := UInt32.ofNat (leVal b)
  length_toBytes _ := leBytes_length ..
  ofBytes_toBytes a := by rw [leVal_leBytes a.toNat_lt, UInt32.ofNat_toNat]
  toBytes_ofBytes b h := by
    have hlt : leVal b < 2 ^ 32 := Nat.lt_of_lt_of_eq (leVal_lt b) ((congrArg (256 ^ ·) h).trans (by decide))
    rw [UInt32.toNat_ofNat', Nat.mod_eq_of_lt hlt, ← h, leBytes_leVal]

instance : Pod UInt64 where
  size := 8
  toBytes a := leBytes 8 a.toNat
  ofBytes b := UInt64.ofNat (leVal b)
  length_toBytes _ := leBytes_length ..
  ofBytes_toBytes a := by rw [leVal_leBytes a.toNat_lt, UInt64.ofNat_toNat]
  toBytes_ofBytes b h := by
    have hlt : leVal b < 2 ^ 64 := Nat.lt_of_lt_of_eq (leVal_lt b) ((congrArg (256 ^ ·) h).trans (by decide))
    rw [UInt64.toNat_ofNat', Nat.mod_eq_of_lt hlt, ← h, leBytes_leVal]

/-- The same bytes, read as another type. -/
@[reducible] def Pod.map {α β : Type} [Pod α] (e : α ≃ β) : Pod β where
  size := Pod.size α
  toBytes b := Pod.toBytes (e.symm b)
  ofBytes b := e (Pod.ofBytes b)
  length_toBytes _ := Pod.length_toBytes _
  ofBytes_toBytes b := by rw [Pod.ofBytes_toBytes, Equiv.apply_symm_apply]
  toBytes_ofBytes b h := by rw [Equiv.symm_apply_apply, Pod.toBytes_ofBytes b h]

instance : Pod Int32 := Pod.map ⟨UInt32.toInt32, Int32.toUInt32, fun _ => rfl, fun _ => rfl⟩

instance : Pod Int64 := Pod.map ⟨UInt64.toInt64, Int64.toUInt64, fun _ => rfl, fun _ => rfl⟩

/-- Two values one after the other, with nothing in between. -/
instance {α β : Type} [Pod α] [Pod β] : Pod (α × β) where
  size := Pod.size α + Pod.size β
  toBytes p := Pod.toBytes p.1 ++ Pod.toBytes p.2
  ofBytes b := (Pod.ofBytes (b.take (Pod.size α)), Pod.ofBytes (b.drop (Pod.size α)))
  length_toBytes p := by rw [List.length_append, Pod.length_toBytes, Pod.length_toBytes]
  ofBytes_toBytes p := by
    rw [List.take_left' (Pod.length_toBytes _), List.drop_left' (Pod.length_toBytes _), Pod.ofBytes_toBytes,
      Pod.ofBytes_toBytes]
  toBytes_ofBytes b h := by
    rw [Pod.toBytes_ofBytes _ (by rw [List.length_take]; omega),
      Pod.toBytes_ofBytes _ (by rw [List.length_drop]; omega), List.take_append_drop]

/-! ## Readers -/

/-- Fill a buffer of `size` bytes, which held zeros before, or anything. -/
structure Fill where
  zeroed : Bool
  size : Nat

/-- What a reader asks for. -/
inductive ReadReq
  /-- Memory for `size` bytes. -/
  | alloc (size : Nat)
  | fill (r : Fill)

/-- Whether there is so much memory; what the buffer holds then. -/
abbrev ReadReq.Ans : ReadReq → Type
  | .alloc _ => Bool
  | .fill _ => Bytes

abbrev Reader := Prog Unit ReadReq.Ans

def fill (r : Fill) : Reader Bytes := Prog.ask (ReadReq.fill r)

/-- The exception for memory that there is not. -/
def badAlloc : Int := 6

def alloc (size : Nat) : Reader Unit := do
  if ← Prog.ask (ReadReq.alloc size) then pure () else Prog.throw badAlloc

/-- The requests of a reader carried out with a program that fills buffers;
there is always memory. -/
def withMemory {τ ρ : Type} {Ans : ρ → Type} (h : Fill → Prog τ Ans Bytes) : (q : ReadReq) → Prog τ Ans q.Ans
  | .alloc _ => pure true
  | .fill r => h r

/-- Read `n` times. -/
def times {α : Type} (n : Nat) (p : Reader α) : Reader (List α) :=
  match n with
  | 0 => pure []
  | n + 1 => do
    let a ← p
    let as ← times n p
    pure (a :: as)

/-- A stream that delivers what is asked for, as long as `lim` allows it and
there is enough. There is always memory. -/
def exactly (lim : Nat → Bool) (s : Bytes) : (q : ReadReq) → Option (q.Ans × Bytes)
  | .alloc _ => some (true, s)
  | .fill r => if lim r.size && r.size ≤ s.length then some (s.take r.size, s.drop r.size) else none

/-- The exception it raises otherwise. -/
def streamError : Int := 1

/-- Run a reader over such a stream: how it ends, and what it leaves. -/
def Reader.run {α : Type} (lim : Nat → Bool) (p : Reader α) (s : Bytes) : Outcome α × Bytes :=
  ((p ()).interpOr streamError (exactly lim) s).2

/-- The reader accepts the streams that begin with `enc a` for an `a` that is
`ok`, returns `a` and leaves the rest. -/
def Reads {α : Type} (lim : Nat → Bool) (p : Reader α) (enc : α → Bytes) (ok : α → Prop) : Prop :=
  ∀ s a t, p.run lim s = (.ok a, t) ↔ ok a ∧ s = enc a ++ t

section
variable {α β : Type} {lim : Nat → Bool} {p : Reader α} {enc : α → Bytes} {ok : α → Prop} {s t : Bytes}

theorem run_bind_ok {f : α → Reader β} {b : β} :
    (p >>= f).run lim s = (.ok b, t) ↔ ∃ a u, p.run lim s = (.ok a, u) ∧ (f a).run lim u = (.ok b, t) := by
  show (((p ()).bind f).interpOr streamError (exactly lim) s).2 = _ ↔ _
  rw [interpOr_bind, Reader.run]
  obtain ⟨⟨⟩, o, u⟩ := (p ()).interpOr streamError (exactly lim) s
  cases o with
  | ok a =>
    refine ⟨fun h => ⟨a, u, rfl, h⟩, ?_⟩
    rintro ⟨_, _, ⟨⟩, h⟩
    exact h
  | err e => exact ⟨fun h => (by cases h), fun ⟨_, _, h, _⟩ => (by cases h)⟩
  | fault => exact ⟨fun h => (by cases h), fun ⟨_, _, h, _⟩ => (by cases h)⟩

/-- **Sequencing.** -/
theorem Reads.bind (h : Reads lim p enc ok) {f : α → Reader β} {b : β} :
    (p >>= f).run lim s = (.ok b, t) ↔ ∃ a, ok a ∧ ∃ u, s = enc a ++ u ∧ (f a).run lim u = (.ok b, t) := by
  rw [run_bind_ok]
  constructor
  · rintro ⟨a, u, ha, hf⟩
    obtain ⟨hok, rfl⟩ := (h s a u).mp ha
    exact ⟨a, hok, u, rfl, hf⟩
  · rintro ⟨a, hok, u, rfl, hf⟩
    exact ⟨a, u, (h _ a u).mpr ⟨hok, rfl⟩, hf⟩

@[simp] theorem run_pure_ok {a b : α} : (pure a : Reader α).run lim s = (.ok b, t) ↔ a = b ∧ s = t := by
  constructor
  · rintro ⟨⟩
    exact ⟨rfl, rfl⟩
  · rintro ⟨rfl, rfl⟩
    rfl

theorem run_fill {r : Fill} : (fill r).run lim s =
    if lim r.size && r.size ≤ s.length then (.ok (s.take r.size), s.drop r.size) else (.err streamError, s) := by
  rw [Reader.run, fill, Prog.ask, Act.interpOr, exactly]
  by_cases h : (lim r.size && r.size ≤ s.length) = true
  · rw [if_pos h, if_pos h]
    rfl
  · rw [if_neg h, if_neg h]

/-- A buffer. -/
theorem reads_fill {r : Fill} : Reads lim (fill r) id fun b => b.length = r.size ∧ lim r.size := by
  intro s a t
  rw [run_fill]
  split
  · rename_i hl
    simp only [Bool.and_eq_true, decide_eq_true_eq] at hl
    constructor
    · rintro ⟨⟩
      exact ⟨⟨List.length_take_of_le hl.2, hl.1⟩, (List.take_append_drop ..).symm⟩
    · rintro ⟨⟨hlen, -⟩, rfl⟩
      rw [id, List.take_left' hlen, List.drop_left' hlen]
  · rename_i hl
    refine ⟨fun h => (by cases h), ?_⟩
    rintro ⟨⟨hlen, hlim⟩, rfl⟩
    rw [hlim, id, List.length_append, hlen] at hl
    simp at hl

@[simp] theorem run_alloc_bind {n : Nat} {f : Unit → Reader β} : (alloc n >>= f).run lim s = (f ()).run lim s := rfl

/-- What is read, seen as a value. -/
theorem Reads.map (h : Reads lim p enc ok) {f : α → β} {enc' : β → Bytes} {ok' : β → Prop}
    (hf : ∀ b, ok' b → ∃ a, ok a ∧ f a = b ∧ enc a = enc' b) (hf' : ∀ a, ok a → ok' (f a) ∧ enc a = enc' (f a)) :
    Reads lim (do let a ← p; pure (f a)) enc' ok' := by
  intro s b t
  rw [h.bind]
  simp only [run_pure_ok]
  constructor
  · rintro ⟨a, hok, u, rfl, rfl, rfl⟩
    obtain ⟨h₁, h₂⟩ := hf' a hok
    exact ⟨h₁, by rw [h₂]⟩
  · rintro ⟨hok, rfl⟩
    obtain ⟨a, ha, rfl, he⟩ := hf b hok
    exact ⟨a, ha, t, by rw [he], rfl, rfl⟩

/-- **Repetition.** -/
theorem Reads.times (h : Reads lim p enc ok) (n : Nat) :
    Reads lim (times n p) (·.flatMap enc) fun as => as.length = n ∧ ∀ a ∈ as, ok a := by
  induction n with
  | zero =>
    intro s as t
    rw [Codec.times, run_pure_ok]
    constructor
    · rintro ⟨rfl, rfl⟩
      exact ⟨⟨rfl, fun a ha => absurd ha (by simp)⟩, rfl⟩
    · rintro ⟨⟨hlen, -⟩, rfl⟩
      rw [List.length_eq_zero_iff] at hlen
      exact ⟨hlen.symm, by rw [hlen]; rfl⟩
  | succ n ih =>
    intro s as t
    rw [Codec.times, h.bind]
    simp only [ih.bind, run_pure_ok]
    constructor
    · rintro ⟨a, ha, u, rfl, as, ⟨hlen, has⟩, v, rfl, rfl, rfl⟩
      refine ⟨⟨by rw [List.length_cons, hlen], ?_⟩, by rw [List.flatMap_cons, List.append_assoc]⟩
      rintro b (_ | ⟨_, hb⟩)
      · exact ha
      · exact has b hb
    · rintro ⟨⟨hlen, has⟩, rfl⟩
      obtain ⟨a, as, rfl⟩ := List.exists_cons_of_length_eq_add_one hlen
      exact ⟨a, has a (by simp), as.flatMap enc ++ t, by rw [List.flatMap_cons, List.append_assoc], as,
        ⟨by simpa using hlen, fun b hb => has b (by simp [hb])⟩, t, rfl, rfl, rfl⟩

end

/-! ## Streams that always answer -/

section
variable {W : Type}

/-- There is memory as `room` says, and every buffer is filled with something. -/
def filling (room : Nat → Bool) (h : W → Fill → Bytes × W) (w : W) : (q : ReadReq) → q.Ans × W
  | .alloc n => (room n, w)
  | .fill r => h w r

/-- **What a reader needs.** Whatever the buffers are filled with, there is a
value that it returns if it gets the memory it asks for, in pieces `l` that
`S` relates to the value, and if it does not get it there is an exception. -/
def Needs {α : Type} (p : Reader α) (S : α → List Nat → Prop) : Prop :=
  ∀ (W : Type) (h : W → Fill → Bytes × W) (w : W), (∀ w r, (h w r).1.length = r.size) →
    ∃ a w' l, S a l ∧ ∀ room : Nat → Bool, ((∀ n ∈ l, room n) → (p ()).interp (filling room h) w = ((), .ok a, w')) ∧
      ((∃ n ∈ l, room n = false) → ∃ w'', (p ()).interp (filling room h) w = ((), .err badAlloc, w''))

end

section
variable {α β : Type} {p : Reader α} {S : α → List Nat → Prop} {S' : β → List Nat → Prop}

theorem needs_pure {a : α} (h : S a []) : Needs (pure a) S :=
  fun _ _ w _ => ⟨a, w, [], h, fun _ => ⟨fun _ => rfl, fun hn => by simp at hn⟩⟩

theorem needs_fill {r : Fill} {S : Bytes → List Nat → Prop} (hS : ∀ b, b.length = r.size → S b []) : Needs (fill r) S :=
  fun _ h w hh => ⟨(h w r).1, (h w r).2, [], hS _ (hh w r), fun _ => ⟨fun _ => rfl, fun hn => by simp at hn⟩⟩

theorem needs_alloc {n : Nat} {S : Unit → List Nat → Prop} (hS : S () [n]) : Needs (alloc n) S := by
  have hrun : ∀ {W : Type} (h : W → Fill → Bytes × W) (w : W) (room : Nat → Bool),
      (alloc n ()).interp (filling room h) w = if room n then ((), .ok (), w) else ((), .err badAlloc, w) := by
    intro W h w room
    show Act.interp _ ((if room n then pure () else Prog.throw badAlloc : Reader Unit) ()) w = _
    split <;> rfl
  intro W h w _
  refine ⟨(), w, [n], hS, fun room => ⟨fun hn => ?_, fun hn => ⟨w, ?_⟩⟩⟩
  · rw [hrun, if_pos (hn n (List.mem_singleton_self n))]
  · obtain ⟨n', hn', hno⟩ := hn
    rw [List.mem_singleton.mp hn'] at hno
    rw [hrun, hno, if_neg Bool.false_ne_true]

theorem Needs.bind (hp : Needs p S) {f : α → Reader β} (hf : ∀ a l, S a l → Needs (f a) fun b l' => S' b (l ++ l')) :
    Needs (p >>= f) S' := by
  intro W h w hh
  obtain ⟨a, w', l, hl, ha⟩ := hp W h w hh
  obtain ⟨b, w'', l', hl', hb⟩ := hf a l hl W h w' hh
  refine ⟨b, w'', l ++ l', hl', fun room => ?_⟩
  show (_ → ((p ()).bind f).interp _ w = _) ∧ (_ → ∃ _, ((p ()).bind f).interp _ w = _)
  rw [interp_bind]
  refine ⟨fun hroom => ?_, fun hno => ?_⟩
  · obtain ⟨hroom, hroom'⟩ := List.forall_mem_append.mp hroom
    rw [(ha room).1 hroom]
    exact (hb room).1 hroom'
  · by_cases hroom : ∀ n ∈ l, room n
    · rw [(ha room).1 hroom]
      refine (hb room).2 ?_
      obtain ⟨n, hn, hno⟩ := hno
      obtain hn | hn := List.mem_append.mp hn
      · rw [hroom n hn] at hno
        cases hno
      · exact ⟨n, hn, hno⟩
    · obtain ⟨w₁, hw₁⟩ := (ha room).2 (by simpa using hroom)
      exact ⟨w₁, by rw [hw₁]⟩

theorem Needs.imp (h : Needs p S) {S' : α → List Nat → Prop} (hS : ∀ a l, S a l → S' a l) : Needs p S' := by
  intro W fl w hh
  obtain ⟨a, w', l, hl, ha⟩ := h W fl w hh
  exact ⟨a, w', l, hS a l hl, ha⟩

/-- A part whose memory is known, and then the rest. -/
theorem Needs.then_ {need : α → List Nat} (hp : Needs p fun a l => l = need a) {f : α → Reader β}
    (hf : ∀ a, Needs (f a) fun b l => S' b (need a ++ l)) : Needs (p >>= f) S' := by
  refine hp.bind fun a l hl => ?_
  subst hl
  exact hf a

theorem Needs.times {need : α → List Nat} (hp : Needs p fun a l => l = need a) :
    ∀ n, Needs (times n p) fun as l => as.length = n ∧ l = as.flatMap need
  | 0 => needs_pure ⟨rfl, rfl⟩
  | n + 1 => by
    refine hp.then_ fun a => (Needs.times hp n).bind fun as l hl => needs_pure ?_
    obtain ⟨hlen, rfl⟩ := hl
    exact ⟨by rw [List.length_cons, hlen], by simp⟩

end

end Codec
