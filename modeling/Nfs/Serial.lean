/-
`common/serial.hpp` and `common/serial.cpp`: how values are written to a
stream and read from one.

A serializer is given a writer, which it calls several times; it is modelled
by what it hands over in these calls, in order. What goes over the wire is
the concatenation. An unserializer is a reader: the buffers of `std::string`
and `std::vector` are zero before they are filled, those of plain variables
hold anything. Before it fills a string or a vector it asks for the memory;
that there is none stands for `std::bad_alloc`, and for the `std::length_error`
of a length above `max_size`.
-/
import Nfs.Client
import Nfs.Lib.Codec

namespace Nfs

open PlainFile Resume Codec

section
variable {α : Type} [Pod α]

def serializePod (val : α) : List Bytes := [Pod.toBytes val]

variable (α) in
def unserializePod : Reader α := do
  let val ← fill ⟨false, Pod.size α⟩
  pure (Pod.ofBytes val)

end

def serializeString (str : Str) : List Bytes :=
  serializePod (UInt32.ofNat str.length) ++ if str.length > 0 then [str] else []

def unserializeString : Reader Str := do
  let strSize ← unserializePod UInt32
  alloc strSize.toNat
  if strSize.toNat > 0 then fill ⟨true, strSize.toNat⟩ else pure []

def serializeVector {α : Type} (vec : List α) (serialElement : α → List Bytes) : List Bytes :=
  serializePod (UInt64.ofNat vec.length) ++ vec.flatMap serialElement

/-- `sizeof(std::string)`, of the 64-bit libstdc++. -/
def sizeofString : Nat := 32

/-- `vec.reserve(size)` asks for `size` elements of `sizeofT` bytes. -/
def unserializeVector {α : Type} (sizeofT : Nat) (unserialElement : Reader α) : Reader (List α) := do
  let size ← unserializePod UInt64
  alloc (sizeofT * size.toNat)
  times size.toNat unserialElement

def serializeVectorChar (vec : Bytes) : List Bytes :=
  serializePod (UInt64.ofNat vec.length) ++ if vec.length > 0 then [vec] else []

def unserializeVectorChar : Reader Bytes := do
  let size ← unserializePod UInt64
  alloc size.toNat
  if size.toNat > 0 then fill ⟨true, size.toNat⟩ else pure []

/-! ## Layouts -/

instance : Pod TimeSpec :=
  Pod.map (α := Int64 × Int64) ⟨fun p => ⟨p.1, p.2⟩, fun t => (t.timeSec, t.timeNsec), fun _ => rfl, fun _ => rfl⟩

instance : Pod FileTime :=
  Pod.map (α := TimeSpec × TimeSpec × TimeSpec)
    ⟨fun p => ⟨p.1, p.2.1, p.2.2⟩, fun t => (t.atime, t.ctime, t.mtime), fun _ => rfl, fun _ => rfl⟩

instance : Pod FsStat :=
  Pod.map (α := UInt64 × UInt64 × UInt64 × UInt64 × UInt64 × UInt64 × UInt64 × UInt64)
    ⟨fun p => ⟨p.1, p.2.1, p.2.2.1, p.2.2.2.1, p.2.2.2.2.1, p.2.2.2.2.2.1, p.2.2.2.2.2.2.1, p.2.2.2.2.2.2.2⟩,
      fun t => (t.bsize, t.frsize, t.blocks, t.bfree, t.bavail, t.files, t.ffree, t.namemax),
      fun _ => rfl, fun _ => rfl⟩

/-! ## What the readers accept

The stream may refuse to deliver more than a limit `lim` at once, but not as
much as a plain variable takes. -/

/-- The limit lets plain variables through. -/
def Roomy (lim : Nat → Bool) : Prop := ∀ n, n ≤ 64 → lim n

section
variable {α : Type} [Pod α] {lim : Nat → Bool}

theorem reads_pod (hsize : lim (Pod.size α)) :
    Reads lim (unserializePod α) (fun a => (serializePod a).flatten) fun _ => True := by
  refine reads_fill.map (fun a _ => ⟨Pod.toBytes a, ⟨Pod.length_toBytes a, hsize⟩, Pod.ofBytes_toBytes a, ?_⟩)
    fun b hb => ⟨trivial, ?_⟩
  · simp [serializePod]
  · simp [serializePod, Pod.toBytes_ofBytes b hb.1]

/-- A length, and then as many bytes: `size` and `ofSize` convert the length. -/
theorem reads_counted (hlim : Roomy lim) (hsize : Pod.size α ≤ 64) {size : α → Nat} {ofSize : Nat → α} {bound : Nat}
    (hlt : ∀ n, size n < bound) (hof : ∀ n, ofSize (size n) = n) (hto : ∀ n, n < bound → size (ofSize n) = n) :
    Reads lim (do let n ← unserializePod α; alloc (size n); if size n > 0 then fill ⟨true, size n⟩ else pure [])
      (fun b => (serializePod (ofSize b.length) ++ if b.length > 0 then [b] else []).flatten)
      fun b => b.length < bound ∧ lim b.length := by
  intro s b t
  rw [(reads_pod (hlim _ hsize)).bind]
  have hbody : ∀ (n : α) (u : Bytes),
      Reader.run lim (if size n > 0 then fill ⟨true, size n⟩ else pure [] : Reader Bytes) u = (.ok b, t) ↔
        (b.length = size n ∧ lim b.length) ∧ u = b ++ t := by
    intro n u
    split
    · rw [reads_fill u b t]
      exact and_congr_left fun _ => and_congr_right fun h => by rw [h]
    · rename_i h0
      rw [run_pure_ok]
      constructor
      · rintro ⟨rfl, rfl⟩
        exact ⟨⟨by simp at h0; simp [h0], hlim 0 (by decide)⟩, rfl⟩
      · rintro ⟨⟨hlen, -⟩, rfl⟩
        have : b = [] := List.eq_nil_of_length_eq_zero (by omega)
        exact ⟨this.symm, by rw [this]; rfl⟩
  have htail : ∀ v : Bytes, ((if v.length > 0 then [v] else []) : List Bytes).flatten = v := by
    intro v
    cases v <;> simp
  simp only [run_alloc_bind, hbody, true_and, List.flatten_append, htail, List.append_assoc]
  constructor
  · rintro ⟨n, u, rfl, ⟨hlen, hl⟩, rfl⟩
    exact ⟨⟨hlen ▸ hlt n, hl⟩, by rw [hlen, hof]⟩
  · rintro ⟨⟨hb, hl⟩, rfl⟩
    exact ⟨ofSize b.length, b ++ t, rfl, ⟨(hto _ hb).symm, hl⟩, rfl⟩

theorem reads_string (hlim : Roomy lim) : Reads lim unserializeString (fun str => (serializeString str).flatten)
    fun str => str.length < 2 ^ 32 ∧ lim str.length :=
  reads_counted hlim (by decide) (fun n => n.toNat_lt) (fun _ => UInt32.ofNat_toNat)
    fun n hn => by rw [UInt32.toNat_ofNat', Nat.mod_eq_of_lt hn]

theorem reads_vectorChar (hlim : Roomy lim) :
    Reads lim unserializeVectorChar (fun vec => (serializeVectorChar vec).flatten)
      fun vec => vec.length < 2 ^ 64 ∧ lim vec.length :=
  reads_counted hlim (by decide) (fun n => n.toNat_lt) (fun _ => UInt64.ofNat_toNat)
    fun n hn => by rw [UInt64.toNat_ofNat', Nat.mod_eq_of_lt hn]

theorem reads_vector {β : Type} {p : Reader β} {ser : β → List Bytes} {ok : β → Prop} (hlim : Roomy lim)
    {sizeofT : Nat} (h : Reads lim p (fun b => (ser b).flatten) ok) :
    Reads lim (unserializeVector sizeofT p) (fun vec => (serializeVector vec ser).flatten)
      fun vec => vec.length < 2 ^ 64 ∧ ∀ b ∈ vec, ok b := by
  intro s vec t
  rw [unserializeVector, (reads_pod (hlim _ (by decide))).bind]
  have hflat : (vec.flatMap ser).flatten = vec.flatMap fun b => (ser b).flatten := by
    induction vec with
    | nil => rfl
    | cons b vec ih => rw [List.flatMap_cons, List.flatten_append, ih, List.flatMap_cons]
  simp only [run_alloc_bind, h.times _ _ vec t, true_and, serializeVector, List.flatten_append, hflat,
    List.append_assoc]
  constructor
  · rintro ⟨n, u, rfl, ⟨hlen, hok⟩, rfl⟩
    exact ⟨⟨hlen ▸ n.toNat_lt, hok⟩, by rw [hlen, UInt64.ofNat_toNat]⟩
  · rintro ⟨⟨hlen, hok⟩, rfl⟩
    exact ⟨UInt64.ofNat vec.length, _, rfl, ⟨by rw [UInt64.toNat_ofNat', Nat.mod_eq_of_lt hlen], hok⟩, rfl⟩

end

end Nfs
