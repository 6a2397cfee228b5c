/-
What `flushBlocks` sends.

The loops over the blocks and over their valid ranges come to one piece of
the file after the other, and the pending range joins those that touch. So
`flushBlocks` is the same computation as sending the joined pieces one by
one, and then cleaning the blocks and sending the attributes
(`flushBlocks_eq`). What is sent is then a question about lists
(`extents_spec`), and what becomes of the answers one about a loop without an
accumulator (`sendAll_ends`).
-/
import Nfs.Recency
import Nfs.FlushRules
import Nfs.Lib.Extents

namespace Nfs

open PlainFile Resume Intervals Extents

namespace Cache

variable {B : Nat} {c c' : Cache} {f : Str} {fc fc' : FileCache} {b off : Nat} {e : CacheEntry} {data : Bytes}

/-! ## The pieces -/

/-- A valid range of block `b`, with its bytes. -/
def pieceOf (B b : Nat) (e : CacheEntry) (rg : Range) : Piece UInt8 := ⟨rg.start + b * B, slice e rg⟩

/-- The valid ranges of the blocks, as the loops of `flushBlocks` come to
them. -/
def pieces (B : Nat) (fc : FileCache) (bs : List Nat) : List (Piece UInt8) :=
  bs.flatMap fun b => match fc.entries.lookup b with
    | none => []
    | some e => e.validRanges.map (pieceOf B b e)

/-- What is sent. -/
def extents (B : Nat) (fc : FileCache) (bs : List Nat) : List (Piece UInt8) := coalesce (pieces B fc bs)

/-- One content write-back for each piece. -/
def sendAll (f : Str) : List (Piece UInt8) → CacheM Unit
  | [] => pure ()
  | p :: ps => do
    contentWb f p.start p.data
    sendAll f ps

/-- The body of the loop of `flushRanges`, over pieces. -/
def flushPieces (f : Str) : List (Piece UInt8) → RangeList → Bytes → CacheM (RangeList × Bytes)
  | [], flushRange, data => pure (flushRange, data)
  | p :: ps, flushRange, data => do
    let (flushRange, data) ← extendOrSend f p.start p.stop p.data flushRange data
    let (flushRange, data) ← seed p.start p.stop p.data flushRange data
    flushPieces f ps flushRange data

theorem stop_pieceOf (hw : e.Wf B) {rg : Range} (hrg : rg ∈ e.validRanges) :
    (pieceOf B b e rg).stop = rg.stop + b * B ∧ rg.start < rg.stop := by
  have hlt := hw.gapped.nonempty rg hrg
  have hstop : rg.stop - 1 < B := hw.inside _ ⟨rg, hrg, by omega, by omega⟩
  have hlen := hw.length
  refine ⟨?_, hlt⟩
  simp only [Piece.stop, pieceOf, slice, List.length_drop, List.length_take]
  omega

theorem flushRanges_eq (hw : e.Wf B) : ∀ (rgs : List Range) (flushRange : RangeList) (data : Bytes),
    (∀ rg ∈ rgs, rg ∈ e.validRanges) →
    flushRanges B f b e rgs flushRange data = flushPieces f (rgs.map (pieceOf B b e)) flushRange data
  | [], _, _, _ => rfl
  | rg :: rgs, flushRange, data, h => by
    simp only [flushRanges, List.map_cons, flushPieces, (stop_pieceOf hw (h rg (by simp))).1]
    refine congrArg _ (funext fun q => congrArg _ (funext fun q' => ?_))
    exact flushRanges_eq hw rgs _ _ fun r hr => h r (by simp [hr])

theorem flushPieces_append : ∀ (ps qs : List (Piece UInt8)) (flushRange : RangeList) (data : Bytes),
    flushPieces f (ps ++ qs) flushRange data = do
      let q ← flushPieces f ps flushRange data
      flushPieces f qs q.1 q.2
  | [], qs, flushRange, data => rfl
  | p :: ps, qs, flushRange, data => by
    simp only [List.cons_append, flushPieces, Prog.bind_assoc]
    refine congrArg _ (funext fun q => congrArg _ (funext fun q' => ?_))
    exact flushPieces_append ps qs _ _

/-! ## Where the file stands meanwhile -/

/-- `f` is `fc` but for its stamps. -/
def Stamps (f : Str) (fc : FileCache) (c : Cache) : Prop := ∃ t s, c.file f = some (fc.restamp t s)

theorem contentWb_ask (hf : c.file f = some fc) : contentWb f off data c =
    .ask c (Call.contentWb f off data fc.attr.time fc.stale) fun ans =>
      if (ans : ContentWbAns).err ≠ 0 then .done (c.setFile f (fc.restamp ans.time ans.stale)) (.err ans.err)
      else .done (c.setFile f (fc.restamp ans.time ans.stale)) (.ok ()) := by
  simp only [contentWb, bind, fileAt_done hf, Act.bind]
  refine congrArg (Act.ask c (Call.contentWb f off data fc.attr.time fc.stale)) (funext fun ans => ?_)
  show (if _ then _ else _ : CacheM Unit) _ = _
  split <;> rfl

theorem contentWb_leaves (h : Stamps f fc c) : (contentWb f off data c).Leaves fun c' _ => Stamps f fc c' := by
  obtain ⟨t, s, hf⟩ := h
  rw [contentWb_ask hf]
  intro ans
  show Act.Leaves _ (if (ans : ContentWbAns).err ≠ 0 then _ else _)
  split
  · trivial
  · exact ⟨_, _, file_setFile_self⟩

theorem extendOrSend_leaves {a z : Nat} {piece : Bytes} {flushRange : RangeList} (h : Stamps f fc c) :
    (extendOrSend f a z piece flushRange data c).Leaves fun c' _ => Stamps f fc c' := by
  unfold extendOrSend
  split
  · show Act.Leaves _ ((if _ then _ else _ : CacheM _) c)
    split
    · exact (leaves_check h).bind fun _ _ h => h
    · refine (leaves_assert h).bind fun c _ h => ?_
      exact (contentWb_leaves h).bind fun _ _ h => h
  · exact h

theorem seed_leaves {a z : Nat} {piece : Bytes} {flushRange : RangeList} (h : Stamps f fc c) :
    (seed a z piece flushRange data c).Leaves fun c' _ => Stamps f fc c' := by
  show Act.Leaves _ ((if _ then _ else _ : CacheM _) c)
  split
  · refine (leaves_check h).bind fun c _ h => ?_
    exact (leaves_assert h).bind fun _ _ h => h
  · exact h

theorem flushPieces_leaves : ∀ (ps : List (Piece UInt8)) {c : Cache} {flushRange : RangeList} {data : Bytes},
    Stamps f fc c → (flushPieces f ps flushRange data c).Leaves fun c' _ => Stamps f fc c'
  | [], _, _, _, h => h
  | p :: ps, c, flushRange, data, h => by
    refine (extendOrSend_leaves h).bind fun c _ h => ?_
    refine (seed_leaves h).bind fun c _ h => ?_
    exact flushPieces_leaves ps h

/-! ## One computation -/

/-- The loop over the blocks, as a loop over the pieces. -/
theorem flushData_eq : ∀ (bs : List Nat) {c : Cache} (flushRange : RangeList) (data : Bytes),
    (∀ b e, fc.entries.lookup b = some e → e.Wf B) → Stamps f fc c → (∀ b ∈ bs, (fc.entries.lookup b).isSome) →
    flushData B f bs flushRange data c = flushPieces f (pieces B fc bs) flushRange data c
  | [], _, _, _, _, _, _ => rfl
  | b :: bs, c, flushRange, data, hw, h, hall => by
    obtain ⟨e, he⟩ := Option.isSome_iff_exists.mp (hall b (by simp))
    have hent : entryAt f b c = .done c (.ok e) := by
      obtain ⟨t, s, hf⟩ := h
      have : c.entry f b = some e := (entry_of_file hf).trans he
      simp only [entryAt, bind, Prog.get, Act.bind, this]
      rfl
    have hpieces : pieces B fc (b :: bs) = e.validRanges.map (pieceOf B b e) ++ pieces B fc bs := by
      simp only [pieces, List.flatMap_cons, he]
    rw [hpieces, flushPieces_append]
    show (entryAt f b c).bind _ = _
    rw [hent]
    show (flushRanges B f b e e.validRanges flushRange data c).bind _ = _
    rw [flushRanges_eq (hw b e he) _ _ _ fun _ hr => hr]
    refine Act.bind_congr (flushPieces_leaves _ h) fun c₁ q h₁ => ?_
    exact flushData_eq bs _ _ hw h₁ fun b' hb' => hall b' (by simp [hb'])

theorem sendPending_eq {p : Piece UInt8} : sendPending f [p.interval] p.data c = contentWb f p.start p.data c := by
  have h₁ : ([p.interval] : RangeList).length ≤ 1 := by simp
  have h₂ : p.interval.stop - p.interval.start = p.data.length := by
    simp only [Piece.interval, Piece.stop]
    omega
  simp only [sendPending, Prog.assert, h₁, h₂]
  rfl

theorem seed_nil {p : Piece UInt8} (hp : p.data ≠ []) :
    seed p.start p.stop p.data [] [] c = .done c (.ok ([p.interval], p.data)) := by
  have := List.length_pos_iff.mpr hp
  have hseed := RangeList.insertRange_nil (a := p.start) (b := p.stop) (by rw [Piece.stop]; omega)
  simp only [seed, List.length_nil, if_true, hseed, Prog.assert]
  rfl

theorem extendOrSend_adjacent {p q : Piece UInt8} (hp : p.data ≠ []) (hq : q.data ≠ []) (h : p.stop = q.start) :
    extendOrSend f q.start q.stop q.data [p.interval] p.data c =
      .done c (.ok ([(p.extend q.data).interval], (p.extend q.data).data)) := by
  have hp' := List.length_pos_iff.mpr hp
  have hq' := List.length_pos_iff.mpr hq
  have hins : RangeList.insertRange [p.interval] q.start q.stop = some [(p.extend q.data).interval] := by
    have hmerge := RangeList.insertRange_adjacent (a := p.start) (b := p.stop) (c := q.stop)
      (by rw [Piece.stop]; omega) (by rw [h, Piece.stop]; omega)
    rw [← h, Piece.interval, hmerge, Piece.interval, Piece.stop_extend, h]
    rfl
  have hstop : p.interval.stop = q.start := h
  simp only [extendOrSend, hstop, if_true, hins]
  rfl

theorem extendOrSend_apart {p q : Piece UInt8} (h : p.stop ≠ q.start) :
    extendOrSend f q.start q.stop q.data [p.interval] p.data c =
      (contentWb f p.start p.data c).bind fun _ => pure ([], []) := by
  have hstop : p.interval.stop ≠ q.start := h
  have hlen : p.interval.stop - p.interval.start = p.data.length := by
    simp only [Piece.interval, Piece.stop]
    omega
  simp only [extendOrSend, hstop, if_false, Prog.assert, hlen]
  rfl

/-- With a piece pending, the loop sends what `coalesceFrom` makes of it and
of those to come. -/
theorem flushPieces_send : ∀ (ps : List (Piece UInt8)) (p : Piece UInt8) {c : Cache}, (∀ q ∈ p :: ps, q.data ≠ []) →
    Stamps f fc c →
    (do let q ← flushPieces f ps [p.interval] p.data; sendPending f q.1 q.2 : CacheM Unit) c =
      sendAll f (coalesceFrom p ps) c
  | [], p, c, _, _ => by
    show sendPending f [p.interval] p.data c = (contentWb f p.start p.data c).bind fun _ => pure ()
    rw [sendPending_eq]
    exact (Act.bind_pure _).symm
  | q :: qs, p, c, hne, h => by
    show (Act.bind (extendOrSend f q.start q.stop q.data [p.interval] p.data c) _).bind _ = _
    unfold coalesceFrom
    split
    · rename_i hadj
      rw [extendOrSend_adjacent (hne p (by simp)) (hne q (by simp)) hadj]
      refine flushPieces_send qs (p.extend q.data) (fun r hr => ?_) h
      rcases List.mem_cons.mp hr with rfl | hr
      · exact fun hnil => hne p (by simp) (List.append_eq_nil_iff.mp hnil).1
      · exact hne r (by simp [hr])
    · rename_i hadj
      rw [extendOrSend_apart hadj, Act.bind_assoc]
      refine (Act.bind_assoc (contentWb f p.start p.data c) _ _).trans ?_
      refine Act.bind_congr (contentWb_leaves h) fun c₁ _ h₁ => ?_
      show (Act.bind (seed q.start q.stop q.data [] [] c₁) _).bind _ = _
      rw [seed_nil (hne q (by simp))]
      exact flushPieces_send qs q (fun r hr => hne r (List.mem_cons_of_mem _ hr)) h₁

theorem mem_pieces {bs : List Nat} {p : Piece UInt8} : p ∈ pieces B fc bs ↔
    ∃ b ∈ bs, ∃ e, fc.entries.lookup b = some e ∧ ∃ rg ∈ e.validRanges, p = pieceOf B b e rg := by
  simp only [pieces, List.mem_flatMap]
  refine exists_congr fun b => and_congr_right fun _ => ?_
  cases fc.entries.lookup b with
  | none => simp
  | some e => simp [eq_comm]

theorem pieces_nonempty {bs : List Nat} (hw : ∀ b e, fc.entries.lookup b = some e → e.Wf B) {p : Piece UInt8}
    (hp : p ∈ pieces B fc bs) : p.data ≠ [] := by
  obtain ⟨b, -, e, he, rg, hrg, rfl⟩ := mem_pieces.mp hp
  have hst := stop_pieceOf (b := b) (hw b e he) hrg
  refine List.ne_nil_of_length_pos ?_
  simp only [Piece.stop, pieceOf] at hst ⊢
  omega

/-- `flushBlocks` sends the joined pieces, and then cleans the blocks and
sends the attributes. -/
theorem flushBlocks_eq {bs : List Nat} (h : c.Wf B) (hf : c.file f = some fc)
    (hall : ∀ b ∈ bs, (fc.entries.lookup b).isSome) :
    flushBlocks B f bs c = (do
      sendAll f (extents B fc bs)
      local_ (cleanBlocks f bs)
      attrWb f : CacheM Unit) c := by
  have hw : ∀ b e, fc.entries.lookup b = some e → e.Wf B := fun b e he =>
    h.entry f b e ((entry_of_file hf).trans he)
  have hst : Stamps f fc c := ⟨_, _, hf⟩
  show (fileAt f c).bind _ = _
  rw [fileAt_done hf]
  show (flushData B f bs [] [] c).bind _ = _
  rw [flushData_eq bs [] [] hw hst hall, extents]
  have hne := fun p (hp : p ∈ pieces B fc bs) => pieces_nonempty hw hp
  revert hne
  cases pieces B fc bs with
  | nil => intro _; rfl
  | cons p ps =>
    intro hne
    show (Act.bind (seed p.start p.stop p.data [] [] c) _).bind _ = (sendAll f (coalesceFrom p ps) c).bind _
    rw [seed_nil (hne p (by simp)), ← flushPieces_send ps p hne hst]
    exact (Act.bind_assoc _ _ _).symm

/-! ## What the extents are -/

theorem pieceOf_of (hB : 0 < B) (hw : e.Wf B) (he : fc.entries.lookup b = some e) {rg : Range}
    (hrg : rg ∈ e.validRanges) : (pieceOf B b e rg).Of (fc.byte B) := by
  intro i hi
  have hby := ((slice_byte hB hw he hrg).2 i hi).2
  rw [pieceOf] at hi ⊢
  rw [hby, byteAt_of_lt hi, List.getElem?_eq_getElem hi]

theorem pieces_ordered (hw : ∀ b e, fc.entries.lookup b = some e → e.Wf B) {bs : List Nat}
    (hbs : bs.Pairwise (· < ·)) : Ordered (pieces B fc bs) := by
  refine ⟨fun p hp => pieces_nonempty hw hp, ?_⟩
  unfold pieces
  rw [List.pairwise_flatMap]
  constructor
  · -- Inside a block the ranges are gapped.
    intro b _
    cases he : fc.entries.lookup b with
    | none => exact .nil
    | some e =>
      have hwe := hw b e he
      refine List.pairwise_map.mpr (hwe.gapped.gaps.imp_of_mem fun {r r'} hr _ hgap => ?_)
      rw [(stop_pieceOf hwe hr).1]
      simp only [pieceOf]
      omega
  · -- A block ends before the next one starts.
    refine hbs.imp fun {b b'} hlt p hp q hq => ?_
    have hp' : p ∈ pieces B fc [b] := by simpa [pieces] using hp
    have hq' : q ∈ pieces B fc [b'] := by simpa [pieces] using hq
    obtain ⟨b, hb, e, he, rg, hrg, rfl⟩ := mem_pieces.mp hp'
    obtain ⟨b', hb', e', he', rg', hrg', rfl⟩ := mem_pieces.mp hq'
    simp only [List.mem_singleton] at hb hb'
    subst hb hb'
    have hwe := hw b e he
    have hlast := hwe.gapped.nonempty rg hrg
    have hstop : rg.stop - 1 < B := hwe.inside _ ⟨rg, hrg, by omega, by omega⟩
    have hnext : (b + 1) * B ≤ b' * B := Nat.mul_le_mul_right _ hlt
    rw [Nat.add_mul] at hnext
    rw [(stop_pieceOf hwe hrg).1]
    simp only [pieceOf]
    omega

theorem covers_pieces (hB : 0 < B) (hw : ∀ b e, fc.entries.lookup b = some e → e.Wf B) {bs : List Nat} {x : Nat} :
    Covers (ranges (pieces B fc bs)) x ↔ x / B ∈ bs ∧ (fc.byte B x).isSome := by
  constructor
  · intro hx
    obtain ⟨r, hr, hlo, hhi⟩ := hx
    obtain ⟨p, hp, rfl⟩ := List.mem_map.mp hr
    obtain ⟨b, hb, e, he, rg, hrg, rfl⟩ := mem_pieces.mp hp
    have hby := (slice_byte hB (hw b e he) he hrg).2 (x - (rg.start + b * B))
    simp only [Piece.interval, Piece.stop, pieceOf] at hlo hhi
    rw [show rg.start + b * B + (x - (rg.start + b * B)) = x by omega] at hby
    obtain ⟨hxb, hv⟩ := hby (by omega)
    exact ⟨hxb ▸ hb, by rw [hv]; rfl⟩
  · intro hx
    obtain ⟨hb, hv⟩ := hx
    obtain ⟨v, hv⟩ := Option.isSome_iff_exists.mp hv
    cases he : fc.entries.lookup (x / B) with
    | none => simp [FileCache.byte, he] at hv
    | some e =>
      rw [FileCache.byte, he, Option.bind_some, CacheEntry.byte_eq_some] at hv
      obtain ⟨⟨rg, hrg, h₁, h₂⟩, -⟩ := hv
      refine ⟨_, List.mem_map.mpr ⟨_, mem_pieces.mpr ⟨x / B, hb, e, he, rg, hrg, rfl⟩, rfl⟩, ?_⟩
      have hdm := Nat.div_add_mod x B
      rw [Nat.mul_comm] at hdm
      simp only [Interval.Mem, Piece.interval, (stop_pieceOf (hw _ e he) hrg).1]
      simp only [pieceOf]
      omega

/-- What is sent for increasing blocks: the valid bytes of the blocks, in
maximal ranges and in order. -/
structure Exactly (B : Nat) (fc : FileCache) (bs : List Nat) (ps : List (Piece UInt8)) : Prop where
  gapped : Gapped (ranges ps)
  covers : ∀ x, Covers (ranges ps) x ↔ x / B ∈ bs ∧ (fc.byte B x).isSome
  byte : ∀ p ∈ ps, p.Of (fc.byte B)

theorem extents_spec (hB : 0 < B) (h : c.Wf B) (hf : c.file f = some fc) {bs : List Nat} (hbs : bs.Pairwise (· < ·)) :
    Exactly B fc bs (extents B fc bs) := by
  have hw : ∀ b e, fc.entries.lookup b = some e → e.Wf B := fun b e he =>
    h.entry f b e ((entry_of_file hf).trans he)
  refine ⟨(pieces_ordered hw hbs).coalesce, fun x => covers_coalesce.trans (covers_pieces hB hw),
    coalesce_of fun p hp => ?_⟩
  obtain ⟨b, -, e, he, rg, hrg, rfl⟩ := mem_pieces.mp hp
  exact pieceOf_of hB (hw b e he) he hrg

/-! ## The answers -/

/-- `f` is `fc'` now; the rest of the cache is as it was. -/
structure Replaced (f : Str) (fc' : FileCache) (c c' : Cache) : Prop where
  file : c'.file f = some fc'
  frame : Frame f c c'
  recents : c'.recentList = c.recentList
  addr : c'.nextAddr = c.nextAddr
  hit : c'.lastReadHit = c.lastReadHit

theorem Replaced.refl (hf : c.file f = some fc) : Replaced f fc c c := ⟨hf, fun _ _ => rfl, rfl, rfl, rfl⟩

theorem Replaced.setFile (h : Replaced f fc c c') (fc' : FileCache) : Replaced f fc' c (c'.setFile f fc') :=
  ⟨file_setFile_self, fun g hg => by rw [file_setFile, if_neg hg, h.frame g hg], h.recents, h.addr, h.hit⟩

theorem Replaced.trans {c'' : Cache} {fc'' : FileCache} (h : Replaced f fc' c c') (h' : Replaced f fc'' c' c'') :
    Replaced f fc'' c c'' :=
  ⟨h'.file, fun g hg => (h'.frame g hg).trans (h.frame g hg), h'.recents.trans h.recents, h'.addr.trans h.addr,
    h'.hit.trans h.hit⟩

theorem Replaced.entry (h : Replaced f fc' c c') (g : Str) (b : Nat) :
    c'.entry g b = if g = f then fc'.entries.lookup b else c.entry g b := by
  split
  · rename_i hg
    rw [hg, entry_of_file h.file]
  · rename_i hg
    exact h.frame.entry hg

/-- A file with the same entries: only its attributes or its mark are new. -/
theorem Replaced.entry_eq (hr : Replaced f fc' c c') (hf : c.file f = some fc) (he : fc'.entries = fc.entries)
    (g : Str) (b : Nat) : c'.entry g b = c.entry g b := by
  rw [hr.entry]
  split
  · rename_i hg
    rw [he, hg, entry_of_file hf]
  · rfl

theorem Replaced.wf (hr : Replaced f fc' c c') (h : c.Wf B) (hf : c.file f = some fc)
    (he : fc'.entries = fc.entries) : c'.Wf B :=
  h.congr (hr.entry_eq hf he) hr.recents hr.addr

/-- The pieces have been written back one after the other: `rs` are the
replies, the first one first, and each request has the stamp of the reply
before it. -/
inductive WrittenBack (f : Str) : FileCache → List (Piece UInt8) → Replies → FileCache → Prop
  | nil (fc : FileCache) : WrittenBack f fc [] [] fc
  | cons {fc fc' : FileCache} {a : ContentWbAns} (p : Piece UInt8) : a.err = 0 →
      WrittenBack f (fc.restamp a.time a.stale) ps rs fc' →
      WrittenBack f fc (p :: ps) (⟨.contentWb f p.start p.data fc.attr.time fc.stale, a⟩ :: rs) fc'

theorem WrittenBack.stamps {ps : List (Piece UInt8)} {rs : Replies} (h : WrittenBack f fc ps rs fc') :
    ∃ t s, fc' = fc.restamp t s := by
  induction h with
  | nil fc => exact ⟨_, _, rfl⟩
  | cons p ha _ ih =>
    obtain ⟨t, s, rfl⟩ := ih
    exact ⟨t, s, rfl⟩

theorem WrittenBack.not_failed {ps : List (Piece UInt8)} {rs : Replies} (h : WrittenBack f fc ps rs fc') :
    ¬ rs.Failed := by
  induction h with
  | nil fc => simp [Replies.Failed]
  | cons p ha _ ih =>
    intro hbad
    obtain ⟨q, hq, hf⟩ := hbad
    rcases List.mem_cons.mp hq with rfl | hq
    · exact hf ha
    · exact ih ⟨q, hq, hf⟩

/-- How sending the pieces ends: all are written back, or the last request
has failed. -/
def SendEnds (f : Str) (ps : List (Piece UInt8)) (fc : FileCache) (c : Cache) (w₀ : Replies) :
    Cache → Replies → Outcome Unit → Prop
  | c', w, .ok _ => ∃ rs fc', WrittenBack f fc ps rs fc' ∧ w = rs.reverse ++ w₀ ∧ Replaced f fc' c c'
  | c', w, .err e => ∃ done p rest rs fc₁, ∃ a : ContentWbAns, ps = done ++ p :: rest ∧
      WrittenBack f fc done rs fc₁ ∧
      w = ⟨.contentWb f p.start p.data fc₁.attr.time fc₁.stale, a⟩ :: (rs.reverse ++ w₀) ∧ a.err = e ∧ e ≠ 0 ∧
      Replaced f (fc₁.restamp a.time a.stale) c c'
  | _, _, .fault => False

theorem sendAll_ends : ∀ (ps : List (Piece UInt8)) {fc : FileCache} {c : Cache} {w : Replies}, c.file f = some fc →
    (sendAll f ps c).wp (Env.solo Noted) (SendEnds f ps fc c w) w
  | [], fc, c, w, hf => ⟨[], fc, .nil fc, rfl, .refl hf⟩
  | p :: ps, fc, c, w, hf => by
    refine wp_bind.mpr (contentWb_wp hf trivial fun {w₁ w₂ a} hr hs => ?_)
    cases hr
    cases hs
    have hset := (Replaced.refl hf).setFile (fc.restamp a.time a.stale)
    constructor
    · intro ha
      refine (sendAll_ends ps (w := _ :: w) hset.file).mono fun c' w' o hQ => ?_
      cases o with
      | ok _ =>
        obtain ⟨rs, fc', hwb, rfl, hrep⟩ := hQ
        exact ⟨_, fc', .cons p ha hwb, by simp, hset.trans hrep⟩
      | err e =>
        obtain ⟨done, q, rest, rs, fc₁, a', rfl, hwb, rfl, he, hne, hrep⟩ := hQ
        exact ⟨p :: done, q, rest, _, fc₁, a', rfl, .cons p ha hwb, by simp, he, hne, hset.trans hrep⟩
      | fault => exact hQ
    · intro ha
      exact ⟨[], p, ps, [], fc, a, rfl, .nil fc, rfl, rfl, ha, hset⟩

/-- The blocks of `bs` are clean; nothing else of the file has changed. -/
structure CleanedAt (bs : List Nat) (fc fc' : FileCache) : Prop where
  attr : fc'.attr = fc.attr
  stale : fc'.stale = fc.stale
  lookup : ∀ b, fc'.entries.lookup b =
    if b ∈ bs then (fc.entries.lookup b).map fun e => { e with state := .clean } else fc.entries.lookup b

theorem cleanBlocks_rest : ∀ (bs : List Nat) {c : Cache}, cleanBlocks f bs c = some c' →
    c'.nextAddr = c.nextAddr ∧ c'.lastReadHit = c.lastReadHit
  | [], c, h => by
    cases h
    exact ⟨rfl, rfl⟩
  | b :: bs, c, h => by
    simp only [cleanBlocks, List.foldlM_cons, Option.bind_eq_bind, Option.bind_eq_some_iff, updateEntry,
      Option.some.injEq] at h
    obtain ⟨c₁, ⟨fc, -, e, -, e', -, rfl⟩, h₂⟩ := h
    exact cleanBlocks_rest bs (c := c.setFile f _) h₂

/-- How `flushBlocks` ends: a content write-back has failed, or all have been
made, the blocks are clean and the attributes have been sent. -/
def FlushEnds (B : Nat) (f : Str) (bs : List Nat) (fc : FileCache) (c : Cache) (w₀ : Replies) (c' : Cache)
    (w : Replies) (o : Outcome Unit) : Prop :=
  (∃ e, o = .err e ∧ SendEnds f (extents B fc bs) fc c w₀ c' w (.err e)) ∨
  ∃ rs fc₁ fc₂, ∃ a : AttrWbAns, WrittenBack f fc (extents B fc bs) rs fc₁ ∧ CleanedAt bs fc₁ fc₂ ∧
    w = ⟨.attrWb f fc₁.attr fc₁.stale, a⟩ :: (rs.reverse ++ w₀) ∧
    Replaced f { fc₂ with attr := a.attr, stale := a.stale } c c' ∧ c'.Wf B ∧
    o = if a.err = 0 then .ok () else .err a.err

theorem flushBlocks_ends {bs : List Nat} {w : Replies} (h : c.Wf B) (hf : c.file f = some fc)
    (hall : ∀ b ∈ bs, (fc.entries.lookup b).isSome) :
    (flushBlocks B f bs c).wp (Env.solo Noted) (FlushEnds B f bs fc c w) w := by
  rw [flushBlocks_eq h hf hall]
  refine wp_seq (sendAll_ends _ hf) ?_ (fun c₁ w₁ e hend => .inl ⟨e, rfl, hend⟩) fun _ _ hfault => hfault.elim
  intro c₁ w₁ _ hend
  obtain ⟨rs, fc₁, hwb, rfl, hrep⟩ := hend
  obtain ⟨t, s, rfl⟩ := hwb.stamps
  obtain ⟨c₂, fc₂, h₂, hc₂, hr₂, hl₂⟩ := cleanBlocks_spec bs (hrep.wf h hf rfl) hrep.file hall
  obtain ⟨ha₂, hh₂⟩ := cleanBlocks_rest bs h₂
  have hrep₂ : Replaced f fc₂ c c₂ := hrep.trans ⟨hc₂.file, hc₂.frame, hr₂, ha₂, hh₂⟩
  refine wp_bind.mpr ((local_wp h₂).mpr (attrWb_wp hc₂.file trivial fun {w₁ w₂ a} hr hs => ?_))
  cases hr
  cases hs
  rw [hc₂.attr, hc₂.stale]
  have hend : ∀ o, o = (if a.err = 0 then .ok () else .err a.err) →
      FlushEnds B f bs fc c w (c₂.setFile f { fc₂ with attr := a.attr, stale := a.stale }) _ o := fun o ho =>
    .inr ⟨rs, _, fc₂, a, hwb, ⟨hc₂.attr, hc₂.stale, hl₂⟩, rfl, hrep₂.setFile _, hc₂.wf.setFile hc₂.file rfl, ho⟩
  exact ⟨fun ha => hend _ (by rw [if_pos ha]), fun ha => hend _ (by rw [if_neg ha])⟩

end Cache

/-! ## Exact write-back -/

def Call.isContentWb : Call → Bool
  | .contentWb .. => true
  | _ => false

section
variable {B : Nat} {order : HashOrder} {S : LoneCache} {f : Str} {c : Cache} {fc : FileCache} {bs : List Nat}

/-- **Exact write-back.** `flushBlocks` on increasing cached blocks sends
their valid bytes in maximal ranges and in order, then the attributes, and
cleans the blocks and nothing else; a content write-back that fails is the
last request, and then no block becomes clean. -/
theorem writes_back_exactly (hB : 0 < B) (h : CacheReach B order S) (hc : S.cache = c) (hf : c.file f = some fc)
    (hbs : bs.Pairwise (· < ·)) (hall : ∀ b ∈ bs, (fc.entries.lookup b).isSome) :
    ∃ ps, Cache.Exactly B fc bs ps ∧ ∀ c' o w, Exec Noted (Cache.flushBlocks B f bs c) [] c' o w →
      (¬ w.Failed → o = .ok () ∧
        (∃ rs fc₁, ∃ a : AttrWbAns, w = ⟨.attrWb f fc₁.attr fc₁.stale, a⟩ :: rs.reverse ∧
          Cache.WrittenBack f fc ps rs fc₁) ∧
        ∀ g b, c'.entry g b = if g = f ∧ b ∈ bs then (c.entry g b).map fun e => { e with state := .clean }
          else c.entry g b) ∧
      ∀ p ∈ w, p.1.isContentWb = true → Plain.failed p.1 p.2 →
        w.head? = some p ∧ (∃ e, o = .err e) ∧ ∀ g b, c'.entry g b = c.entry g b := by
  have hw : c.Wf B := hc ▸ h.wf hB
  refine ⟨_, Cache.extents_spec hB hw hf hbs, fun c' o w hx => ?_⟩
  rcases (Cache.flushBlocks_ends (w := []) hw hf hall).exec hx with
    ⟨e, rfl, done, p, rest, rs, fc₁, a, -, hwb, rfl, rfl, hne, hrep⟩ |
    ⟨rs, fc₁, fc₂, a, hwb, hclean, rfl, hrep, -, ho⟩
  · refine ⟨fun hok => absurd ⟨_, List.mem_cons_self, hne⟩ hok, fun q hq _ hbad => ?_⟩
    have hhead : q = ⟨.contentWb f p.start p.data fc₁.attr.time fc₁.stale, a⟩ := by
      rcases List.mem_cons.mp hq with hq | hq
      · exact hq
      · rw [List.append_nil, List.mem_reverse] at hq
        exact absurd ⟨q, hq, hbad⟩ hwb.not_failed
    obtain ⟨t, s, rfl⟩ := hwb.stamps
    exact ⟨by rw [hhead]; rfl, ⟨_, rfl⟩, hrep.entry_eq hf rfl⟩
  · rw [List.append_nil]
    constructor
    · intro hok
      have ha : a.err = 0 := by
        by_contra hne
        exact hok ⟨_, List.mem_cons_self, hne⟩
      rw [if_pos ha] at ho
      refine ⟨ho, ⟨rs, fc₁, a, rfl, hwb⟩, fun g b => ?_⟩
      obtain ⟨t, s, rfl⟩ := hwb.stamps
      rw [hrep.entry]
      by_cases hg : g = f
      · subst hg
        simp only [true_and, if_true]
        rw [hclean.lookup, Cache.entry_of_file hf]
        rfl
      · rw [if_neg hg, if_neg fun hgb => hg hgb.1]
    · intro q hq hcont hbad
      rcases List.mem_cons.mp hq with rfl | hq
      · cases hcont
      · exact absurd ⟨q, List.mem_reverse.mp hq, hbad⟩ hwb.not_failed

end

/-- A cache after two more bytes have been written, across a block boundary. -/
def writtenTwice : Cache :=
  (((CacheOp.write [102] 3 [5, 6]).run 2 .inserted written).interp (fun _ r => (r.reply 0, ())) ()).1

theorem exists_writtenTwice : ∃ S : LoneCache, CacheReach 2 .inserted S ∧ S.threads () = .idle writtenTwice := by
  obtain ⟨S, h, hS⟩ := exists_written
  exact h.call hS (.ofOp (.write [102] 3 [5, 6])) (·.reply 0) (by decide +kernel)

/-- Three blocks go out in two ranges. -/
theorem writes_back_exactly_across : ∃ S fc ps c' w, CacheReach 2 .inserted S ∧ S.threads () = .idle writtenTwice ∧
    writtenTwice.file [102] = some fc ∧ Cache.Exactly 2 fc [0, 1, 2] ps ∧
    Exec Noted (Cache.flushBlocks 2 [102] [0, 1, 2] writtenTwice) [] c' (.ok ()) w ∧ ¬ w.Failed ∧ w.length = 3 ∧
    ∃ rs fc₁, ∃ a : AttrWbAns, w = ⟨.attrWb [102] fc₁.attr fc₁.stale, a⟩ :: rs.reverse ∧
      Cache.WrittenBack [102] fc ps rs fc₁ := by
  obtain ⟨S, h, hS⟩ := exists_writtenTwice
  have hx : Exec Noted (Cache.flushBlocks 2 [102] [0, 1, 2] writtenTwice) [] _ (.ok ()) _ :=
    exec_answers (h := failsFrom 3) (fun _ _ => rfl) _ _ (by decide +kernel)
  have hok : ¬ Replies.Failed ((Cache.flushBlocks 2 [102] [0, 1, 2] writtenTwice).interp (failsFrom 3) []).2.2 := by
    decide +kernel
  have hf : writtenTwice.file [102] = some ((writtenTwice.file [102]).get (by decide +kernel)) :=
    (Option.some_get _).symm
  have hbs : [0, 1, 2].Pairwise (· < ·) := by decide
  obtain ⟨ps, hps, hall⟩ := writes_back_exactly (by decide) h (by rw [LoneCache.cache, hS]; rfl) hf hbs
    (by decide +kernel)
  exact ⟨S, _, ps, _, _, h, hS, hf, hps, hx, hok, by decide +kernel, ((hall _ _ _ hx).1 hok).2.1⟩

end Nfs
