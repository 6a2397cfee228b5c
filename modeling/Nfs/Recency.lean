/-
What the parts of the cache that call nothing do to the recency list, block
by block (`Cache.ids`): a new entry goes to the cold end, reading moves the
blocks of its range to the hot end, deleting takes nodes out, and everything
else leaves the list alone.

`span` lists the blocks of a byte range in the order in which the loops of
`read` and `write` come to them.
-/
import Nfs.Splitting

namespace Nfs.Cache

open PlainFile

variable {B : Nat} {c c' : Cache} {f : Str} {fc fc' : FileCache} {b off n : Nat} {e : CacheEntry}

/-! ## The blocks of a byte range -/

/-- The blocks that `[off, off + n)` touches, in order. -/
def span (B off n : Nat) : List Nat :=
  if n = 0 then [] else List.range' (off / B) ((off + n - 1) / B + 1 - off / B)

@[simp] theorem span_zero : span B off 0 = [] := rfl

theorem mem_span (hn : 0 < n) : b ∈ span B off n ↔ off / B ≤ b ∧ b < endBlock B (off + n) := by
  have hle : off / B ≤ (off + n - 1) / B := Nat.div_le_div_right (by omega)
  rw [span, if_neg (by omega), List.mem_range'_1, endBlock, if_neg (by omega)]
  omega

theorem mem_span_of_byte {x : Nat} (h₁ : off ≤ x) (h₂ : x < off + n) : x / B ∈ span B off n := by
  rw [mem_span (by omega), endBlock, if_neg (by omega)]
  exact ⟨Nat.div_le_div_right h₁, Nat.lt_succ_of_le (Nat.div_le_div_right (by omega))⟩

/-- The block of the first byte, and then those from the next block on. -/
theorem span_step (hB : 0 < B) (hn : 0 < n) :
    span B off n = off / B :: span B (off + (B - off % B)) (n - (B - off % B)) := by
  have hmod := Nat.mod_lt off hB
  have hoff := Nat.div_add_mod off B
  rw [span, if_neg (by omega)]
  by_cases hend : n ≤ B - off % B
  · have hlast : (off + n - 1) / B = off / B := by
      rw [block_offset hB, Nat.mul_comm]
      omega
    rw [hlast, show n - (B - off % B) = 0 by omega, span_zero, Nat.add_sub_cancel_left]
    rfl
  · have hnext : off + (B - off % B) = (off / B + 1) * B := by
      rw [Nat.add_mul, Nat.mul_comm]
      omega
    have hge : off / B + 1 ≤ (off + n - 1) / B := (Nat.le_div_iff_mul_le hB).mpr (by omega)
    rw [span, if_neg (by omega), show off + (B - off % B) + (n - (B - off % B)) - 1 = off + n - 1 by omega, hnext,
      Nat.mul_div_cancel _ hB,
      show (off + n - 1) / B + 1 - off / B = (off + n - 1) / B + 1 - (off / B + 1) + 1 by omega]
    rfl

theorem lt_of_mem_span_next (hB : 0 < B) (hb : b ∈ span B (off + (B - off % B)) n) : off / B < b := by
  have hmod := Nat.mod_lt off hB
  have hoff := Nat.div_add_mod off B
  have hnext : off + (B - off % B) = (off / B + 1) * B := by
    rw [Nat.add_mul, Nat.mul_comm]
    omega
  by_cases hn : 0 < n
  · have := ((mem_span hn).mp hb).1
    rw [hnext, Nat.mul_div_cancel _ hB] at this
    exact this
  · rw [show n = 0 by omega] at hb
    cases hb

/-- The same blocks, with the name of the file. -/
def touches (B : Nat) (f : Str) (off n : Nat) : List CacheEntryID := (span B off n).map (⟨f, ·⟩)

theorem mem_touches {k : CacheEntryID} : k ∈ touches B f off n ↔ k.filename = f ∧ k.blockNum ∈ span B off n := by
  obtain ⟨g, b⟩ := k
  simp only [touches, List.mem_map, CacheEntryID.mk.injEq]
  constructor
  · intro h
    obtain ⟨b', hb', hg, rfl⟩ := h
    exact ⟨hg.symm, hb'⟩
  · intro h
    exact ⟨b, h.2, h.1.symm, rfl⟩

theorem touches_step (hB : 0 < B) (hn : 0 < n) :
    touches B f off n = ⟨f, off / B⟩ :: touches B f (off + (B - off % B)) (n - (B - off % B)) := by
  rw [touches, span_step hB hn]
  rfl

theorem notMem_touches_next (hB : 0 < B) : ⟨f, off / B⟩ ∉ touches B f (off + (B - off % B)) n := by
  rw [mem_touches]
  intro h
  exact absurd (lt_of_mem_span_next hB h.2) (lt_irrefl _)

/-! ## The list -/

/-- The blocks of the recency list, the hot end first. -/
def ids (c : Cache) : List CacheEntryID := c.recentList.map (·.id)

theorem touchEntry_recents {u : CacheEntry → Option CacheEntry} (h : touchEntry B f b u c = some c') :
    c.recentList <+: c'.recentList ∧ c'.lastReadHit = c.lastReadHit := by
  rw [touchEntry_eq] at h
  cases hf : c.file f with
  | none => simp [hf] at h
  | some fc =>
    simp only [hf, Option.bind_some, Option.map_eq_some_iff] at h
    obtain ⟨e, -, rfl⟩ := h
    unfold withRecord
    split
    · exact ⟨List.prefix_rfl, rfl⟩
    · exact ⟨List.prefix_append _ _, rfl⟩

theorem touchEntry_other {u : CacheEntry → Option CacheEntry} (h : touchEntry B f b u c = some c')
    (hf : c.file f = some fc) :
    ∃ fc', c'.file f = some fc' ∧ ∀ b', b' ≠ b → fc'.entries.lookup b' = fc.entries.lookup b' := by
  rw [touchEntry_eq, hf, Option.bind_some, Option.map_eq_some_iff] at h
  obtain ⟨e, -, rfl⟩ := h
  exact ⟨_, file_setFile_self, fun b' hb' => AList.lookup_insert_ne hb'⟩

/-! ## Reading -/

theorem eraseRecord_eq_filter {a : Nat} : ∀ {l : List UseRecord}, (l.map (·.addr)).Nodup →
    eraseRecord a l = l.filter (·.addr ≠ a)
  | [], _ => rfl
  | r :: l, h => by
    rw [List.map_cons, List.nodup_cons] at h
    by_cases hr : r.addr = a
    · have hall : l.filter (·.addr ≠ a) = l := by
        refine List.filter_eq_self.mpr fun q hq => ?_
        have : q.addr ≠ a := fun hqa => h.1 (List.mem_map.mpr ⟨q, hq, hqa.trans hr.symm⟩)
        simpa using this
      rw [List.filter_cons_of_neg (by simpa using hr), hall]
      simp [eraseRecord, hr]
    · rw [List.filter_cons_of_pos (by simpa using hr), ← eraseRecord_eq_filter h.2]
      simp [eraseRecord, hr]

/-- Without the node of a block the list is the list without the block. -/
theorem ids_eraseRecord (h : c.Wf B) (he : c.entry f b = some e) :
    (eraseRecord e.useRecord c.recentList).map (·.id) = c.ids.filter (· ≠ ⟨f, b⟩) := by
  rw [eraseRecord_eq_filter h.addrs, ids, List.filter_map]
  refine congrArg (List.map _) (List.filter_congr fun r hr => ?_)
  have hnode := h.mem_record he
  simp only [Function.comp_apply, ne_eq, decide_not]
  congr 2
  refine propext ⟨fun ha => ?_, fun hid => ?_⟩
  · rw [h.addr_inj hr hnode ha]
  · obtain ⟨a, k⟩ := r
    simp only at hid
    subst hid
    obtain ⟨e', he', ha⟩ := (h.record a f b).mp hr
    cases he.symm.trans he'
    exact ha.symm

theorem moveToHead_ids (h : c.Wf B) (he : c.entry f b = some e) (hm : moveToHead e.useRecord c = some c') :
    c'.ids = ⟨f, b⟩ :: c.ids.filter (· ≠ ⟨f, b⟩) := by
  simp only [moveToHead, Option.bind_eq_bind, Option.bind_eq_some_iff, Option.some.injEq] at hm
  obtain ⟨r, hr, rfl⟩ := hm
  have ha : r.addr = e.useRecord := by simpa using List.find?_some hr
  have hid := h.addr_inj (List.mem_of_find?_eq_some hr) (h.mem_record he) ha
  rw [ids, List.map_cons, ids_eraseRecord h he, hid]

theorem readBlock_ids {size : Nat} {piece : Bytes} (h : c.Wf B) (hr : readBlock B f b off size c = some (piece, c')) :
    piece.length = size ∧ c'.Wf B ∧ c'.ids = ⟨f, b⟩ :: c.ids.filter (· ≠ ⟨f, b⟩) := by
  simp only [readBlock, Option.bind_eq_bind, Option.bind_eq_some_iff] at hr
  obtain ⟨fc, hf, hr⟩ := hr
  split at hr
  · rename_i hle
    simp only [Option.bind_eq_some_iff] at hr
    obtain ⟨e, hb, hr⟩ := hr
    split at hr
    · simp only [Option.bind_eq_some_iff, Option.some.injEq, Prod.mk.injEq] at hr
      obtain ⟨c₁, hm, rfl, rfl⟩ := hr
      have he : c.entry f b = some e := (entry_of_file hf).trans hb
      obtain ⟨c₂, hm', hw', -⟩ := moveToHead_spec h he
      cases hm.symm.trans hm'
      have hlen := (h.entry f b e he).length
      exact ⟨by simp; omega, hw', moveToHead_ids h he hm⟩
    · cases hr
  · cases hr

/-- The blocks of the range come to the head, the last one first. -/
theorem readLoop_ids (hB : 0 < B) (size offset : Nat) : ∀ (fuel cur bstart bsize : Nat) (buf : Bytes) {buf' : Bytes}
    {c : Cache}, c.Wf B →
    (buf.length < size →
      cur * B + bstart = offset + buf.length ∧ bstart < B ∧ bsize = min (B - bstart) (size - buf.length)) →
    readLoop B f size fuel cur bstart bsize buf c = some (buf', c') →
    c'.ids = (touches B f (offset + buf.length) (size - buf.length)).reverse ++
      c.ids.filter (· ∉ touches B f (offset + buf.length) (size - buf.length))
  | 0, cur, bstart, bsize, buf, buf', c, h, _, hr => by
    simp only [readLoop] at hr
    split at hr
    · cases hr
    · rename_i hend
      cases hr
      rw [show size - buf.length = 0 by omega]
      simp [touches]
  | fuel + 1, cur, bstart, bsize, buf, buf', c, h, hpos, hr => by
    simp only [readLoop] at hr
    split at hr
    · rename_i hlt
      obtain ⟨hcur, hbs, hbz⟩ := hpos hlt
      simp only [Option.bind_eq_bind, Option.bind_eq_some_iff] at hr
      obtain ⟨⟨piece, c₁⟩, h₁, h₂⟩ := hr
      obtain ⟨hlen, hw₁, hids⟩ := readBlock_ids h h₁
      have hbl : (buf ++ piece).length = buf.length + bsize := by rw [List.length_append, hlen]
      have hdiv : (offset + buf.length) / B = cur ∧ (offset + buf.length) % B = bstart := by
        rw [Nat.div_mod_unique hB]
        exact ⟨by rw [Nat.mul_comm] at hcur; omega, hbs⟩
      have ih := readLoop_ids hB size offset fuel (cur + 1) 0 (min B (size - (buf.length + bsize))) (buf ++ piece)
        hw₁ (fun hlt' => ⟨by rw [Nat.add_mul]; omega, hB, by omega⟩) h₂
      -- The rest of the range starts at the next block, unless nothing is left.
      have hrest : touches B f (offset + (buf ++ piece).length) (size - (buf ++ piece).length) =
          touches B f (offset + buf.length + (B - (offset + buf.length) % B))
            (size - buf.length - (B - (offset + buf.length) % B)) := by
        rw [hbl, hdiv.2]
        by_cases hend : size - buf.length ≤ B - bstart
        · rw [show size - (buf.length + bsize) = 0 by omega, show size - buf.length - (B - bstart) = 0 by omega]
          rfl
        · rw [show offset + (buf.length + bsize) = offset + buf.length + (B - bstart) by omega,
            show size - (buf.length + bsize) = size - buf.length - (B - bstart) by omega]
      have hhere : touches B f (offset + buf.length) (size - buf.length) =
          ⟨f, cur⟩ :: touches B f (offset + (buf ++ piece).length) (size - (buf ++ piece).length) := by
        rw [hrest, touches_step hB (by omega), hdiv.1]
      have hnot : ⟨f, cur⟩ ∉ touches B f (offset + (buf ++ piece).length) (size - (buf ++ piece).length) := by
        rw [hrest, ← hdiv.1]
        exact notMem_touches_next hB
      rw [ih, hids, hhere, List.filter_cons_of_pos (by simpa using hnot), List.filter_filter, List.reverse_cons,
        List.append_assoc, List.singleton_append]
      congr 2
      refine List.filter_congr fun k _ => ?_
      simp only [List.mem_cons, ne_eq, not_or, Bool.decide_and]
      exact Bool.and_comm _ _
    · rename_i hend
      cases hr
      rw [show size - buf.length = 0 by omega]
      simp [touches]

/-! ## Adding entries -/

theorem withRecord_ids (h : c.Wf B) : (c.withRecord f b).ids = c.ids ++ [⟨f, b⟩].filter (· ∉ c.ids) := by
  have hmem := h.mem_ids ⟨f, b⟩
  unfold withRecord
  split
  · rename_i hb
    have : (⟨f, b⟩ : CacheEntryID) ∈ c.ids := hmem.mpr hb
    simp [this]
  · rename_i hb
    have : (⟨f, b⟩ : CacheEntryID) ∉ c.ids := fun hin => hb (hmem.mp hin)
    rw [List.filter_cons_of_pos (by simpa using this)]
    simp [ids]

theorem touchEntry_ids {u : CacheEntry → Option CacheEntry} (h : c.Wf B) (ht : touchEntry B f b u c = some c') :
    c'.ids = c.ids ++ [⟨f, b⟩].filter (· ∉ c.ids) := by
  rw [touchEntry_eq, Option.bind_eq_some_iff] at ht
  obtain ⟨fc, -, ht⟩ := ht
  obtain ⟨e, -, rfl⟩ := Option.map_eq_some_iff.mp ht
  exact withRecord_ids h

/-- New blocks of the range go to the end, in order. -/
theorem writeFrom_ids (hB : 0 < B) : ∀ (n : Nat) {buf : Bytes} {c : Cache} {fc : FileCache} (off : Nat),
    buf.length = n → c.Wf B → c.file f = some fc → writeFrom B f off buf c = some c' →
    c'.ids = c.ids ++ (touches B f off n).filter (· ∉ c.ids) := by
  intro n
  induction n using Nat.strong_induction_on with
  | _ n ih =>
    intro buf c fc off hn h hf hwr
    by_cases hne : buf = []
    · subst hne
      rw [writeFrom_nil] at hwr
      cases hwr
      simp [← hn, touches]
    · have hpos := List.length_pos_iff.mpr hne
      have hmod := Nat.mod_lt off hB
      rw [writeFrom_step hB hne, Option.bind_eq_some_iff] at hwr
      obtain ⟨c₁, h₁, h₂⟩ := hwr
      have htake : buf.take (B - off % B) ≠ [] := by
        rw [ne_eq, List.take_eq_nil_iff, not_or]
        exact ⟨by omega, hne⟩
      obtain ⟨c₁', fc₁, h₁', hc₁, -⟩ := writeBlock_spec hB h hf (off / B) (off % B) htake
        (by rw [List.length_take]; omega)
      cases h₁.symm.trans h₁'
      have hids : c₁.ids = c.ids ++ [⟨f, off / B⟩].filter (· ∉ c.ids) := by
        unfold writeBlock at h₁
        split at h₁
        · exact touchEntry_ids h h₁
        · cases h₁
      have hrest := ih (n - (B - off % B)) (by omega) (off + (B - off % B)) (by rw [List.length_drop, hn]) hc₁.wf
        hc₁.file h₂
      -- The block just written is none of the others.
      have hother : ∀ k ∈ touches B f (off + (B - off % B)) (n - (B - off % B)), k ∈ c₁.ids ↔ k ∈ c.ids := by
        intro k hk
        have hne : k ≠ ⟨f, off / B⟩ := fun heq => notMem_touches_next hB (heq ▸ hk)
        rw [hids]
        simp [hne]
      have hnew : (touches B f (off + (B - off % B)) (n - (B - off % B))).filter (· ∉ c₁.ids) =
          (touches B f (off + (B - off % B)) (n - (B - off % B))).filter (· ∉ c.ids) :=
        List.filter_congr fun k hk => by simp only [hother k hk]
      rw [hrest, hnew, touches_step hB (show 0 < n by omega), hids, List.append_assoc, ← List.filter_append]
      rfl

theorem store_ids (hB : 0 < B) (h : c.Wf B) (hf : c.file f = some fc) {buf : Bytes}
    (hs : store B f off buf c = some c') :
    c'.ids = c.ids ++ (touches B f off buf.length).filter (· ∉ c.ids) := by
  obtain ⟨c₁, fc₁, h₁, hw₁, hf₁⟩ := grow_wf h hf (off + buf.length)
  rw [store_eq, h₁, Option.bind_some] at hs
  have hids : c₁.ids = c.ids := by
    rw [grow_eq hf] at h₁
    split at h₁ <;> cases h₁ <;> rfl
  rw [writeFrom_ids hB _ _ rfl hw₁ hf₁ hs, hids]

/-! ## Deleting -/

theorem deleteEntry_recents (hd : deleteEntry f b c = some c') : c'.recentList.Sublist c.recentList := by
  simp only [deleteEntry, Option.bind_eq_bind, Option.bind_eq_some_iff, Option.some.injEq] at hd
  obtain ⟨fc, -, e, -, rfl⟩ := hd
  exact List.eraseP_sublist

theorem deleteEntryBeyond_recents {bound : Nat} (hd : deleteEntryBeyond f bound c = some c') :
    c'.recentList.Sublist c.recentList := by
  simp only [deleteEntryBeyond, Option.bind_eq_bind, Option.bind_eq_some_iff] at hd
  obtain ⟨fc, -, hd⟩ := hd
  generalize fc.entries.keys = ks at hd
  induction ks generalizing c with
  | nil =>
    cases hd
    exact List.Sublist.refl _
  | cons b ks ih =>
    rw [List.foldlM_cons, Option.bind_eq_bind, Option.bind_eq_some_iff] at hd
    obtain ⟨c₁, h₁, h₂⟩ := hd
    refine (ih h₂).trans ?_
    split at h₁
    · exact deleteEntry_recents h₁
    · cases h₁
      exact List.Sublist.refl _

theorem invalidate_recents (hi : invalidate f c = some c') : c'.recentList.Sublist c.recentList := by
  unfold invalidate at hi
  split at hi
  · cases hi
    exact List.Sublist.refl _
  · simp only [Option.bind_eq_bind, Option.bind_eq_some_iff, Option.some.injEq] at hi
    obtain ⟨c₁, h₁, rfl⟩ := hi
    have hsub := deleteEntryBeyond_recents h₁
    exact hsub

/-- Files without some of their blocks. -/
structure Without (t : List CacheEntryID) (c c' : Cache) : Prop where
  entry : ∀ g b, c'.entry g b = if ⟨g, b⟩ ∈ t then none else c.entry g b
  attr : ∀ g, (c'.file g).map (fun fc => (fc.attr, fc.stale)) = (c.file g).map fun fc => (fc.attr, fc.stale)

theorem Without.trans {t t' : List CacheEntryID} {c'' : Cache} (h : Without t c c') (h' : Without t' c' c'') :
    Without (t' ++ t) c c'' := by
  refine ⟨fun g b => ?_, fun g => (h'.attr g).trans (h.attr g)⟩
  rw [h'.entry, h.entry]
  by_cases hin : (⟨g, b⟩ : CacheEntryID) ∈ t' <;> simp [hin]

/-- Deleting the entry of the last node. -/
theorem deleteEntry_last {l : List UseRecord} {r : UseRecord} (h : c.Wf B) (hl : c.recentList = l ++ [r]) :
    ∃ c', deleteEntry r.id.filename r.id.blockNum c = some c' ∧ c'.Wf B ∧ c'.recentList = l ∧
      Without [r.id] c c' := by
  obtain ⟨e, he, ha⟩ := (h.record r.addr r.id.filename r.id.blockNum).mp (by rw [hl]; simp)
  obtain ⟨fc, hf, hb⟩ := exists_file_of_entry he
  obtain ⟨c₁, h₁, hc₁, hl₁⟩ := deleteEntry_spec h hf hb
  refine ⟨c₁, h₁, hc₁.wf, ?_, fun g b => ?_, fun g => ?_⟩
  · -- The other nodes have other addresses.
    have hn := h.addrs
    rw [hl, List.map_append, List.nodup_append] at hn
    have hall : ∀ q ∈ l, q.addr ≠ e.useRecord := fun q hq =>
      ha ▸ hn.2.2 q.addr (List.mem_map.mpr ⟨q, hq, rfl⟩) r.addr (by simp)
    rw [hl₁, eraseRecord_eq_filter h.addrs, hl, List.filter_append, List.filter_eq_self.mpr (by simpa using hall)]
    simp [ha]
  · by_cases hgb : (⟨g, b⟩ : CacheEntryID) = r.id
    · rw [if_pos (List.mem_singleton.mpr hgb)]
      rw [← hgb] at hc₁
      rw [entry_of_file hc₁.file, AList.lookup_erase]
    · rw [if_neg fun hin => hgb (List.mem_singleton.mp hin)]
      by_cases hg : g = r.id.filename
      · subst hg
        have hb' : b ≠ r.id.blockNum := fun hb' => hgb (by rw [hb'])
        rw [entry_of_file hc₁.file, entry_of_file hf, AList.lookup_erase_ne hb']
      · exact hc₁.frame.entry hg
  · by_cases hg : g = r.id.filename
    · rw [hg, hc₁.file, hf]
      rfl
    · rw [hc₁.frame g hg]

/-- The loop of `evictBlocks` takes nodes from the end, with their entries. -/
theorem dropTail_recents : ∀ (n : Nat) {c : Cache}, c.Wf B → n ≤ c.recentList.length →
    ∃ c' out, dropTail n c = some c' ∧ c'.Wf B ∧ c.recentList = c'.recentList ++ out ∧ out.length = n ∧
      Without (out.map (·.id)) c c'
  | 0, c, h, _ => ⟨c, [], rfl, h, by simp, rfl, by simp, fun _ => rfl⟩
  | n + 1, c, h, hn => by
    obtain ⟨l, r, hl⟩ : ∃ l r, c.recentList = l ++ [r] :=
      ⟨_, _, (List.dropLast_append_getLast (List.ne_nil_of_length_pos (by omega))).symm⟩
    obtain ⟨c₁, h₁, hw₁, hl₁, hone⟩ := deleteEntry_last h hl
    obtain ⟨c₂, out, h₂, hw₂, hl₂, hlen, hout⟩ := dropTail_recents n hw₁ (by rw [hl₁]; simp [hl] at hn; omega)
    refine ⟨c₂, out ++ [r], ?_, hw₂, by rw [hl, ← hl₁, hl₂, List.append_assoc], by simp [hlen], ?_⟩
    · have hlast : c.recentList.getLast? = some r := by rw [hl]; simp
      simp only [dropTail, hlast, Option.bind_eq_bind, Option.bind_some, h₁, h₂]
    · rw [List.map_append]
      exact hone.trans hout

/-! ## Blocks that stay -/

/-- If nodes are added at the end only, and only the blocks of `t` change,
the others are listed as before. -/
theorem ids_filter (h : c.Wf B) (h' : c'.Wf B) (hp : c.recentList <+: c'.recentList) {t : List CacheEntryID}
    (hs : ∀ g b, ⟨g, b⟩ ∉ t → c'.entry g b = c.entry g b) : c'.ids.filter (· ∉ t) = c.ids.filter (· ∉ t) := by
  obtain ⟨new, hnew⟩ := hp
  have hids : c'.ids = c.ids ++ new.map (·.id) := by rw [ids, ← hnew, List.map_append]; rfl
  have hnone : (new.map (·.id)).filter (· ∉ t) = [] := by
    refine List.filter_eq_nil_iff.mpr fun k hk => ?_
    have hn := h'.ids_nodup
    have hmem : k ∈ c'.ids := by rw [hids]; simp [hk]
    rw [← ids, hids, List.nodup_append] at hn
    simp only [decide_not, Bool.not_eq_true', decide_eq_false_iff_not, not_not]
    by_contra hkt
    have hold : k ∈ c.ids := by
      rw [ids, h.mem_ids, ← hs _ _ hkt]
      exact (h'.mem_ids k).mp hmem
    exact hn.2.2 k hold k hk rfl
  rw [hids, List.filter_append, hnone, List.append_nil]

end Nfs.Cache
