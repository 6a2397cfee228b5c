/-
What `cacheBlocks` asks for, and what it makes of the answers.

The callbacks' replies are noted, whatever they are. The requests are those
for the blocks that are not full, in maximal runs; an answer fills the blocks
of its run and touches nothing else (`FilledFrom`). The runs are fetched and
installed one after the other, so a failure leaves those before it installed
(`FetchEnds`). `read` ends with the blocks of its range full and at the head
of the recency list, the last one first (`ReadEnds`).
-/
import Nfs.Recency

namespace Nfs

open PlainFile Resume Intervals

/-- A request for content. -/
def Call.isFetch : Call → Bool
  | .contentFt .. => true
  | _ => false

/-- Content has been fetched. -/
def Replies.Fetched (w : Replies) : Prop := ∃ p ∈ w, p.1.isFetch = true ∧ ¬ Plain.failed p.1 p.2

instance (w : Replies) : Decidable w.Fetched :=
  inferInstanceAs (Decidable (∃ p ∈ w, p.1.isFetch = true ∧ ¬ Plain.failed p.1 p.2))

namespace Cache

variable {B : Nat} {c c' : Cache} {f : Str} {fc fc' : FileCache} {b : Nat} {w : Replies}

/-! ## One run of blocks -/

/-- Installing a run leaves the other blocks alone, and adds nodes at the end
of the list only. -/
theorem installBlocks_frame {buf : Bytes} {start : Nat} : ∀ (n b : Nat) {c : Cache} {fc : FileCache},
    installBlocks B f buf start n b c = some c' → c.file f = some fc →
    c.recentList <+: c'.recentList ∧ c'.lastReadHit = c.lastReadHit ∧ ∃ fc', c'.file f = some fc' ∧
      ∀ b', ¬ (b ≤ b' ∧ b' < b + n) → fc'.entries.lookup b' = fc.entries.lookup b'
  | 0, b, c, fc, h, hf => by
    simp only [installBlocks, Option.some.injEq] at h
    subst h
    exact ⟨List.prefix_rfl, rfl, fc, hf, fun _ _ => rfl⟩
  | n + 1, b, c, fc, h, hf => by
    simp only [installBlocks, Option.bind_eq_bind, Option.bind_eq_some_iff] at h
    obtain ⟨c₁, h₁, h₂⟩ := h
    obtain ⟨hr₁, hh₁⟩ := touchEntry_recents h₁
    obtain ⟨fc₁, hf₁, hl₁⟩ := touchEntry_other h₁ hf
    obtain ⟨hr₂, hh₂, fc₂, hf₂, hl₂⟩ := installBlocks_frame n (b + 1) h₂ hf₁
    refine ⟨hr₁.trans hr₂, hh₂.trans hh₁, fc₂, hf₂, fun b' hb' => ?_⟩
    rw [hl₂ b' (by omega), hl₁ b' (by omega)]

/-- The request for a run of blocks. -/
def fetchOf (B : Nat) (f : Str) (rg : Range) : Call := .contentFt f (rg.start * B) ((rg.stop - rg.start) * B)

/-- The file after the runs have been fetched: `rs` are the replies. -/
structure FilledFrom (B : Nat) (f : Str) (runs : List Range) (rs : Replies) (fc fc' : FileCache) (c c' : Cache) :
    Prop where
  changed : Changed B f c c' fc fc'
  recents : c.recentList <+: c'.recentList
  hit : c'.lastReadHit = c.lastReadHit
  /-- A valid byte keeps its value. -/
  kept : ∀ x v, fc.byte B x = some v → fc'.byte B x = some v
  full : ∀ x, Covers runs (x / B) → (fc'.byte B x).isSome
  /-- The others are those of the answer; past its data they are zero. -/
  fetched : ∀ off n a, (⟨.contentFt f off n, a⟩ : (r : Call) × r.Ans) ∈ rs → ∀ x, off ≤ x → x < off + n →
    fc.byte B x = none → fc'.byte B x = some (byteAt (a : ContentFtAns).data (x - off))
  dirty : ∀ x, fc'.dirtyAt B x ↔ fc.dirtyAt B x
  same : ∀ b, ¬ Covers runs b → fc'.entries.lookup b = fc.entries.lookup b

theorem FilledFrom.refl (h : c.Wf B) (hf : c.file f = some fc) : FilledFrom B f [] [] fc fc c c where
  changed := .refl h hf
  recents := List.prefix_rfl
  hit := rfl
  kept _ _ h := h
  full _ h := absurd h covers_nil
  fetched _ _ _ h := absurd h (by simp)
  dirty _ := Iff.rfl
  same _ _ := rfl

/-- One run. -/
theorem FilledFrom.one (hB : 0 < B) (h : c.Wf B) (hf : c.file f = some fc) {rg : Range} (hrg : rg.start < rg.stop)
    {data : Bytes} {a : ContentFtAns} (hd : data = ftruncate a.data ((rg.stop - rg.start) * B)) :
    ∃ c' fc', installBlocks B f data rg.start (rg.stop - rg.start) rg.start c = some c' ∧
      FilledFrom B f [rg] [⟨fetchOf B f rg, a⟩] fc fc' c c' := by
  obtain ⟨c', fc', hi, hc, hby, hdirty⟩ := installBlocks_spec hB data rg.start (rg.stop - rg.start) rg.start h hf
    (le_refl _) (by rw [hd, length_ftruncate]; exact Nat.mul_le_mul_right _ (by omega))
  obtain ⟨hr, hh, fc₁, hf₁, hl⟩ := installBlocks_frame _ _ hi hf
  cases hf₁.symm.trans hc.file
  have hin : ∀ b, Covers [rg] b ↔ rg.start ≤ b ∧ b < rg.start + (rg.stop - rg.start) := by
    intro b
    simp only [covers_cons, covers_nil, or_false, Interval.Mem]
    omega
  refine ⟨c', fc', hi, hc, hr, hh, fun x v hv => ?_, fun x hx => ?_, fun off n a' hm x h₁ h₂ hn => ?_, hdirty,
    fun b hb => hl b (fun hb' => hb ((hin b).mpr hb'))⟩
  · rw [hby, hv]
    split <;> rfl
  · rw [hby, if_pos ((hin _).mp hx)]
    rfl
  · simp only [List.mem_singleton, fetchOf] at hm
    cases hm
    have hx : rg.start ≤ x / B ∧ x / B < rg.start + (rg.stop - rg.start) := by
      rw [Nat.le_div_iff_mul_le hB, Nat.div_lt_iff_lt_mul hB, Nat.add_mul]
      exact ⟨h₁, h₂⟩
    rw [hby, if_pos hx, hn, Option.getD_none, hd, byteAt_ftruncate, if_pos (by omega)]

/-- A run, and then the others. -/
theorem FilledFrom.cons {c'' : Cache} {fc'' : FileCache} {rg : Range} {runs : List Range} {a : ContentFtAns}
    {rs : Replies} (hB : 0 < B) (hg : Gapped (rg :: runs)) (hrs : rs.reverse.map (·.1) = runs.map (fetchOf B f))
    (h : FilledFrom B f [rg] [⟨fetchOf B f rg, a⟩] fc fc' c c') (h' : FilledFrom B f runs rs fc' fc'' c' c'') :
    FilledFrom B f (rg :: runs) (rs ++ [⟨fetchOf B f rg, a⟩]) fc fc'' c c'' := by
  refine ⟨h.changed.trans h'.changed, h.recents.trans h'.recents, h'.hit.trans h.hit,
    fun x v hv => h'.kept x v (h.kept x v hv), fun x hx => ?_, fun off n a' hm x h₁ h₂ hn => ?_,
    fun x => (h'.dirty x).trans (h.dirty x), fun b hb => ?_⟩
  · rcases covers_cons.mp hx with hm | hm
    · obtain ⟨v, hv⟩ := Option.isSome_iff_exists.mp (h.full x (covers_cons.mpr (.inl hm)))
      rw [h'.kept x v hv]
      rfl
    · exact h'.full x hm
  · rcases List.mem_append.mp hm with hm | hm
    · -- The run of this reply is one of the others, which the first has left alone.
      have hreq : Call.contentFt f off n ∈ runs.map (fetchOf B f) := by
        rw [← hrs]
        exact List.mem_map.mpr ⟨_, List.mem_reverse.mpr hm, rfl⟩
      obtain ⟨q, hq, he⟩ := List.mem_map.mp hreq
      simp only [fetchOf, Call.contentFt.injEq, true_and] at he
      obtain ⟨rfl, rfl⟩ := he
      have hlt := hg.nonempty q (by simp [hq])
      have hgap := (List.pairwise_cons.mp hg.gaps).1 q hq
      have hqx : q.start ≤ x / B := (Nat.le_div_iff_mul_le hB).mpr h₁
      refine h'.fetched _ _ _ hm x h₁ h₂ ?_
      rw [FileCache.byte, h.same, ← FileCache.byte, hn]
      simp only [covers_cons, covers_nil, or_false, Interval.Mem]
      omega
    · exact h'.kept x _ (h.fetched _ _ _ hm x h₁ h₂ hn)
  · rw [covers_cons, not_or] at hb
    rw [h'.same b hb.2, h.same b (by simp [hb.1])]

/-! ## All runs -/

/-- How the fetches end: all runs are installed, or those before the one that
failed; if that was the first, nothing has changed. -/
def FetchEnds (B : Nat) (f : Str) (runs : List Range) (fc : FileCache) (c : Cache) (w₀ : Replies) :
    Cache → Replies → Outcome Unit → Prop
  | c', w, .ok _ => ∃ rs fc', w = rs ++ w₀ ∧ rs.reverse.map (·.1) = runs.map (fetchOf B f) ∧
      FilledFrom B f runs rs fc fc' c c'
  | c', w, .err e => ∃ done rg rest rs fc', ∃ a : ContentFtAns, runs = done ++ rg :: rest ∧
      w = ⟨fetchOf B f rg, a⟩ :: (rs ++ w₀) ∧ a.err = e ∧ e ≠ 0 ∧ rs.reverse.map (·.1) = done.map (fetchOf B f) ∧
      ¬ Replies.Failed rs ∧ FilledFrom B f done rs fc fc' c c' ∧ (done = [] → c' = c)
  | _, _, .fault => False

theorem FetchEnds.cons (hB : 0 < B) {rg : Range} {runs : List Range} (hg : Gapped (rg :: runs)) {a : ContentFtAns}
    (ha : a.err = 0) {c₁ : Cache} {fc₁ : FileCache} {w₀ : Replies}
    (h : FilledFrom B f [rg] [⟨fetchOf B f rg, a⟩] fc fc₁ c c₁) {o : Outcome Unit}
    (h' : FetchEnds B f runs fc₁ c₁ (⟨fetchOf B f rg, a⟩ :: w₀) c' w o) :
    FetchEnds B f (rg :: runs) fc c w₀ c' w o := by
  cases o with
  | ok _ =>
    obtain ⟨rs, fc', rfl, hrs, hfill⟩ := h'
    exact ⟨rs ++ [⟨fetchOf B f rg, a⟩], fc', by simp, by simp [hrs], h.cons hB hg hrs hfill⟩
  | err e =>
    obtain ⟨done, q, rest, rs, fc', a', rfl, rfl, he, hne, hrs, hok, hfill, -⟩ := h'
    have hg' : Gapped (rg :: done) :=
      ⟨fun r hr => hg.nonempty r (by simp only [List.mem_cons, List.mem_append] at hr ⊢; tauto),
        hg.gaps.sublist ((List.sublist_append_left _ _).cons_cons _)⟩
    refine ⟨rg :: done, q, rest, rs ++ [⟨fetchOf B f rg, a⟩], fc', a', rfl, by simp, he, hne, by simp [hrs], ?_,
      h.cons hB hg' hrs hfill, by simp⟩
    intro hbad
    obtain ⟨p, hp, hf⟩ := hbad
    rcases List.mem_append.mp hp with hp | hp
    · exact hok ⟨p, hp, hf⟩
    · simp only [List.mem_singleton] at hp
      subst hp
      exact hf ha
  | fault => exact h'

theorem fetchRuns_ends (hB : 0 < B) : ∀ (runs : List Range) {c : Cache} {fc : FileCache} {w : Replies}, Gapped runs →
    c.Wf B → c.file f = some fc →
    (fetchRuns B f runs c).wp (Env.solo Noted) (FetchEnds B f runs fc c w) w
  | [], c, fc, w, _, h, hf => ⟨[], fc, rfl, rfl, .refl h hf⟩
  | rg :: runs, c, fc, w, hg, h, hf => by
    refine wp_bind.mpr (wp_ask.mpr ⟨trivial, fun w₁ hr a w₂ hs => ?_⟩)
    cases hr
    cases hs
    show Act.wp _ _ ((if _ then _ else _ : CacheM Unit) c) _
    split
    · rename_i he
      refine ⟨[], rg, runs, [], fc, a, rfl, rfl, rfl, he, rfl, ?_, .refl h hf, fun _ => rfl⟩
      intro hbad
      obtain ⟨p, hp, -⟩ := hbad
      exact absurd hp (by simp)
    · rename_i he
      obtain ⟨c₁, fc₁, h₁, hfill⟩ := FilledFrom.one hB h hf (hg.nonempty rg (by simp)) (a := a) rfl
      refine wp_bind.mpr ((local_wp h₁).mpr ?_)
      refine (fetchRuns_ends hB runs hg.tail hfill.changed.wf hfill.changed.file).mono fun c' w' o hQ => ?_
      exact hQ.cons hB hg (not_not.mp he) hfill

/-- `cacheBlocks` on a file that is not empty: the runs it fetches are those
of the blocks that are not full. -/
theorem cacheBlocks_ends (hB : 0 < B) (h : c.Wf B) (hf : c.file f = some fc) (hsize : fc.attr.size ≠ 0) (s e : Nat) :
    ∃ runs, Gapped runs ∧ (∀ b, Covers runs b ↔ s ≤ b ∧ b < e ∧ isFullBlock B fc b = false) ∧
      (cacheBlocks B f s e c).wp (Env.solo Noted)
        (FetchEnds B f runs fc { c with lastReadHit := runs.length == 0 } w) w := by
  obtain ⟨runs, hrs, hg, hcov⟩ := missingBlocks_spec (B := B) fc (e - s) s Gapped.nil
  refine ⟨runs, hg, fun b => ?_, ?_⟩
  · rw [hcov]
    simp only [covers_nil, false_or]
    exact ⟨fun hb => ⟨hb.1, by omega, hb.2.2⟩, fun hb => ⟨hb.1, by omega, hb.2.2⟩⟩
  refine wp_bind.mpr ((fileAt_wp hf).mpr ?_)
  show Act.wp _ _ ((if _ then _ else _ : CacheM Unit) c) w
  rw [if_neg hsize]
  refine wp_bind.mpr ((wp_check hrs).mpr (wp_bind.mpr (wp_get.mpr (wp_bind.mpr (wp_set.mpr ?_)))))
  exact fetchRuns_ends hB runs hg (h.congr (fun _ _ => rfl) rfl rfl) hf

/-- The blocks of the range are full afterwards. -/
theorem FilledFrom.isFull (hB : 0 < B) (h : c.Wf B) (hf : c.file f = some fc) {c₀ : Cache} {runs : List Range}
    {rs : Replies} {s e : Nat} (hcov : ∀ b, Covers runs b ↔ s ≤ b ∧ b < e ∧ isFullBlock B fc b = false)
    (hfill : FilledFrom B f runs rs fc fc' c₀ c') (b : Nat) (hs : s ≤ b) (he : b < e) : isFullBlock B fc' b = true := by
  rw [isFullBlock_iff hB hfill.changed.wf hfill.changed.file]
  intro x hx
  cases hfull : isFullBlock B fc b with
  | false => exact hfill.full x ((hcov _).mpr (by rw [hx]; exact ⟨hs, he, hfull⟩))
  | true =>
    obtain ⟨v, hv⟩ := Option.isSome_iff_exists.mp ((isFullBlock_iff hB h hf).mp hfull x hx)
    rw [hfill.kept x v hv]
    rfl

/-- Outside the blocks that were fetched the list is as it was. -/
theorem FilledFrom.ids_filter {runs : List Range} {rs : Replies} {off n : Nat}
    (hfill : FilledFrom B f runs rs fc fc' c c') (h : c.Wf B) (hf : c.file f = some fc)
    (hcov : ∀ b, Covers runs b → b ∈ span B off n) :
    c'.ids.filter (· ∉ touches B f off n) = c.ids.filter (· ∉ touches B f off n) := by
  refine Cache.ids_filter h hfill.changed.wf hfill.recents fun g b hnot => ?_
  by_cases hgf : g = f
  · subst hgf
    rw [entry_of_file hfill.changed.file, entry_of_file hf]
    exact hfill.same b fun hc => hnot (mem_touches.mpr ⟨rfl, hcov b hc⟩)
  · exact hfill.changed.frame.entry hgf

theorem FetchEnds.wf {runs : List Range} {w₀ : Replies} {o : Outcome Unit} (h : FetchEnds B f runs fc c w₀ c' w o) :
    c'.Wf B := by
  cases o with
  | ok _ =>
    obtain ⟨_, _, -, -, hfill⟩ := h
    exact hfill.changed.wf
  | err e =>
    obtain ⟨_, _, _, _, _, _, -, -, -, -, -, -, hfill, -⟩ := h
    exact hfill.changed.wf
  | fault => exact h.elim

/-- A failure before anything has been fetched changes nothing. -/
theorem FetchEnds.eq_of_not_fetched {runs : List Range} {w₀ : Replies} {e : Int}
    (h : FetchEnds B f runs fc c w₀ c' w (.err e)) (hnot : w.Failed → ¬ w.Fetched) : c' = c := by
  obtain ⟨done, rg, rest, rs, fc', a, -, rfl, he, hne, hrs, hok, hfill, hnone⟩ := h
  have hnot := hnot ⟨_, List.mem_cons_self, show a.err ≠ 0 by rw [he]; exact hne⟩
  refine hnone ?_
  cases done with
  | nil => rfl
  | cons q done =>
    -- The reply for the first run is in the list.
    have hq : fetchOf B f q ∈ rs.reverse.map (·.1) := by rw [hrs]; simp
    obtain ⟨p, hp, hpq⟩ := List.mem_map.mp hq
    rw [List.mem_reverse] at hp
    exact absurd ⟨p, by simp [hp], by rw [hpq]; rfl, fun hbad => hok ⟨p, hp, hbad⟩⟩ hnot

/-! ## Reading -/

/-- The size a call goes by: the cached one, or else the one that its first
reply brings. -/
def SizeFor (f : Str) (c : Cache) (w₀ w : Replies) (size : Nat) : Prop :=
  (∃ fc, c.file f = some fc ∧ fc.attr.size = size) ∨
  (c.file f = none ∧ ∃ a : AttrFtAns, (∃ rs, w = rs ++ ⟨.attrFt f, a⟩ :: w₀) ∧ a.attr.size = size)

theorem SizeFor.append {w₀ : Replies} {size : Nat} (h : SizeFor f c w₀ w size) (rs : Replies) :
    SizeFor f c w₀ (rs ++ w) size := by
  rcases h with h | ⟨hf, a, ⟨rs', rfl⟩, ha⟩
  · exact .inl h
  · exact .inr ⟨hf, a, ⟨rs ++ rs', (List.append_assoc ..).symm⟩, ha⟩

/-- `cacheFileAttr` touches no block. -/
theorem cacheFileAttr_ends (h : c.Wf B) : (cacheFileAttr f c).wp (Env.solo Noted) (fun c' w' o => match o with
    | .ok _ => AttrCached f c c' ∧ c'.Wf B ∧ ∀ fc, c'.file f = some fc → SizeFor f c w w' fc.attr.size
    | .err _ => c' = c ∧ w'.Failed
    | .fault => False) w := by
  cases hf : c.file f with
  | some fc =>
    rw [cacheFileAttr_done hf]
    exact ⟨.inl ⟨rfl, fc, hf⟩, h, fun fc' hf' => .inl ⟨fc', hf', rfl⟩⟩
  | none =>
    rw [cacheFileAttr_ask hf]
    refine ⟨trivial, fun w₁ hr a w₂ hs => ?_⟩
    cases hr
    cases hs
    show Act.wp _ _ (if (a : AttrFtAns).err ≠ 0 then _ else _) _
    split
    · rename_i he
      exact ⟨rfl, _, List.mem_cons_self, he⟩
    · refine ⟨.inr ⟨hf, _, rfl⟩, h.newFile hf, fun fc' hf' => .inr ⟨hf, a, ⟨[], rfl⟩, ?_⟩⟩
      cases file_setFile_self.symm.trans hf'
      rfl

theorem AttrCached.recents (h : AttrCached f c c') : c'.recentList = c.recentList := by
  rcases h with ⟨rfl, -⟩ | ⟨-, attr, rfl⟩ <;> rfl

/-- What `read` has done when it returns 0. -/
structure ReadDone (B : Nat) (f : Str) (off n : Nat) (c : Cache) (w₀ : Replies) (c' : Cache) (w : Replies)
    (data : Bytes) : Prop where
  wf : c'.Wf B
  result : ReadResult B f off n c' data
  full : ∀ fc', c'.file f = some fc' → ∀ b ∈ span B off data.length, isFullBlock B fc' b = true
  size : ∀ fc', c'.file f = some fc' → SizeFor f c w₀ w fc'.attr.size
  ids : c'.ids = (touches B f off data.length).reverse ++ c.ids.filter (· ∉ touches B f off data.length)

/-- How `read` ends. A failure before anything has been fetched leaves the
list alone. -/
def ReadEnds (B : Nat) (f : Str) (off n : Nat) (c : Cache) (w₀ : Replies) : Cache → Replies → Outcome Bytes → Prop
  | c', w, .ok data => ReadDone B f off n c w₀ c' w data
  | c', w, .err _ => c'.Wf B ∧ ((w.Failed → ¬ w.Fetched) → c'.ids = c.ids)
  | _, _, .fault => False

/-- The part of a request that lies in the file. -/
theorem read_size {off n size m : Nat} (hz : ¬ (off ≥ size ∨ n = 0))
    (hm : (if off + n > size then size - off else n) = m) : m = min n (size - off) ∧ 0 < m := by
  rw [← hm]
  split <;> omega

/-- The loop of `read`, over blocks that are full. -/
theorem readLoop_full (hB : 0 < B) (h : c.Wf B) (hf : c.file f = some fc) (off m : Nat)
    (hfull : ∀ b ∈ span B off m, isFullBlock B fc b = true) :
    ∃ buf c', readLoop B f m m (off / B) (off % B) (min (B - off % B) m) [] c = some (buf, c') ∧ c'.Wf B ∧
      c'.fileMap = c.fileMap ∧ buf.length = m ∧ (∀ i, i < m → fc.byte B (off + i) = some (byteAt buf i)) ∧
      c'.ids = (touches B f off m).reverse ++ c.ids.filter (· ∉ touches B f off m) := by
  have hpos : ([] : Bytes).length < m → off / B * B + off % B = off + ([] : Bytes).length ∧ off % B < B ∧
      min (B - off % B) m = min (B - off % B) (m - ([] : Bytes).length) := by
    intro _
    exact ⟨by rw [Nat.mul_comm]; exact Nat.div_add_mod _ _, Nat.mod_lt _ hB, by simp⟩
  obtain ⟨buf, c', h', hw', hmap, hlen, hby⟩ := readLoop_spec hB m off m (off / B) (off % B) (min (B - off % B) m) []
    h hf (fun x hx₁ hx₂ => hfull _ (mem_span_of_byte hx₁ hx₂)) hpos (by simp) (by simp) (by simp)
  have hids := readLoop_ids hB m off m _ _ _ [] h hpos h'
  exact ⟨buf, c', h', hw', hmap, hlen, hby, by simpa using hids⟩

theorem read_ends (hB : 0 < B) (h : c.Wf B) (off n : Nat) :
    (read B f off n c).wp (Env.solo Noted) (ReadEnds B f off n c w) w := by
  refine wp_seq (cacheFileAttr_ends h) ?_ (fun c₁ w₁ e hc₁ => ?_) fun _ _ hfault => hfault
  rotate_left
  · rw [hc₁.1]
    exact ⟨h, fun _ => rfl⟩
  intro c₁ w₁ _ hc₁
  obtain ⟨hA, h₁, hsize⟩ := hc₁
  have hids₁ : c₁.ids = c.ids := by rw [ids, hA.recents]; rfl
  obtain ⟨fc, hf, -⟩ := hA.file
  refine wp_bind.mpr ((fileAt_wp hf).mpr ?_)
  show Act.wp _ _ ((if _ then _ else _ : CacheM Bytes) c₁) w₁
  split
  · rename_i hz
    refine ⟨h₁, ⟨fc, hf, by simp; omega, by simp⟩, by simp, hsize, ?_⟩
    rw [hids₁]
    simp [touches]
  rename_i hz
  generalize hm : (if off + n > fc.attr.size then fc.attr.size - off else n) = m
  obtain ⟨hm', hpos⟩ := read_size hz hm
  obtain ⟨runs, hg, hcov, hwp⟩ := cacheBlocks_ends (w := w₁) hB h₁ hf (by omega) (off / B) (endBlock B (off + m))
  refine wp_seq hwp ?_ (fun c₂ w₂ e hend => ?_) fun _ _ hfault => hfault
  · intro c₂ w₂ _ hend
    obtain ⟨rs, fc₂, hlog, -, hfill⟩ := hend
    have hfull : ∀ b ∈ span B off m, isFullBlock B fc₂ b = true := by
      intro b hb
      rw [mem_span hpos] at hb
      exact hfill.isFull hB h₁ hf hcov b hb.1 hb.2
    obtain ⟨buf, c₃, h₃, hw₃, hmap, hlen, hby, hids₃⟩ :=
      readLoop_full hB hfill.changed.wf hfill.changed.file off m hfull
    have hf₃ : c₃.file f = some fc₂ := by rw [Cache.file, hmap]; exact hfill.changed.file
    have hkeep := hfill.ids_filter (h₁.congr (fun _ _ => rfl) rfl rfl) hf fun b hb =>
      (mem_span hpos).mpr ⟨((hcov b).mp hb).1, ((hcov b).mp hb).2.1⟩
    refine (wp_step h₃).mpr ⟨hw₃, ⟨fc₂, hf₃, ?_, by rw [hlen]; exact hby⟩, ?_, fun fc' hf' => ?_, ?_⟩
    · rw [hlen, hfill.changed.attr]
      exact hm'
    · intro fc' hf'
      cases hf₃.symm.trans hf'
      rw [hlen]
      exact hfull
    · cases hf₃.symm.trans hf'
      rw [hfill.changed.attr, hlog]
      exact (hsize fc hf).append rs
    · rw [hlen, hids₃, hkeep, ← hids₁]
      rfl
  · refine ⟨hend.wf, fun hnot => ?_⟩
    rw [hend.eq_of_not_fetched hnot, ← hids₁]
    rfl

/-- `cacheBlocks` asks for nothing where every block is full. -/
theorem cacheBlocks_full {s e : Nat} (hf : c.file f = some fc) (hsize : fc.attr.size ≠ 0)
    (hfull : ∀ b, s ≤ b → b < e → isFullBlock B fc b = true) :
    cacheBlocks B f s e c = .done { c with lastReadHit := true } (.ok ()) := by
  obtain ⟨runs, hrs, hg, hcov⟩ := missingBlocks_spec (B := B) fc (e - s) s Gapped.nil
  have hnil : runs = [] := by
    refine hg.ext .nil fun b => ?_
    rw [hcov]
    simp only [covers_nil, false_or, iff_false]
    intro hb
    rw [hfull b hb.1 (by omega)] at hb
    simp at hb
  subst hnil
  show (fileAt f c).bind _ = _
  rw [fileAt_done hf]
  show (if _ then _ else _ : CacheM Unit) c = _
  rw [if_neg hsize, hrs]
  rfl

/-- `read` of blocks that are full asks for nothing. -/
theorem read_full (hB : 0 < B) (h : c.Wf B) (hf : c.file f = some fc) (off n : Nat)
    (hfull : ∀ b ∈ span B off (min n (fc.attr.size - off)), isFullBlock B fc b = true) :
    ∃ data c', read B f off n c = .done c' (.ok data) ∧ ReadResult B f off n c' data ∧ c'.fileMap = c.fileMap := by
  have hread : read B f off n c = (if off ≥ fc.attr.size ∨ n = 0 then pure [] else do
      let size := if off + n > fc.attr.size then fc.attr.size - off else n
      cacheBlocks B f (off / B) (endBlock B (off + size))
      Prog.step (readLoop B f size size (off / B) (off % B) (min (B - off % B) size) []) : CacheM Bytes) c := by
    simp only [read, bind, cacheFileAttr_done hf, Act.bind, fileAt_done hf]
  rw [hread]
  split
  · rename_i hz
    exact ⟨[], c, rfl, ⟨fc, hf, by simp; omega, by simp⟩, rfl⟩
  rename_i hz
  generalize hm : (if off + n > fc.attr.size then fc.attr.size - off else n) = m
  obtain ⟨hm', hpos⟩ := read_size hz hm
  rw [← hm'] at hfull
  have hblocks := cacheBlocks_full (s := off / B) (e := endBlock B (off + m)) hf (by omega) fun b hs he =>
    hfull b ((mem_span hpos).mpr ⟨hs, he⟩)
  obtain ⟨buf, c', h', -, hmap, hlen, hby, -⟩ := readLoop_full (c := { c with lastReadHit := true }) hB
    (h.congr (fun _ _ => rfl) rfl rfl) hf off m hfull
  have hf' : c'.file f = some fc := by rw [Cache.file, hmap]; exact hf
  refine ⟨buf, c', ?_, ⟨fc, hf', by rw [hlen]; exact hm', by rw [hlen]; exact hby⟩, hmap⟩
  simp only [bind, hblocks, Act.bind, Prog.step, h']

end Cache

/-! ## What is fetched -/

/-- What `cacheBlocks` on the blocks of `[s, e)` has done when no fetch has
failed; `w` are the replies. -/
structure Cache.FetchedExactly (B : Nat) (f : Str) (s e : Nat) (fc : FileCache) (c c' : Cache) (w : Replies) :
    Prop where
  /-- The blocks that were not full, in maximal runs and in order. -/
  requests : ∃ runs, Gapped runs ∧ (∀ b, Covers runs b ↔ s ≤ b ∧ b < e ∧ isFullBlock B fc b = false) ∧
    w.reverse.map (·.1) = runs.map (fetchOf B f)
  others : Frame f c c'
  file : ∃ fc', c'.file f = some fc' ∧ fc'.attr = fc.attr ∧ fc'.stale = fc.stale ∧
    (∀ b, s ≤ b → b < e → isFullBlock B fc' b = true) ∧
    (∀ x v, fc.byte B x = some v → fc'.byte B x = some v) ∧
    (∀ off n a, (⟨.contentFt f off n, a⟩ : (r : Call) × r.Ans) ∈ w → ∀ x, off ≤ x → x < off + n →
      fc.byte B x = none → fc'.byte B x = some (byteAt (a : ContentFtAns).data (x - off))) ∧
    (∀ b, c'.IsDirty f b ↔ c.IsDirty f b) ∧
    ∀ b, ¬ (s ≤ b ∧ b < e) ∨ isFullBlock B fc b = true → fc'.entries.lookup b = fc.entries.lookup b
  hit : c'.lastReadHit = true ↔ w = []

section
variable {B : Nat} {order : HashOrder} {S : LoneCache} {f : Str} {c : Cache} {fc : FileCache}

theorem Cache.FilledFrom.fetchedExactly {c' : Cache} {fc' : FileCache} {runs : List Range} {w : Replies} {s e : Nat}
    (hB : 0 < B) (hw : c.Wf B) (hf : c.file f = some fc) (hg : Gapped runs)
    (hcov : ∀ b, Covers runs b ↔ s ≤ b ∧ b < e ∧ isFullBlock B fc b = false)
    (hrs : w.reverse.map (·.1) = runs.map (fetchOf B f))
    (hfill : FilledFrom B f runs w fc fc' { c with lastReadHit := runs.length == 0 } c') :
    FetchedExactly B f s e fc c c' w := by
  refine ⟨⟨runs, hg, hcov, hrs⟩, hfill.changed.frame, ⟨fc', hfill.changed.file, hfill.changed.attr,
    hfill.changed.stale, hfill.isFull hB hw hf hcov, hfill.kept, hfill.fetched, fun b => ?_, fun b hb => ?_⟩, ?_⟩
  · rw [isDirty_iff hB hfill.changed.file, isDirty_iff hB hf, hfill.dirty]
  · refine hfill.same b fun hcb => ?_
    obtain ⟨h₁, h₂, h₃⟩ := (hcov b).mp hcb
    rcases hb with hb | hb
    · exact hb ⟨h₁, h₂⟩
    · rw [hb] at h₃
      cases h₃
  · rw [hfill.hit]
    have hlen := congrArg List.length hrs
    simp only [List.length_map, List.length_reverse] at hlen
    simp [← hlen]

/-- What has been read is read again from the cache. -/
theorem Cache.ReadDone.again {off n : Nat} {w₀ w : Replies} {c₁ : Cache} {data : Bytes} (hB : 0 < B)
    (hdone : ReadDone B f off n c w₀ c₁ w data) : ∃ c₂, read B f off n c₁ = .done c₂ (.ok data) := by
  obtain ⟨fc₁, hf₁, hlen, hby⟩ := hdone.result
  obtain ⟨data', c₂, hread, ⟨fc₂, hf₂, hlen', hby'⟩, hmap⟩ := read_full hB hdone.wf hf₁ off n
    (hlen ▸ hdone.full fc₁ hf₁)
  obtain rfl : fc₂ = fc₁ := Option.some.inj (hf₂.symm.trans (by rw [Cache.file, hmap]; exact hf₁))
  -- Both are the bytes of the file.
  have heq : data' = data := by
    refine ext_byteAt (hlen'.trans hlen.symm) fun i => ?_
    by_cases hi : i < data.length
    · exact Option.some.inj ((hby' i (by omega)).symm.trans (hby i hi))
    · rw [byteAt_of_le (by omega), byteAt_of_le (by omega)]
  exact ⟨c₂, heq ▸ hread⟩

/-- **Exact fetching.** `cacheBlocks` on a file that is not empty asks for
the blocks that are not full, and installs what it gets; a second `read` of a
range asks for nothing. -/
theorem fetches_exactly (hB : 0 < B) (h : CacheReach B order S) (hc : S.cache = c) (hf : c.file f = some fc)
    (hsize : fc.attr.size ≠ 0) :
    (∀ s e c' o w, Exec Noted (Cache.cacheBlocks B f s e c) [] c' o w → ¬ w.Failed →
      o = .ok () ∧ Cache.FetchedExactly B f s e fc c c' w) ∧
    ∀ off n data c₁ w, Exec Noted (Cache.read B f off n c) [] c₁ (.ok data) w →
      ∃ c₂, Cache.read B f off n c₁ = .done c₂ (.ok data) := by
  have hw : c.Wf B := hc ▸ h.wf hB
  constructor
  · intro s e c' o w hx hok
    obtain ⟨runs, hg, hcov, hwp⟩ := Cache.cacheBlocks_ends (w := []) hB hw hf hsize s e
    have hend := hwp.exec hx
    cases o with
    | fault => exact hend.elim
    | err err =>
      obtain ⟨_, rg, _, rs, _, a, -, rfl, rfl, hne, -⟩ := hend
      exact absurd ⟨_, List.mem_cons_self, hne⟩ hok
    | ok _ =>
      obtain ⟨rs, fc', hwr, hrs, hfill⟩ := hend
      rw [List.append_nil] at hwr
      subst hwr
      exact ⟨rfl, hfill.fetchedExactly hB hw hf hg hcov hrs⟩
  · intro off n data c₁ w hx
    have hdone := (Cache.read_ends (w := []) hB hw off n).exec hx
    exact hdone.again hB

end

/-- The replies of a file of six bytes. -/
def Call.replySix : (r : Call) → r.Ans
  | .attrFt _ => { err := 0, attr := { size := 6, mode := 0, time := .epoch } }
  | r => r.reply 0

/-- A cache that has read the two bytes in the middle. -/
def middleRead : Cache :=
  (((CacheOp.read [102] 2 2).run 2 .inserted .empty).interp (fun _ r => (r.replySix, ())) ()).1

theorem exists_middleRead : ∃ S : LoneCache, CacheReach 2 .inserted S ∧ S.threads () = .idle middleRead :=
  (CacheReach.start (rfl : (⟨(), fun _ => .idle .empty⟩ : LoneCache).threads () = _)).call rfl
    (.ofOp (.read [102] 2 2)) Call.replySix (by decide +kernel)

/-- Both blocks around the one in the middle are fetched. -/
theorem fetches_exactly_around : ∃ S fc c' w, CacheReach 2 .inserted S ∧ S.threads () = .idle middleRead ∧
    middleRead.file [102] = some fc ∧ fc.attr.size = 6 ∧
    Exec Noted (Cache.cacheBlocks 2 [102] 0 3 middleRead) [] c' (.ok ()) w ∧ ¬ w.Failed ∧ w.length = 2 ∧
    Cache.FetchedExactly 2 [102] 0 3 fc middleRead c' w ∧
    ∃ c₁ w₁ c₂, Exec Noted (Cache.read 2 [102] 1 4 middleRead) [] c₁ (.ok [0, 0, 0, 0]) w₁ ∧
      Cache.read 2 [102] 1 4 c₁ = .done c₂ (.ok [0, 0, 0, 0]) := by
  obtain ⟨S, h, hS⟩ := exists_middleRead
  have hx : Exec Noted (Cache.cacheBlocks 2 [102] 0 3 middleRead) [] _ (.ok ()) _ :=
    exec_answers (h := failsFrom 2) (fun _ _ => rfl) _ _ (by decide +kernel)
  have hr : Exec Noted (Cache.read 2 [102] 1 4 middleRead) [] _ (.ok [0, 0, 0, 0]) _ :=
    exec_answers (h := failsFrom 2) (fun _ _ => rfl) _ _ (by decide +kernel)
  have hok : ¬ Replies.Failed ((Cache.cacheBlocks 2 [102] 0 3 middleRead).interp (failsFrom 2) []).2.2 := by
    decide +kernel
  have hf : middleRead.file [102] = some ((middleRead.file [102]).get (by decide +kernel)) := (Option.some_get _).symm
  have hsize : ((middleRead.file [102]).get (by decide +kernel)).attr.size = 6 := by decide +kernel
  have hall := fetches_exactly (by decide) h (by rw [LoneCache.cache, hS]; rfl) hf (by rw [hsize]; decide)
  obtain ⟨c₂, hc₂⟩ := hall.2 _ _ _ _ _ hr
  exact ⟨S, _, _, _, h, hS, hf, hsize, hx, hok, by decide +kernel, (hall.1 _ _ _ _ _ hx hok).2, _, _, c₂, hr, hc₂⟩

/-! ## A fetch that fails -/

/-- The first reply was a failure. -/
def Replies.FirstFailed (w : Replies) : Prop := ∃ p ∈ w.getLast?, Plain.failed p.1 p.2

instance (w : Replies) : Decidable w.FirstFailed := inferInstanceAs (Decidable (∃ p ∈ w.getLast?, Plain.failed p.1 p.2))

section
variable {B : Nat} {order : HashOrder} {S : LoneCache} {f : Str} {s e : Nat} {c c' : Cache} {w : Replies}

/-- `cacheBlocks` fails on a cached file that is not empty. -/
theorem Cache.cacheBlocks_err {err : Int} (hx : Exec Noted (cacheBlocks B f s e c) [] c' (.err err) w) :
    ∃ fc, c.file f = some fc ∧ fc.attr.size ≠ 0 := by
  cases hf : c.file f with
  | none =>
    have hfault : cacheBlocks B f s e c = .done c .fault := by
      simp only [cacheBlocks, fileAt, bind, Prog.get, Act.bind, hf]
      rfl
    rw [hfault] at hx
    cases hx
  | some fc =>
    refine ⟨fc, rfl, fun hsize => ?_⟩
    have hdone : (cacheBlocks B f s e c).wp (Env.solo Noted) (fun _ _ o => o = .ok ()) [] := by
      refine wp_bind.mpr ((fileAt_wp hf).mpr ?_)
      show Act.wp _ _ ((if _ then _ else _ : CacheM Unit) _) _
      rw [if_pos hsize]
      rfl
    cases hdone.exec hx

/-- A run that has been fetched shows: its first block was not full, and now
it is. -/
theorem Cache.FilledFrom.changes {c₀ : Cache} {fc fc' : FileCache} {q : Range} {runs : List Range} {rs : Replies}
    (hB : 0 < B) (hf : c.file f = some fc) (hq : q.start < q.stop) (hnot : isFullBlock B fc q.start = false)
    (hfill : FilledFrom B f (q :: runs) rs fc fc' c₀ c') : c'.fileMap ≠ c.fileMap := by
  intro heq
  have hsame : fc' = fc := Option.some.inj (hfill.changed.file.symm.trans (by rw [Cache.file, heq]; exact hf))
  rw [← hsame, ← Bool.not_eq_true, isFullBlock_iff hB hfill.changed.wf hfill.changed.file] at hnot
  refine hnot fun x hx => hfill.full x ⟨q, by simp, ?_⟩
  rw [hx]
  exact ⟨le_refl _, hq⟩

/-- **A failed `cacheBlocks` has no side effects** just when the fetch that
fails is the first one. -/
theorem failed_fetch_clean_iff {err : Int} (hB : 0 < B) (h : CacheReach B order S) (hc : S.cache = c)
    (hx : Exec Noted (Cache.cacheBlocks B f s e c) [] c' (.err err) w) :
    (c'.fileMap = c.fileMap ∧ c'.recentList = c.recentList) ↔ w.FirstFailed := by
  have hw : c.Wf B := hc ▸ h.wf hB
  obtain ⟨fc, hf, hsize⟩ := Cache.cacheBlocks_err hx
  obtain ⟨runs, hg, hcov, hwp⟩ := Cache.cacheBlocks_ends (w := []) hB hw hf hsize s e
  obtain ⟨done, rg, rest, rs, fc', a, rfl, rfl, rfl, hne, hrs, hok, hfill, hsame⟩ := hwp.exec hx
  rw [List.append_nil]
  cases done with
  | nil =>
    have hnil : rs = [] := by simpa using congrArg List.length hrs
    subst hnil
    rw [hsame rfl]
    exact ⟨fun _ => ⟨_, rfl, hne⟩, fun _ => ⟨rfl, rfl⟩⟩
  | cons q done =>
    have hq : Covers ((q :: done) ++ rg :: rest) q.start := ⟨q, by simp, le_refl _, hg.nonempty q (by simp)⟩
    have hchanged := hfill.changes hB hf (hg.nonempty q (by simp)) ((hcov _).mp hq).2.2
    refine ⟨fun hun => absurd hun.1 hchanged, fun hfirst => ?_⟩
    obtain ⟨p, hp, hbad⟩ := hfirst
    have hnn : rs ≠ [] := by
      intro hnil
      simp [hnil] at hrs
    rw [Option.mem_def, List.getLast?_cons_of_ne_nil hnn] at hp
    exact absurd ⟨p, List.mem_of_getLast? hp, hbad⟩ hok

end

/-- The first of two fetches fails. -/
theorem failed_fetch_clean_iff_first : ∃ S c' w, CacheReach 2 .inserted S ∧ S.threads () = .idle middleRead ∧
    Exec Noted (Cache.cacheBlocks 2 [102] 0 3 middleRead) [] c' (.err 5) w ∧ w.FirstFailed ∧
    c'.fileMap = middleRead.fileMap ∧ c'.recentList = middleRead.recentList := by
  obtain ⟨S, h, hS⟩ := exists_middleRead
  have hx : Exec Noted (Cache.cacheBlocks 2 [102] 0 3 middleRead) [] _ (.err 5) _ :=
    exec_answers (h := failsFrom 0) (fun _ _ => rfl) _ _ (by decide +kernel)
  exact ⟨S, _, _, h, hS, hx, by decide +kernel,
    (failed_fetch_clean_iff (by decide) h (by rw [LoneCache.cache, hS]; rfl) hx).mpr (by decide +kernel)⟩

/-- **The second of two fetches fails**: the block of the first one stays. -/
theorem failed_fetch_leaves_block : ∃ S c' w, CacheReach 2 .inserted S ∧ S.threads () = .idle middleRead ∧
    Exec Noted (Cache.cacheBlocks 2 [102] 0 3 middleRead) [] c' (.err 5) w ∧
    middleRead.recentList.map (·.id.blockNum) = [1] ∧ c'.recentList.map (·.id.blockNum) = [1, 0] := by
  obtain ⟨S, h, hS⟩ := exists_middleRead
  have hx : Exec Noted (Cache.cacheBlocks 2 [102] 0 3 middleRead) [] _ (.err 5) _ :=
    exec_answers (h := failsFrom 1) (fun _ _ => rfl) _ _ (by decide +kernel)
  exact ⟨S, _, _, h, hS, hx, by decide +kernel, by decide +kernel⟩

end Nfs
