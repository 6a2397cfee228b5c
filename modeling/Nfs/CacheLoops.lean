/-
What the loops of the cache that call nothing do, each proved by induction
on the loop: writing and reading run over the blocks of an absolute byte
range, installing over the blocks of a fetched run, cleaning and deleting
over a list of blocks, eviction over the cold end of the recency list.
-/
import Nfs.CacheFacts

namespace Nfs.Cache

open PlainFile Intervals

variable {B : Nat} {c c' : Cache} {f g : Str} {fc fc' : FileCache} {b : Nat} {e e' : CacheEntry}

/-- The absolute view after one block's entry became `e'`. -/
theorem byte_of_block (hl : ∀ b', fc'.entries.lookup b' = if b' = b then some e' else fc.entries.lookup b')
    (x : Nat) : fc'.byte B x = if x / B = b then e'.byte (x % B) else fc.byte B x := by
  unfold FileCache.byte
  rw [hl]
  split <;> rfl

theorem dirtyAt_of_block (hl : ∀ b', fc'.entries.lookup b' = if b' = b then some e' else fc.entries.lookup b')
    (x : Nat) : fc'.dirtyAt B x ↔ if x / B = b then e'.state = .dirty else fc.dirtyAt B x := by
  unfold FileCache.dirtyAt
  rw [hl]
  split
  · simp only [Option.some.injEq, exists_eq_left']
  · exact Iff.rfl

/-- Offsets of block `b` and offsets in it. -/
theorem block_offset (hB : 0 < B) {x : Nat} : x / B = b ↔ b * B ≤ x ∧ x < b * B + B := by
  rw [Nat.div_eq_iff hB]
  omega

theorem mod_of_block {x : Nat} (h : x / B = b) : x % B = x - b * B := by
  rw [← h, Nat.mod_eq_sub, Nat.mul_comm]

/-- Offsets of the blocks `[start, start + n)`. -/
theorem run_offset (hB : 0 < B) {start n x : Nat} (h₁ : start ≤ x / B) (h₂ : x / B < start + n) :
    start * B ≤ x ∧ x - start * B < n * B := by
  have hlo : start * B ≤ x := le_trans (Nat.mul_le_mul_right _ h₁) (Nat.div_mul_le_self x B)
  have hhi : x < (x / B + 1) * B := by
    rw [Nat.mul_comm]
    exact Nat.lt_mul_div_succ x hB
  have hle : (x / B + 1) * B ≤ (start + n) * B := Nat.mul_le_mul_right _ (by omega)
  rw [Nat.add_mul start n B] at hle
  exact ⟨hlo, by omega⟩

/-! ## Writing -/

/-- One iteration of the loop of `write`. -/
theorem writeBlock_spec (hB : 0 < B) (h : c.Wf B) (hf : c.file f = some fc) (b off : Nat) {buf : Bytes}
    (hne : buf ≠ []) (hle : off + buf.length ≤ B) :
    ∃ c' fc', writeBlock B f b off buf c = some c' ∧ Changed B f c c' fc fc' ∧
      (∀ x, fc'.byte B x =
        if b * B + off ≤ x ∧ x < b * B + off + buf.length then some (byteAt buf (x - (b * B + off)))
        else fc.byte B x) ∧
      ∀ x, fc'.dirtyAt B x ↔ fc.dirtyAt B x ∨ x / B = b := by
  obtain ⟨e', hw, hwf, hst, hur, hby⟩ := CacheEntry.write_spec (entryOrNew_wf (b := b) h hf) hne hle
  obtain ⟨c', fc', ht, hc, hl⟩ := touchEntry_spec (u := (·.write off buf)) h hf hw hwf hur
  refine ⟨c', fc', by simp only [writeBlock, hle, if_true, ht], hc, fun x => ?_, fun x => ?_⟩
  · rw [byte_of_block hl, hby, entryOrNew_byte]
    by_cases hx : x / B = b
    · have hm := mod_of_block hx
      have hb := (block_offset hB).mp hx
      rw [if_pos hx, hm]
      by_cases hin : b * B + off ≤ x ∧ x < b * B + off + buf.length
      · rw [if_pos (by omega), if_pos hin]
        congr 2; omega
      · rw [if_neg (by omega), if_neg hin, FileCache.byte, hx, hm]
    · rw [if_neg hx, if_neg]
      rw [block_offset hB] at hx
      omega
  · rw [dirtyAt_of_block hl]
    by_cases hx : x / B = b <;> simp [hx, hst]

/-- The loop of `write` from the point where `written` bytes are stored: it
stores the others, and the blocks it passes are dirty. -/
theorem writeLoop_spec (hB : 0 < B) (buf : Bytes) (offset : Nat) : ∀ (fuel cur bstart bsize written : Nat)
    {c : Cache} {fc : FileCache}, c.Wf B → c.file f = some fc →
    (written < buf.length →
      cur * B + bstart = offset + written ∧ bstart < B ∧ bsize = min (B - bstart) (buf.length - written)) →
    written ≤ buf.length → buf.length - written ≤ fuel →
    ∃ c' fc', writeLoop B f buf fuel cur bstart bsize written c = some c' ∧ Changed B f c c' fc fc' ∧
      (∀ x, fc'.byte B x =
        if offset + written ≤ x ∧ x < offset + buf.length then some (byteAt buf (x - offset))
        else fc.byte B x) ∧
      ∀ x, fc'.dirtyAt B x ↔ fc.dirtyAt B x ∨
        ∃ y, offset + written ≤ y ∧ y < offset + buf.length ∧ y / B = x / B
  | 0, cur, bstart, bsize, written, c, fc, h, hf, _, hle, hfuel => by
    have hend : ¬ written < buf.length := by omega
    refine ⟨c, fc, by simp only [writeLoop, hend, if_false], .refl h hf, fun x => ?_, fun x => ?_⟩
    · rw [if_neg (by omega)]
    · exact ⟨.inl, fun hx => hx.elim id fun ⟨y, h₁, h₂, _⟩ => absurd h₁ (by omega)⟩
  | fuel + 1, cur, bstart, bsize, written, c, fc, h, hf, hpos, hle, hfuel => by
    by_cases hlt : written < buf.length
    · obtain ⟨hcur, hbs, hbz⟩ := hpos hlt
      have hlen : ((buf.drop written).take bsize).length = bsize := by simp; omega
      have hne : (buf.drop written).take bsize ≠ [] := List.ne_nil_of_length_pos (by omega)
      obtain ⟨c₁, fc₁, h₁, hc₁, hby₁, hd₁⟩ := writeBlock_spec hB h hf cur bstart hne (by omega)
      rw [hlen] at hby₁
      -- The next iteration starts at a block boundary unless this was the last.
      obtain ⟨c₂, fc₂, h₂, hc₂, hby₂, hd₂⟩ := writeLoop_spec hB buf offset fuel (cur + 1) 0
        (min B (buf.length - (written + bsize))) (written + bsize) hc₁.wf hc₁.file
        (fun _ => ⟨by rw [Nat.add_mul]; omega, hB, by omega⟩) (by omega) (by omega)
      refine ⟨c₂, fc₂, ?_, hc₁.trans hc₂, fun x => ?_, fun x => ?_⟩
      · simp only [writeLoop, hlt, if_true, h₁, Option.bind_eq_bind, Option.bind_some, h₂]
      · rw [hby₂, hby₁, hcur]
        by_cases hx₂ : offset + (written + bsize) ≤ x ∧ x < offset + buf.length
        · rw [if_pos hx₂, if_pos (by omega)]
        · rw [if_neg hx₂]
          by_cases hx₁ : offset + written ≤ x ∧ x < offset + written + bsize
          · rw [if_pos hx₁, if_pos (by omega), byteAt_take, if_pos (by omega), byteAt_drop]
            congr 2; omega
          · rw [if_neg hx₁, if_neg (by omega)]
      · have hthis : ∀ y, offset + written ≤ y → y < offset + written + bsize → y / B = cur := fun y h₁ h₂ =>
          (block_offset hB).mpr (by omega)
        rw [hd₂, hd₁, or_assoc]
        refine or_congr_right ⟨?_, ?_⟩
        · rintro (hx | ⟨y, hy₁, hy₂, hy₃⟩)
          · exact ⟨offset + written, le_refl _, by omega, by rw [hthis _ (le_refl _) (by omega), hx]⟩
          · exact ⟨y, by omega, hy₂, hy₃⟩
        · rintro ⟨y, hy₁, hy₂, hy₃⟩
          by_cases hy : y < offset + written + bsize
          · exact .inl (by rw [← hy₃, hthis y hy₁ hy])
          · exact .inr ⟨y, by omega, hy₂, hy₃⟩
    · refine ⟨c, fc, by simp only [writeLoop, hlt, if_false], .refl h hf, fun x => ?_, fun x => ?_⟩
      · rw [if_neg (by omega)]
      · exact ⟨.inl, fun hx => hx.elim id fun ⟨y, h₁, h₂, _⟩ => absurd h₁ (by omega)⟩

/-- `write` once the attributes are there: the bytes are stored and dirty,
and the file is at least as long as they reach. -/
theorem store_spec (hB : 0 < B) (h : c.Wf B) (hf : c.file f = some fc) (offset : Nat) (buf : Bytes) :
    ∃ c' fc', store B f offset buf c = some c' ∧ c'.Wf B ∧ Frame f c c' ∧ c'.file f = some fc' ∧
      fc'.attr = { fc.attr with size := max fc.attr.size (offset + buf.length) } ∧ fc'.stale = fc.stale ∧
      (∀ x, fc'.byte B x =
        if offset ≤ x ∧ x < offset + buf.length then some (byteAt buf (x - offset)) else fc.byte B x) ∧
      ∀ x, fc'.dirtyAt B x ↔ fc.dirtyAt B x ∨ ∃ y, offset ≤ y ∧ y < offset + buf.length ∧ y / B = x / B := by
  have hstart : offset / B * B + offset % B = offset := by rw [Nat.mul_comm]; exact Nat.div_add_mod _ _
  have hmod := Nat.mod_lt offset hB
  -- The size is raised first; either way the entries are those of `fc`.
  obtain ⟨c₁, fc₁, hs, hw₁, hfr₁, hf₁, ha₁, hst₁, he₁⟩ : ∃ c₁ fc₁,
      (if offset + buf.length > fc.attr.size then setSize f (offset + buf.length) c else some c) = some c₁ ∧
      c₁.Wf B ∧ Frame f c c₁ ∧ c₁.file f = some fc₁ ∧
      fc₁.attr = { fc.attr with size := max fc.attr.size (offset + buf.length) } ∧ fc₁.stale = fc.stale ∧
      fc₁.entries = fc.entries := by
    by_cases hgt : offset + buf.length > fc.attr.size
    · refine ⟨c.setFile f { fc with attr := { fc.attr with size := offset + buf.length } },
        { fc with attr := { fc.attr with size := offset + buf.length } }, ?_, h.setFile hf rfl,
        fun g hg => by simp [hg], by simp, ?_, rfl, rfl⟩
      · simp only [hgt, if_true, setSize, hf, Option.bind_eq_bind, Option.bind_some]
      · simp only [Nat.max_eq_right (Nat.le_of_lt hgt)]
    · exact ⟨c, fc, by simp only [hgt, if_false], h, fun _ _ => rfl, hf,
        by rw [Nat.max_eq_left (by omega)], rfl, rfl⟩
  obtain ⟨c₂, fc₂, hl, hc₂, hby, hd⟩ := writeLoop_spec hB buf offset buf.length (offset / B) (offset % B)
    (min (B - offset % B) buf.length) 0 hw₁ hf₁ (fun _ => ⟨by omega, hmod, by omega⟩) (by omega) (by omega)
  refine ⟨c₂, fc₂, ?_, hc₂.wf, fun g hg => (hc₂.frame g hg).trans (hfr₁ g hg), hc₂.file, hc₂.attr.trans ha₁,
    hc₂.stale.trans hst₁, ?_, ?_⟩
  · simp only [store, hf, Option.bind_eq_bind, Option.bind_some]
    split at hs
    · rename_i hgt; rw [if_pos hgt, hs, Option.bind_some, hl]
    · rename_i hgt; cases hs; rw [if_neg hgt, hl]
  · simpa only [FileCache.byte, he₁, Nat.add_zero] using hby
  · simpa only [FileCache.dirtyAt, he₁, Nat.add_zero] using hd

/-! ## Fetching -/

/-- The block ranges `cacheBlocks` asks for: the blocks that are not full. -/
theorem missingBlocks_spec (fc : FileCache) : ∀ (n b : Nat) {range : RangeList}, Gapped range →
    ∃ rs, missingBlocks B fc n b range = some rs ∧ Gapped rs ∧
      ∀ y, Covers rs y ↔ Covers range y ∨ (b ≤ y ∧ y < b + n ∧ isFullBlock B fc y = false)
  | 0, b, range, hg => ⟨range, rfl, hg, fun y => ⟨.inl, fun h => h.elim id fun h => absurd h.1 (by omega)⟩⟩
  | n + 1, b, range, hg => by
    by_cases hfull : isFullBlock B fc b = true
    · obtain ⟨rs, hrs, hg', hc⟩ := missingBlocks_spec fc n (b + 1) hg
      refine ⟨rs, by simp only [missingBlocks, hfull, if_true, hrs], hg', fun y => ?_⟩
      rw [hc]
      refine or_congr_right ⟨fun hy => ⟨by omega, by omega, hy.2.2⟩, fun hy => ?_⟩
      have : y ≠ b := by rintro rfl; rw [hfull] at hy; exact absurd hy.2.2 (by simp)
      exact ⟨by omega, by omega, hy.2.2⟩
    · obtain ⟨rs₁, h₁, hg₁, hc₁⟩ := RangeList.insertRange_spec hg (Nat.lt_succ_self b)
      obtain ⟨rs, hrs, hg', hc⟩ := missingBlocks_spec fc n (b + 1) hg₁
      refine ⟨rs, ?_, hg', fun y => ?_⟩
      · simp only [missingBlocks, hfull, if_false, h₁, Option.bind_eq_bind, Option.bind_some, hrs,
          Bool.false_eq_true]
      · rw [hc, hc₁, or_assoc]
        refine or_congr_right ⟨?_, fun hy => ?_⟩
        · rintro (hy | hy)
          · obtain rfl : y = b := by omega
            exact ⟨by omega, by omega, by simpa using hfull⟩
          · exact ⟨by omega, by omega, hy.2.2⟩
        · by_cases hyb : y = b
          · exact .inl (by omega)
          · exact .inr ⟨by omega, by omega, hy.2.2⟩

/-- The blocks of a fetched run: what was valid stays, the rest is taken
from the buffer, and no block becomes dirty or clean. -/
theorem installBlocks_spec (hB : 0 < B) (buf : Bytes) (start : Nat) : ∀ (n b : Nat) {c : Cache} {fc : FileCache},
    c.Wf B → c.file f = some fc → start ≤ b → (b + n - start) * B ≤ buf.length →
    ∃ c' fc', installBlocks B f buf start n b c = some c' ∧ Changed B f c c' fc fc' ∧
      (∀ x, fc'.byte B x =
        if b ≤ x / B ∧ x / B < b + n then some ((fc.byte B x).getD (byteAt buf (x - start * B)))
        else fc.byte B x) ∧
      ∀ x, fc'.dirtyAt B x ↔ fc.dirtyAt B x
  | 0, b, c, fc, h, hf, _, _ => ⟨c, fc, rfl, .refl h hf, fun x => by rw [if_neg (by omega)], fun _ => Iff.rfl⟩
  | n + 1, b, c, fc, h, hf, hsb, hlen => by
    have hroom : (b - start) * B + B ≤ buf.length := by
      refine le_trans ?_ hlen
      rw [← Nat.succ_mul]
      exact Nat.mul_le_mul_right _ (by omega)
    have hd : ((buf.drop ((b - start) * B)).take B).length = B := by simp; omega
    obtain ⟨e', hfe, hwf, hst, hur, hby⟩ := CacheEntry.fetch_spec (entryOrNew_wf (b := b) h hf) hB hd
    obtain ⟨c₁, fc₁, h₁, hc₁, hl₁⟩ :=
      touchEntry_spec (u := (·.fetch ((buf.drop ((b - start) * B)).take B))) h hf hfe hwf hur
    obtain ⟨c₂, fc₂, h₂, hc₂, hby₂, hd₂⟩ :=
      installBlocks_spec hB buf start n (b + 1) hc₁.wf hc₁.file (by omega)
        (by rw [show b + 1 + n = b + (n + 1) by omega]; exact hlen)
    refine ⟨c₂, fc₂, ?_, hc₁.trans hc₂, fun x => ?_, fun x => ?_⟩
    · simp only [installBlocks, h₁, Option.bind_eq_bind, Option.bind_some, h₂]
    · rw [hby₂, byte_of_block hl₁, hby, entryOrNew_byte]
      by_cases hx : x / B = b
      · have hm := mod_of_block hx
        have hb := (block_offset hB).mp hx
        have hs : start * B ≤ b * B := Nat.mul_le_mul_right _ hsb
        rw [if_neg (by omega), if_pos hx, if_pos (Nat.mod_lt _ hB), if_pos (by omega), FileCache.byte, hx,
          byteAt_take, if_pos (Nat.mod_lt _ hB), byteAt_drop, hm, Nat.sub_mul]
        congr 3; omega
      · rw [if_neg hx]
        by_cases hx' : b + 1 ≤ x / B ∧ x / B < b + 1 + n
        · rw [if_pos hx', if_pos (by omega)]
        · rw [if_neg hx', if_neg (by omega)]
    · rw [hd₂, dirtyAt_of_block hl₁]
      split
      · rename_i hx
        rw [hst, FileCache.dirtyAt, hx, entryOrNew]
        cases fc.entries.lookup b <;> simp [CacheEntry.new]
      · exact Iff.rfl

/-! ## Reading -/

theorem isFullBlock_iff (hB : 0 < B) (h : c.Wf B) (hf : c.file f = some fc) :
    isFullBlock B fc b = true ↔ ∀ x, x / B = b → (fc.byte B x).isSome := by
  unfold isFullBlock FileCache.byte
  cases hb : fc.entries.lookup b with
  | none =>
    simp only [Bool.false_eq_true, false_iff, not_forall]
    exact ⟨b * B, by rw [Nat.mul_div_cancel _ hB]; simp [hb]⟩
  | some e =>
    have hw := h.entry f b e (by rw [entry_of_file hf, hb])
    simp only [CacheEntry.isFull_iff hw hB]
    constructor
    · intro hall x hx
      rw [hx, hb]
      exact hall _ (Nat.mod_lt _ hB)
    · intro hall i hi
      have hx : (b * B + i) / B = b := (block_offset hB).mpr (by omega)
      have := hall _ hx
      rw [hx, hb, mod_of_block hx] at this
      simpa using this

/-- One iteration of the loop of `read`. -/
theorem readBlock_spec (hB : 0 < B) (h : c.Wf B) (hf : c.file f = some fc) (b off size : Nat)
    (hle : off + size ≤ B) (hfull : isFullBlock B fc b = true) :
    ∃ piece c', readBlock B f b off size c = some (piece, c') ∧ c'.Wf B ∧ c'.fileMap = c.fileMap ∧
      piece.length = size ∧ ∀ i, i < size → fc.byte B (b * B + off + i) = some (byteAt piece i) := by
  have hall := (isFullBlock_iff hB h hf).mp hfull
  obtain ⟨e, hb⟩ : ∃ e, fc.entries.lookup b = some e := by
    unfold isFullBlock at hfull
    split at hfull
    · cases hfull
    · exact ⟨_, by assumption⟩
  have hent : c.entry f b = some e := by rw [entry_of_file hf, hb]
  obtain ⟨c', hm, hw', hfm⟩ := moveToHead_spec h hent
  have hlen := (h.entry f b e hent).length
  refine ⟨(e.data.drop off).take size, c', ?_, hw', hfm, by simp; omega, fun i hi => ?_⟩
  · simp only [readBlock, hf, Option.bind_eq_bind, Option.bind_some, hle, if_true, hb, hfull, hm]
  · have hx : (b * B + off + i) / B = b := (block_offset hB).mpr (by omega)
    have hsome := hall _ hx
    rw [FileCache.byte, hx, hb, Option.bind_some, mod_of_block hx] at hsome ⊢
    obtain ⟨v, hv⟩ := Option.isSome_iff_exists.mp hsome
    rw [hv, byteAt_take, if_pos hi, byteAt_drop, ← (CacheEntry.byte_eq_some.mp hv).2]
    congr 2; omega

/-- The loop of `read` over full blocks: it ends with the valid bytes of the
range, and moves nodes of the recency list only. -/
theorem readLoop_spec (hB : 0 < B) (size offset : Nat) : ∀ (fuel cur bstart bsize : Nat) (buf : Bytes) {c : Cache},
    c.Wf B → c.file f = some fc → (∀ x, offset ≤ x → x < offset + size → isFullBlock B fc (x / B) = true) →
    (buf.length < size →
      cur * B + bstart = offset + buf.length ∧ bstart < B ∧ bsize = min (B - bstart) (size - buf.length)) →
    buf.length ≤ size → size - buf.length ≤ fuel →
    (∀ i, i < buf.length → fc.byte B (offset + i) = some (byteAt buf i)) →
    ∃ buf' c', readLoop B f size fuel cur bstart bsize buf c = some (buf', c') ∧ c'.Wf B ∧
      c'.fileMap = c.fileMap ∧ buf'.length = size ∧
      ∀ i, i < size → fc.byte B (offset + i) = some (byteAt buf' i)
  | 0, cur, bstart, bsize, buf, c, h, hf, _, _, hle, hfuel, hdone => by
    have hend : ¬ buf.length < size := by omega
    exact ⟨buf, c, by simp only [readLoop, hend, if_false], h, rfl, by omega, fun i hi => hdone i (by omega)⟩
  | fuel + 1, cur, bstart, bsize, buf, c, h, hf, hfull, hpos, hle, hfuel, hdone => by
    by_cases hlt : buf.length < size
    · obtain ⟨hcur, hbs, hbz⟩ := hpos hlt
      have hblock : (offset + buf.length) / B = cur := (block_offset hB).mpr (by omega)
      obtain ⟨piece, c₁, h₁, hw₁, hm₁, hlen₁, hby₁⟩ := readBlock_spec hB h hf cur bstart bsize
        (by omega) (by rw [← hblock]; exact hfull _ (by omega) (by omega))
      have hf₁ : c₁.file f = some fc := by rw [Cache.file, hm₁]; exact hf
      have hl : (buf ++ piece).length = buf.length + bsize := by rw [List.length_append, hlen₁]
      obtain ⟨buf', c₂, h₂, hw₂, hm₂, hlen₂, hby₂⟩ := readLoop_spec hB size offset fuel (cur + 1) 0
        (min B (size - (buf.length + bsize))) (buf ++ piece) hw₁ hf₁ hfull
        (fun hlt' => ⟨by rw [Nat.add_mul]; omega, hB, by omega⟩) (by omega) (by omega)
        (fun i hi => by
          rw [byteAt_append]
          split
          · exact hdone i (by assumption)
          · rw [← hby₁ _ (by omega), hcur]
            congr 1; omega)
      refine ⟨buf', c₂, ?_, hw₂, hm₂.trans hm₁, hlen₂, hby₂⟩
      simp only [readLoop, hlt, if_true, h₁, Option.bind_eq_bind, Option.bind_some, h₂]
    · exact ⟨buf, c, by simp only [readLoop, hlt, if_false], h, rfl, by omega, fun i hi => hdone i (by omega)⟩

/-! ## Dropping blocks -/

theorem deleteKeys_spec (bound : Nat) : ∀ (ks : List Nat) {c : Cache} {fc : FileCache}, c.Wf B → c.file f = some fc →
    ks.Nodup → (∀ b ∈ ks, (fc.entries.lookup b).isSome) →
    ∃ c' fc', ks.foldlM (fun c b => if b ≥ bound then deleteEntry f b c else some c) c = some c' ∧
      Changed B f c c' fc fc' ∧
      ∀ b, fc'.entries.lookup b = if b ∈ ks ∧ bound ≤ b then none else fc.entries.lookup b
  | [], c, fc, h, hf, _, _ => ⟨c, fc, rfl, .refl h hf, fun b => by simp⟩
  | b :: ks, c, fc, h, hf, hn, hall => by
    obtain ⟨hnb, hnk⟩ := List.nodup_cons.mp hn
    by_cases hb : b ≥ bound
    · obtain ⟨e, he⟩ := Option.isSome_iff_exists.mp (hall b (by simp))
      obtain ⟨c₁, h₁, hc₁, -⟩ := deleteEntry_spec h hf he
      have hkeep : ∀ b', b' ≠ b → (fc.entries.erase b).lookup b' = fc.entries.lookup b' :=
        fun b' hb' => AList.lookup_erase_ne hb'
      obtain ⟨c₂, fc₂, h₂, hc₂, hl⟩ := deleteKeys_spec bound ks hc₁.wf hc₁.file hnk fun b' hb' => by
        rw [hkeep b' (fun he => hnb (he ▸ hb'))]
        exact hall b' (by simp [hb'])
      refine ⟨c₂, fc₂, ?_, hc₁.trans hc₂, fun b' => ?_⟩
      · simp only [List.foldlM_cons, hb, if_true, h₁, Option.bind_eq_bind, Option.bind_some, h₂]
      · rw [hl]
        by_cases hb' : b' = b
        · subst hb'
          simp only [hnb, false_and, if_false, AList.lookup_erase, List.mem_cons, true_or, true_and]
          rw [if_pos hb]
        · simp only [hkeep b' hb', List.mem_cons, hb', false_or]
    · obtain ⟨c₂, fc₂, h₂, hc₂, hl⟩ := deleteKeys_spec bound ks h hf hnk fun b' hb' => hall b' (by simp [hb'])
      refine ⟨c₂, fc₂, ?_, hc₂, fun b' => ?_⟩
      · simp only [List.foldlM_cons, hb, if_false, Option.bind_eq_bind, Option.bind_some, h₂]
      · rw [hl]
        by_cases hb' : b' = b
        · subst hb'
          simp only [hnb, false_and, if_false, List.mem_cons, true_or, true_and]
          rw [if_neg hb]
        · simp only [List.mem_cons, hb', false_or]

/-- `deleteEntryBeyond` drops the blocks from the bound on. -/
theorem deleteEntryBeyond_spec (h : c.Wf B) (hf : c.file f = some fc) (bound : Nat) :
    ∃ c' fc', deleteEntryBeyond f bound c = some c' ∧ Changed B f c c' fc fc' ∧
      ∀ b, fc'.entries.lookup b = if bound ≤ b then none else fc.entries.lookup b := by
  obtain ⟨c', fc', hd, hc, hl⟩ := deleteKeys_spec bound fc.entries.keys h hf (AList.keys_nodup _) fun b hb =>
    AList.lookup_isSome.mpr (AList.mem_keys.mpr hb)
  refine ⟨c', fc', by simp only [deleteEntryBeyond, hf, Option.bind_eq_bind, Option.bind_some, hd], hc,
    fun b => ?_⟩
  rw [hl]
  by_cases hb : b ∈ fc.entries.keys
  · simp only [hb, true_and]
  · have : fc.entries.lookup b = none := AList.lookup_eq_none.mpr fun hm => hb (AList.mem_keys.mp hm)
    simp only [hb, false_and, this, ite_self]

/-- `invalidate` forgets the file. -/
theorem invalidate_spec (h : c.Wf B) :
    ∃ c', invalidate f c = some c' ∧ c'.Wf B ∧ Frame f c c' ∧ c'.file f = none := by
  cases hf : c.file f with
  | none => exact ⟨c, by simp only [invalidate, hf], h, fun _ _ => rfl, hf⟩
  | some fc =>
    obtain ⟨c₁, fc₁, h₁, hc₁, hl₁⟩ := deleteEntryBeyond_spec h hf 0
    have hfile : ∀ g, g ≠ f → ({ c₁ with fileMap := c₁.fileMap.erase f } : Cache).file g = c₁.file g :=
      fun g hg => AList.lookup_erase_ne hg
    refine ⟨{ c₁ with fileMap := c₁.fileMap.erase f }, ?_, ?_,
      fun g hg => (hfile g hg).trans (hc₁.frame g hg), AList.lookup_erase _ _⟩
    · simp only [invalidate, hf, h₁, Option.bind_eq_bind, Option.bind_some]
    · refine hc₁.wf.congr (fun g b => ?_) rfl rfl
      by_cases hg : g = f
      · subst hg
        rw [entry_of_file hc₁.file, hl₁, if_pos (Nat.zero_le _), Cache.entry, Cache.file, AList.lookup_erase]
        rfl
      · rw [Cache.entry, hfile g hg]; rfl

/-- The blocks of `bs` become clean; no byte changes. -/
theorem cleanBlocks_spec : ∀ (bs : List Nat) {c : Cache} {fc : FileCache}, c.Wf B → c.file f = some fc →
    (∀ b ∈ bs, (fc.entries.lookup b).isSome) →
    ∃ c' fc', cleanBlocks f bs c = some c' ∧ Changed B f c c' fc fc' ∧ c'.recentList = c.recentList ∧
      ∀ b, fc'.entries.lookup b =
        if b ∈ bs then (fc.entries.lookup b).map fun e => { e with state := .clean } else fc.entries.lookup b
  | [], c, fc, h, hf, _ => ⟨c, fc, rfl, .refl h hf, rfl, fun b => by simp⟩
  | b :: bs, c, fc, h, hf, hall => by
    obtain ⟨e, he⟩ := Option.isSome_iff_exists.mp (hall b (by simp))
    have hw := h.entry f b e (by rw [entry_of_file hf, he])
    obtain ⟨c₁, h₁, hc₁, hr₁⟩ := updateEntry_spec (u := fun e => some { e with state := .clean }) h hf he rfl
      ⟨hw.length, hw.gapped, hw.inside⟩ rfl
    have hlook : ∀ b', (fc.entries.insert b { e with state := .clean }).lookup b' =
        if b' = b then some { e with state := .clean } else fc.entries.lookup b' := by
      intro b'
      split
      · rename_i hb'; subst hb'; exact AList.lookup_insert _
      · rename_i hb'; exact AList.lookup_insert_ne hb'
    obtain ⟨c₂, fc₂, h₂, hc₂, hr₂, hl⟩ := cleanBlocks_spec bs hc₁.wf hc₁.file fun b' hb' => by
      rw [hlook]
      split
      · rfl
      · exact hall b' (by simp [hb'])
    refine ⟨c₂, fc₂, ?_, hc₁.trans hc₂, hr₂.trans hr₁, fun b' => ?_⟩
    · simp only [cleanBlocks, List.foldlM_cons, h₁, Option.bind_eq_bind, Option.bind_some]
      exact h₂
    · rw [hl, hlook]
      by_cases hb' : b' = b
      · subst hb'
        simp only [if_true, he, Option.map_some, List.mem_cons, true_or, ite_self]
      · simp only [hb', if_false, List.mem_cons, false_or]

/-! ## Eviction -/

/-- The loop of `evictBlocks` drops entries only, as many as there are. -/
theorem dropTail_spec : ∀ (n : Nat) {c : Cache}, c.Wf B → n ≤ c.recentList.length →
    ∃ c', dropTail n c = some c' ∧ c'.Wf B ∧ Files.Thinned c.file c'.file
  | 0, c, h, _ => ⟨c, rfl, h, .refl _⟩
  | n + 1, c, h, hn => by
    obtain ⟨r, hr⟩ : ∃ r, c.recentList.getLast? = some r := by
      rw [← Option.isSome_iff_exists, List.getLast?_isSome]
      exact List.ne_nil_of_length_pos (by omega)
    have hmem := List.mem_of_getLast? hr
    obtain ⟨e, he, ha⟩ := (h.record r.addr r.id.filename r.id.blockNum).mp hmem
    obtain ⟨fc, hf, hb⟩ := exists_file_of_entry he
    obtain ⟨c₁, h₁, hc₁, hl₁⟩ := deleteEntry_spec h hf hb
    have hlen : c₁.recentList.length = c.recentList.length - 1 := by
      rw [hl₁, eraseRecord, List.length_eraseP_of_mem hmem (by simp [ha])]
    obtain ⟨c₂, h₂, hw₂, ht₂⟩ := dropTail_spec n hc₁.wf (by omega)
    refine ⟨c₂, ?_, hw₂, Files.Thinned.trans (fun g => ?_) ht₂⟩
    · simp only [dropTail, hr, Option.bind_eq_bind, Option.bind_some, h₁, h₂]
    · by_cases hg : g = r.id.filename
      · subst hg
        refine .inr ⟨_, _, hf, hc₁.file, rfl, rfl, fun b e' he' => ?_⟩
        by_cases hbb : b = r.id.blockNum
        · subst hbb; rw [AList.lookup_erase] at he'; cases he'
        · rwa [AList.lookup_erase_ne hbb] at he'
      · rw [hc₁.frame g hg]
        exact Files.Thinned.refl c.file g

/-! ## Lists of dirty blocks -/

/-- Block `b` of `f` is dirty. -/
def IsDirty (c : Cache) (f : Str) (b : Nat) : Prop := ∃ e, c.entry f b = some e ∧ e.state = .dirty

theorem isDirty_iff (hB : 0 < B) (hf : c.file f = some fc) : c.IsDirty f b ↔ fc.dirtyAt B (b * B) := by
  rw [IsDirty, entry_of_file hf, FileCache.dirtyAt, Nat.mul_div_cancel _ hB]

/-- Once a file is written back, the lists of the others are still right. -/
theorem Frame.dirtyLists {fblocks : List (Str × List Nat)} {bs : List Nat} (h : Frame f c c')
    (hnf : f ∉ fblocks.map (·.1)) (hm : (g, bs) ∈ fblocks) (hbs : ∀ b, b ∈ bs ↔ c.IsDirty g b) (b : Nat) :
    b ∈ bs ↔ c'.IsDirty g b := by
  have hg : g ≠ f := fun hg => hnf (hg ▸ List.mem_map.mpr ⟨_, hm, rfl⟩)
  rw [hbs, IsDirty, IsDirty, h.entry hg]

/-- The block list `flush` builds. -/
theorem mem_dblocks :
    b ∈ (fc.entries.entries.filter fun p => p.2.state = .dirty).map (·.1) ↔
      ∃ e, fc.entries.lookup b = some e ∧ e.state = .dirty := by
  simp only [List.mem_map, List.mem_filter, decide_eq_true_eq]
  constructor
  · rintro ⟨⟨b', e⟩, ⟨hm, hd⟩, rfl⟩
    exact ⟨e, AList.mem_lookup_iff.mpr hm, hd⟩
  · rintro ⟨e, he, hd⟩
    exact ⟨⟨b, e⟩, ⟨AList.mem_lookup_iff.mp he, hd⟩, rfl⟩

/-- The blocks listed under a name. -/
def blocksOf (f : Str) (fblocks : List (Str × List Nat)) : List Nat := (fblocks.lookup f).getD []

theorem blocksOf_pushBlock {fblocks : List (Str × List Nat)} :
    blocksOf g (pushBlock f b fblocks) = if g = f then blocksOf g fblocks ++ [b] else blocksOf g fblocks := by
  induction fblocks with
  | nil => by_cases h : g = f <;> simp [blocksOf, pushBlock, List.lookup_cons, h, beq_false_of_ne]
  | cons p fblocks ih =>
    obtain ⟨k, bs⟩ := p
    simp only [blocksOf] at ih
    simp only [blocksOf, pushBlock]
    by_cases hk : k = f
    · subst hk
      by_cases h : g = k <;> simp [List.lookup_cons, h, beq_false_of_ne]
    · by_cases h : g = k
      · subst h; simp [hk]
      · simp only [hk, if_false, List.lookup_cons, beq_false_of_ne h, ih]

theorem keys_pushBlock {fblocks : List (Str × List Nat)} :
    (pushBlock f b fblocks).map (·.1) =
      if f ∈ fblocks.map (·.1) then fblocks.map (·.1) else fblocks.map (·.1) ++ [f] := by
  induction fblocks with
  | nil => simp [pushBlock]
  | cons p fblocks ih =>
    obtain ⟨g, bs⟩ := p
    simp only [pushBlock]
    by_cases hg : g = f
    · subst hg; simp
    · have hg' : f ≠ g := fun h => hg h.symm
      simp only [hg, if_false, List.map_cons, ih, List.mem_cons, hg', false_or]
      split <;> simp

theorem blocksOf_of_mem : ∀ {fblocks : List (Str × List Nat)} {bs : List Nat}, (fblocks.map (·.1)).Nodup →
    (f, bs) ∈ fblocks → blocksOf f fblocks = bs
  | [], _, _, hm => absurd hm (by simp)
  | (g, bs') :: fblocks, bs, hn, hm => by
    obtain ⟨hg, hn'⟩ := List.nodup_cons.mp hn
    rcases List.mem_cons.mp hm with he | hm
    · cases he; simp [blocksOf]
    · have hne : f ≠ g := fun h => hg (h ▸ List.mem_map.mpr ⟨_, hm, rfl⟩)
      have := blocksOf_of_mem hn' hm
      simpa [blocksOf, List.lookup_cons, beq_false_of_ne hne] using this

/-- The record is one of a dirty block of `f`. -/
def dirtyRecord (c : Cache) (f : Str) (r : UseRecord) : Bool :=
  r.id.filename == f && (c.entry f r.id.blockNum).any fun e => decide (e.state = .dirty)

/-- The first loop of `flushDirtyBlocks`, from lists without a repeated or
empty one: every name gets its dirty records, in the order of the visit. -/
theorem collectDirty_records : ∀ (rs : List UseRecord) (fblocks : List (Str × List Nat)),
    (∀ r ∈ rs, (c.entry r.id.filename r.id.blockNum).isSome) → (fblocks.map (·.1)).Nodup →
    (∀ f ∈ fblocks.map (·.1), blocksOf f fblocks ≠ []) →
    ∃ fblocks', collectDirty c rs fblocks = some fblocks' ∧ (fblocks'.map (·.1)).Nodup ∧
      (∀ f ∈ fblocks'.map (·.1), blocksOf f fblocks' ≠ []) ∧
      ∀ f, blocksOf f fblocks' = blocksOf f fblocks ++ (rs.filter (dirtyRecord c f)).map (·.id.blockNum)
  | [], fblocks, _, hn, hne => ⟨fblocks, rfl, hn, hne, fun f => by simp⟩
  | r :: rs, fblocks, hsome, hn, hne => by
    obtain ⟨e, he⟩ := Option.isSome_iff_exists.mp (hsome r (by simp))
    have hrs : ∀ r ∈ rs, (c.entry r.id.filename r.id.blockNum).isSome := fun r hr => hsome r (by simp [hr])
    by_cases hd : e.state = .dirty
    · obtain ⟨fb, hc, hn', hne', hb⟩ := collectDirty_records rs
        (pushBlock r.id.filename r.id.blockNum fblocks) hrs
        (by
          rw [keys_pushBlock]
          split
          · exact hn
          · rename_i hnot
            exact List.nodup_append.mpr ⟨hn, by simp, fun a ha b hb => by
              rintro rfl; simp only [List.mem_singleton] at hb; exact hnot (hb ▸ ha)⟩)
        (fun f hf => by
          rw [blocksOf_pushBlock]
          split
          · simp
          · rename_i hfr
            rw [keys_pushBlock] at hf
            split at hf
            · exact hne f hf
            · simp only [List.mem_append, List.mem_singleton, hfr, or_false] at hf
              exact hne f hf)
      refine ⟨fb, by simp only [collectDirty, he, Option.bind_eq_bind, Option.bind_some, hd, if_true, hc], hn', hne',
        fun f => ?_⟩
      rw [hb, blocksOf_pushBlock]
      by_cases hf : f = r.id.filename
      · subst hf
        have : dirtyRecord c r.id.filename r = true := by simp [dirtyRecord, he, hd]
        simp [this]
      · have : dirtyRecord c f r = false := by simp [dirtyRecord, show ¬ r.id.filename = f from fun h => hf h.symm]
        simp [hf, this]
    · obtain ⟨fb, hc, hn', hne', hb⟩ := collectDirty_records rs fblocks hrs hn hne
      refine ⟨fb, by simp only [collectDirty, he, Option.bind_eq_bind, Option.bind_some, hd, if_false, hc], hn', hne',
        fun f => ?_⟩
      have : dirtyRecord c f r = false := by
        by_cases hf : r.id.filename = f
        · subst hf; simp [dirtyRecord, he, hd]
        · simp [dirtyRecord, hf]
      rw [hb]; simp [this]

/-- **The block lists of `flushDirtyBlocks`**: one for each file with dirty
blocks, holding each of them once. -/
theorem collectDirty_spec (h : c.Wf B) :
    ∃ fblocks, collectDirty c c.recentList.reverse [] = some fblocks ∧ (fblocks.map (·.1)).Nodup ∧
      (∀ f bs, (f, bs) ∈ fblocks → bs ≠ [] ∧ bs.Nodup ∧ ∀ b, b ∈ bs ↔ c.IsDirty f b) ∧
      ∀ f b, c.IsDirty f b → ∃ bs, (f, bs) ∈ fblocks := by
  obtain ⟨fb, hc, hn, hne, hb⟩ := collectDirty_records (c := c) c.recentList.reverse []
    (fun r hr => by
      obtain ⟨e, he, -⟩ := (h.record r.addr r.id.filename r.id.blockNum).mp (List.mem_reverse.mp hr)
      simp [he]) (by simp) (by simp)
  simp only [blocksOf, List.lookup_nil, Option.getD_none, List.nil_append] at hb
  have hmem : ∀ f b, b ∈ (c.recentList.reverse.filter (dirtyRecord c f)).map (·.id.blockNum) ↔ c.IsDirty f b := by
    intro f b
    simp only [List.mem_map, List.mem_filter, List.mem_reverse, dirtyRecord, Bool.and_eq_true, beq_iff_eq,
      Option.any_eq_true, decide_eq_true_eq, IsDirty]
    constructor
    · rintro ⟨r, ⟨hr, hf, e, he, hd⟩, rfl⟩
      exact ⟨e, he, hd⟩
    · rintro ⟨e, he, hd⟩
      exact ⟨⟨e.useRecord, ⟨f, b⟩⟩, ⟨h.mem_record he, rfl, e, he, hd⟩, rfl⟩
  have hnodup : ∀ f, ((c.recentList.reverse.filter (dirtyRecord c f)).map (·.id.blockNum)).Nodup := by
    intro f
    refine List.Nodup.map_on (fun r hr q hq hrq => ?_)
      ((List.nodup_reverse.mpr (List.Nodup.of_map _ h.addrs)).filter _)
    simp only [List.mem_filter, List.mem_reverse, dirtyRecord, Bool.and_eq_true, beq_iff_eq] at hr hq
    obtain ⟨e, he, ha⟩ := (h.record r.addr r.id.filename r.id.blockNum).mp hr.1
    obtain ⟨e', he', ha'⟩ := (h.record q.addr q.id.filename q.id.blockNum).mp hq.1
    rw [hr.2.1, hrq] at he
    rw [hq.2.1, he] at he'
    cases he'
    exact h.addr_inj hr.1 hq.1 (ha.symm.trans ha')
  refine ⟨fb, hc, hn, fun f bs hm => ?_, fun f b hd => ?_⟩
  · have hbs := blocksOf_of_mem hn hm
    have hne' := hne f (List.mem_map.mpr ⟨_, hm, rfl⟩)
    rw [hbs] at hne'
    have heq : bs = (c.recentList.reverse.filter (dirtyRecord c f)).map (·.id.blockNum) := by
      rw [← hbs]; exact hb f
    exact ⟨hne', heq ▸ hnodup f, fun b => heq ▸ hmem f b⟩
  · have hin := (hmem f b).mpr hd
    rw [← hb] at hin
    cases hl : fb.lookup f with
    | none => rw [hl] at hin; simp at hin
    | some bs => exact ⟨bs, by have := List.lookup_eq_some_iff.mp hl; obtain ⟨l₁, l₂, rfl, -⟩ := this; simp⟩

theorem mem_sort {bs : List Nat} : b ∈ sort bs ↔ b ∈ bs := List.mem_insertionSort _

end Nfs.Cache
