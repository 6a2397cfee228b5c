/-
Rules for writing back: `flushBlocks`, and the three operations that call
it.

`flushBlocks` merges the valid ranges of the listed blocks as it goes along.
All its callers need of that is said by two facts: what is pending is an
extent of the cached file (`Pending`), and whatever has been passed has been
sent or is pending. So at the end every valid byte of the listed blocks has
been sent, in content write-backs that carry cached bytes of dirty blocks
only.
-/
import Nfs.CacheRules

namespace Nfs

open PlainFile Resume Intervals

namespace FileCache

variable {B : Nat} {fc : FileCache} {off : Nat} {data data' : Bytes}

@[simp] theorem restamp_restamp {t t' : FileTime} {s s' : Bool} :
    (fc.restamp t s).restamp t' s' = fc.restamp t' s' := rfl

theorem Extent.append (h : fc.Extent B off data) (h' : fc.Extent B (off + data.length) data') :
    fc.Extent B off (data ++ data') := by
  refine ⟨by simp [h.nonempty], fun i hi => ?_, fun i hi => ?_⟩
  · rw [byteAt_append]
    split
    · rename_i hlt; exact h.byte i hlt
    · rename_i hlt
      rw [← h'.byte _ (by simp at hi; omega)]
      congr 1; omega
  · by_cases hlt : i < data.length
    · exact h.dirty i hlt
    · have := h'.dirty (i - data.length) (by simp at hi; omega)
      rwa [show off + data.length + (i - data.length) = off + i by omega] at this

/-- What `flushBlocks` has read and not sent: nothing, or an extent. -/
def Pending (B : Nat) (fc : FileCache) (flushRange : RangeList) (data : Bytes) : Prop :=
  (flushRange = [] ∧ data = []) ∨ ∃ off, flushRange = [⟨off, off + data.length⟩] ∧ fc.Extent B off data

end FileCache

namespace Cache

variable {B : Nat} {c c' : Cache} {f g : Str} {fc fc' : FileCache} {b : Nat} {e : CacheEntry}

/-- The bytes of a valid range. -/
theorem slice_byte (hB : 0 < B) (hw : e.Wf B) (hb : fc.entries.lookup b = some e) {rg : Range}
    (hrg : rg ∈ e.validRanges) :
    (slice e rg).length = rg.stop - rg.start ∧ ∀ i, i < (slice e rg).length →
      (rg.start + b * B + i) / B = b ∧ fc.byte B (rg.start + b * B + i) = some (byteAt (slice e rg) i) := by
  have hlt := hw.gapped.nonempty rg hrg
  have hin : ∀ i, rg.start ≤ i → i < rg.stop → Covers e.validRanges i := fun i h₁ h₂ => ⟨rg, hrg, h₁, h₂⟩
  have hstop : rg.stop ≤ B := by
    have := hw.inside (rg.stop - 1) (hin _ (by omega) (by omega))
    omega
  have hlen : (slice e rg).length = rg.stop - rg.start := by
    simp only [slice, List.length_drop, List.length_take, hw.length]
    omega
  refine ⟨hlen, fun i hi => ?_⟩
  have hoff : (rg.start + b * B + i) / B = b := (block_offset hB).mpr (by omega)
  refine ⟨hoff, ?_⟩
  rw [FileCache.byte, hoff, hb, Option.bind_some, mod_of_block hoff, CacheEntry.byte_eq_some]
  rw [show rg.start + b * B + i - b * B = rg.start + i by omega]
  refine ⟨hin _ (by omega) (by omega), ?_⟩
  rw [slice, byteAt_drop, byteAt_take, if_pos (by omega)]

/-- The bytes of a valid range of a dirty block are an extent. -/
theorem slice_extent (hB : 0 < B) (hw : e.Wf B) (hb : fc.entries.lookup b = some e) (hd : e.state = .dirty)
    {rg : Range} (hrg : rg ∈ e.validRanges) :
    rg.start < rg.stop ∧ (slice e rg).length = rg.stop - rg.start ∧
      fc.Extent B (rg.start + b * B) (slice e rg) := by
  have hlt := hw.gapped.nonempty rg hrg
  obtain ⟨hlen, hby⟩ := slice_byte hB hw hb hrg
  refine ⟨hlt, hlen, List.ne_nil_of_length_pos (by omega), fun i hi => (hby i hi).2, fun i hi => ?_⟩
  exact ⟨e, by rw [(hby i hi).1, hb], hd⟩

/-- The cache while `f` is written back: `fc` has got other stamps. -/
structure Restamped (B : Nat) (f : Str) (fc : FileCache) (c c' : Cache) : Prop where
  wf : c'.Wf B
  frame : Frame f c c'
  recents : c'.recentList = c.recentList
  file : ∃ t s, c'.file f = some (fc.restamp t s)

theorem Restamped.refl (h : c.Wf B) (hf : c.file f = some fc) : Restamped B f fc c c :=
  ⟨h, fun _ _ => rfl, rfl, fc.attr.time, fc.stale, hf⟩

theorem Restamped.next (h : Restamped B f fc c c') {t : FileTime} {s : Bool} (hf : c'.file f = some fc') :
    Restamped B f fc c (c'.setFile f (fc'.restamp t s)) := by
  obtain ⟨t', s', hf'⟩ := h.file
  rw [hf] at hf'
  cases hf'
  refine ⟨h.wf.setFile hf rfl, fun g hg => ?_, h.recents, t, s, by simp⟩
  rw [file_setFile, if_neg hg, h.frame g hg]

section
variable {W : Type} {E : Env Cache W Call.Ans} {J X : Files → W → Prop} {I : Phase → Files → W → Prop}
  {w : W} {S : Nat → Prop}

/-- Where the loops of `flushBlocks` stand: `passed` has been sent or is
pending. -/
def Passed (B : Nat) (I : Phase → Files → W → Prop) (f : Str) (fc : FileCache) (c₀ : Cache)
    (passed : Nat → Prop) (c : Cache) (w : W) (pending : RangeList × Bytes) : Prop :=
  ∃ S, Restamped B f fc c₀ c ∧ I (.sending S) c.file w ∧ fc.Pending B pending.1 pending.2 ∧
    ∀ x, passed x → S x ∨ Covers pending.1 x

theorem Passed.mono {c₀ : Cache} {P P' : Nat → Prop} {q : RangeList × Bytes} (h : Passed B I f fc c₀ P c w q)
    (hP : ∀ x, P' x → P x) : Passed B I f fc c₀ P' c w q := by
  obtain ⟨S, h₁, h₂, h₃, h₄⟩ := h
  exact ⟨S, h₁, h₂, h₃, fun x hx => h₄ x (hP x hx)⟩

/-- The pending extent goes out: it ends up among what has been sent. -/
theorem contentWb_rule (hU : Flushes E B J X I f) {c₀ : Cache} {off : Nat} {data : Bytes}
    (hc : Restamped B f fc c₀ c) (hI : I (.sending S) c.file w) (hx : fc.Extent B off data) :
    ((contentWb f off data) c).wp E (Ends B (fun _ _ => True) X fun c' w' _ => Restamped B f fc c₀ c' ∧
      I (.sending fun x => S x ∨ (off ≤ x ∧ x < off + data.length)) c'.file w') w := by
  obtain ⟨t, s, hf⟩ := hc.file
  refine contentWb_wp hf (hU.seen hc.wf hI) fun hr hs => ?_
  have hx' : (fc.restamp t s).Extent B off data := ⟨hx.nonempty, hx.byte, hx.dirty⟩
  obtain ⟨hok, herr⟩ := hU.contentWb hI hf hx' hr hs
  refine ⟨fun he => ⟨hc.wf.setFile hf rfl, trivial, hc.next hf, ?_⟩, fun he => ⟨hc.wf.setFile hf rfl, ?_⟩⟩
  · rw [file_setFile_eq]; exact hok he
  · rw [file_setFile_eq]; exact herr he

/-- The first `if` for the valid range `[a, z)`: if something is pending
afterwards, the range is part of it. -/
theorem extendOrSend_rule (hU : Flushes E B J X I f) {c₀ : Cache} {P : Nat → Prop} {q : RangeList × Bytes} {a z : Nat}
    {piece : Bytes} (haz : a < z) (hlen : piece.length = z - a) (hx : fc.Extent B a piece)
    (h : Passed B I f fc c₀ P c w q) :
    ((extendOrSend f a z piece q.1 q.2) c).wp E (Ends B (fun _ _ => True) X fun c' w' q' =>
      Passed B I f fc c₀ (fun x => P x ∨ (q'.1 ≠ [] ∧ a ≤ x ∧ x < z)) c' w' q') w := by
  obtain ⟨rs, data⟩ := q
  obtain ⟨S, hc, hI, hpend, hP⟩ := h
  rcases hpend with ⟨hrs, hdata⟩ | ⟨off, hrs, hex⟩
  · simp only at hrs hdata
    subst hrs hdata
    exact ⟨hc.wf, trivial, S, hc, hI, .inl ⟨rfl, rfl⟩, fun x hx => hP x (hx.elim id fun h => absurd rfl h.1)⟩
  simp only at hrs hex hP
  subst hrs
  have hpos : 0 < data.length := List.length_pos_iff.mpr hex.nonempty
  show Act.wp E _ ((if _ then _ else _ : CacheM _) c) w
  split
  · rename_i hadj
    simp only at hadj
    subst hadj
    refine wp_bind.mpr ((wp_check (RangeList.insertRange_adjacent (by omega) haz)).mpr ?_)
    refine ⟨hc.wf, trivial, S, hc, hI, .inr ⟨off, ?_, hex.append hx⟩, fun x hx => ?_⟩
    · rw [List.length_append, hlen, show off + (data.length + (z - (off + data.length))) = z by omega]
    · simp only [covers_cons, covers_nil, or_false, Interval.Mem] at hP ⊢
      rcases hx with hx | ⟨-, h₁, h₂⟩
      · exact (hP x hx).imp_right fun h => ⟨h.1, by omega⟩
      · exact .inr ⟨by omega, h₂⟩
  · refine wp_bind.mpr ((wp_assert (by simp)).mpr ?_)
    refine Ends.seq (contentWb_rule hU hc hI hex) ?_ fun c w e h hX => ⟨h, hX⟩
    intro c₁ w₁ _ h₁ _ hsent
    refine ⟨h₁, trivial, _, hsent.1, hsent.2, .inl ⟨rfl, rfl⟩, fun x hx => ?_⟩
    rcases hx with hx | ⟨hne, -⟩
    · refine .inl ((hP x hx).imp_right fun h => ?_)
      simpa [Interval.Mem] using h
    · exact absurd rfl hne

theorem seed_rule {c₀ : Cache} {P : Nat → Prop} {q : RangeList × Bytes} {a z : Nat} {piece : Bytes} (haz : a < z)
    (hlen : piece.length = z - a) (hx : fc.Extent B a piece)
    (h : Passed B I f fc c₀ (fun x => P x ∨ (q.1 ≠ [] ∧ a ≤ x ∧ x < z)) c w q) :
    ((seed a z piece q.1 q.2) c).wp E (Ends B (fun _ _ => True) X fun c' w' q' =>
      Passed B I f fc c₀ (fun x => P x ∨ (a ≤ x ∧ x < z)) c' w' q') w := by
  obtain ⟨rs, data⟩ := q
  obtain ⟨S, hc, hI, hpend, hP⟩ := h
  rcases hpend with ⟨hrs, hdata⟩ | ⟨off, hrs, hex⟩
  · simp only at hrs hdata hP
    subst hrs hdata
    refine wp_bind.mpr ((wp_check (RangeList.insertRange_nil haz)).mpr
      (wp_bind.mpr ((wp_assert (by simp)).mpr ?_)))
    refine ⟨hc.wf, trivial, S, hc, hI, .inr ⟨a, ?_, hx⟩, fun x hx => ?_⟩
    · rw [List.nil_append, hlen, show a + (z - a) = z by omega]
    · rcases hx with hx | hx
      · exact .inl ((hP x (.inl hx)).elim id fun h => absurd h (by simp))
      · exact .inr (covers_cons.mpr (.inl hx))
  · simp only at hrs hP
    subst hrs
    refine ⟨hc.wf, trivial, S, hc, hI, .inr ⟨off, rfl, hex⟩, fun x hx => hP x ?_⟩
    exact hx.imp_right fun h => ⟨by simp, h⟩

/-- The loop over the valid ranges of a dirty block passes them all. -/
theorem flushRanges_rule (hU : Flushes E B J X I f) (hB : 0 < B) {c₀ : Cache} (hw : e.Wf B)
    (hb : fc.entries.lookup b = some e) (hd : e.state = .dirty) : ∀ (rgs : List Range) {P : Nat → Prop} {c : Cache}
    {w : W} {q : RangeList × Bytes}, (∀ rg ∈ rgs, rg ∈ e.validRanges) → Passed B I f fc c₀ P c w q →
    ((flushRanges B f b e rgs q.1 q.2) c).wp E (Ends B (fun _ _ => True) X fun c' w' q' =>
      Passed B I f fc c₀ (fun x => P x ∨ ∃ rg ∈ rgs, rg.start + b * B ≤ x ∧ x < rg.stop + b * B) c' w' q') w
  | [], P, c, w, q, _, h => by
    obtain ⟨S, hc, -⟩ := id h
    exact ⟨hc.wf, trivial, h.mono fun x hx => hx.elim id fun ⟨rg, hrg, _⟩ => absurd hrg (by simp)⟩
  | rg :: rgs, P, c, w, q, hin, h => by
    obtain ⟨hlt, hlen, hx⟩ := slice_extent hB hw hb hd (hin rg (by simp))
    refine Ends.seq (extendOrSend_rule hU (by omega) (by omega) hx h) ?_ fun c w e h hX => ⟨h, hX⟩
    intro c₁ w₁ q₁ _ _ hP₁
    refine Ends.seq (seed_rule (by omega) (by omega) hx hP₁) ?_ fun c w e h hX => ⟨h, hX⟩
    intro c₂ w₂ q₂ _ _ hP₂
    refine Ends.conseq (flushRanges_rule hU hB hw hb hd rgs (fun r hr => hin r (by simp [hr])) hP₂) ?_
      fun c w e h hX => ⟨h, hX⟩
    intro c₃ w₃ q₃ h₃ _ hP₃
    refine ⟨h₃, trivial, hP₃.mono fun x hx => ?_⟩
    rcases hx with hx | ⟨r, hr, hrx⟩
    · exact .inl (.inl hx)
    · rcases List.mem_cons.mp hr with rfl | hr
      · exact .inl (.inr hrx)
      · exact .inr ⟨r, hr, hrx⟩

/-- The loop over the dirty blocks passes every valid byte of them. -/
theorem flushData_rule (hU : Flushes E B J X I f) (hB : 0 < B) {c₀ : Cache} : ∀ (bs : List Nat) {P : Nat → Prop}
    {c : Cache} {w : W} {q : RangeList × Bytes},
    (∀ b ∈ bs, ∃ e, fc.entries.lookup b = some e ∧ e.state = .dirty) → Passed B I f fc c₀ P c w q →
    ((flushData B f bs q.1 q.2) c).wp E (Ends B (fun _ _ => True) X fun c' w' q' =>
      Passed B I f fc c₀ (fun x => P x ∨ (x / B ∈ bs ∧ (fc.byte B x).isSome)) c' w' q') w
  | [], P, c, w, q, _, h => by
    obtain ⟨S, hc, -⟩ := id h
    exact ⟨hc.wf, trivial, h.mono fun x hx => hx.elim id fun hx => absurd hx.1 (by simp)⟩
  | b :: bs, P, c, w, q, hin, h => by
    obtain ⟨S, hc, -⟩ := id h
    obtain ⟨t, s, hf⟩ := hc.file
    obtain ⟨e, hb, hd⟩ := hin b (by simp)
    have hent : c.entry f b = some e := by rw [entry_of_file hf]; exact hb
    have hw := hc.wf.entry f b e hent
    refine wp_bind.mpr (wp_bind.mpr (wp_get.mpr ((wp_check hent).mpr ?_)))
    refine Ends.seq (flushRanges_rule hU hB hw hb hd e.validRanges (fun _ hr => hr) h) ?_ fun c w e h hX => ⟨h, hX⟩
    intro c₁ w₁ q₁ _ _ hP₁
    refine Ends.conseq (flushData_rule hU hB bs (fun b' hb' => hin b' (by simp [hb'])) hP₁) ?_
      fun c w e h hX => ⟨h, hX⟩
    intro c₂ w₂ q₂ h₂ _ hP₂
    refine ⟨h₂, trivial, hP₂.mono fun x hx => ?_⟩
    rcases hx with hx | ⟨hxb, hsome⟩
    · exact .inl (.inl hx)
    · rcases List.mem_cons.mp hxb with hxb | hxb
      · obtain ⟨v, hv⟩ := Option.isSome_iff_exists.mp hsome
        rw [FileCache.byte, hxb, hb, Option.bind_some, mod_of_block hxb, CacheEntry.byte_eq_some] at hv
        obtain ⟨⟨rg, hrg, h₁, h₂⟩, -⟩ := hv
        have := (block_offset hB).mp hxb
        exact .inl (.inr ⟨rg, hrg, by omega, by omega⟩)
      · exact .inr ⟨hxb, hsome⟩

theorem sendPending_rule (hU : Flushes E B J X I f) {c₀ : Cache} {P : Nat → Prop} {q : RangeList × Bytes}
    (h : Passed B I f fc c₀ P c w q) :
    ((sendPending f q.1 q.2) c).wp E (Ends B (fun _ _ => True) X fun c' w' _ =>
      ∃ S, Restamped B f fc c₀ c' ∧ I (.sending S) c'.file w' ∧ ∀ x, P x → S x) w := by
  obtain ⟨rs, data⟩ := q
  obtain ⟨S, hc, hI, hpend, hP⟩ := h
  rcases hpend with ⟨hrs, hdata⟩ | ⟨off, hrs, hex⟩
  · simp only at hrs hP
    subst hrs
    refine wp_bind.mpr ((wp_assert (by simp)).mpr ⟨hc.wf, trivial, S, hc, hI, fun x hx => ?_⟩)
    exact (hP x hx).elim id fun h => absurd h (by simp)
  · simp only at hrs hex hP
    subst hrs
    refine wp_bind.mpr ((wp_assert (by simp)).mpr (wp_bind.mpr ((wp_assert (by simp)).mpr ?_)))
    refine (contentWb_rule hU hc hI hex).mono fun c' w' o hQ => ?_
    cases o with
    | ok _ =>
      refine ⟨hQ.1, trivial, _, hQ.2.2.1, hQ.2.2.2, fun x hx => (hP x hx).imp_right fun h => ?_⟩
      simpa [Interval.Mem] using h
    | err e => exact hQ
    | fault => exact hQ

/-- Cleaning the dirty blocks of a file. -/
theorem cleaned_of_lookup {bs : List Nat}
    (hl : ∀ b, fc'.entries.lookup b =
      if b ∈ bs then (fc.entries.lookup b).map fun e => { e with state := .clean } else fc.entries.lookup b)
    (hbs : ∀ b e, fc.entries.lookup b = some e → e.state = .dirty → b ∈ bs) (hattr : fc'.attr = fc.attr)
    (hstale : fc'.stale = fc.stale) : fc.Cleaned B fc' := by
  refine ⟨hattr, hstale, fun b => ?_, fun x => ?_, fun b e he => ?_⟩
  · rw [hl]
    split
    · exact Option.isSome_map
    · rfl
  · rw [FileCache.byte, FileCache.byte, hl]
    split
    · cases fc.entries.lookup (x / B) <;> rfl
    · rfl
  · rw [hl] at he
    split at he
    · obtain ⟨e', -, rfl⟩ := Option.map_eq_some_iff.mp he
      rfl
    · rename_i hb
      cases hs : e.state with
      | clean => rfl
      | dirty => exact absurd (hbs b e he hs) hb

/-- What `flushBlocks` leaves behind when it returns 0. -/
structure Flushed (f : Str) (c c' : Cache) : Prop where
  frame : Frame f c c'
  recents : c'.recentList = c.recentList
  file : ∃ fc', c'.file f = some fc' ∧ fc'.AllClean

/-- **Writing back** the dirty blocks of a file. -/
theorem flushBlocks_rule (hU : Flushes E B J X I f) (hB : 0 < B) {bs : List Nat} (h : c.Wf B)
    (hf : c.file f = some fc) (hJ : J c.file w) (hne : ¬ fc.AllClean)
    (hbs : ∀ b, b ∈ bs ↔ ∃ e, fc.entries.lookup b = some e ∧ e.state = .dirty) :
    ((flushBlocks B f bs) c).wp E (Ends B J X fun c' _ _ => Flushed f c c') w := by
  have hstart : Passed B I f fc c (fun _ => False) c w ([], []) :=
    ⟨_, .refl h hf, hU.start hJ hf hne, .inl ⟨rfl, rfl⟩, fun _ hx => hx.elim⟩
  refine wp_bind.mpr ((fileAt_wp hf).mpr ?_)
  refine Ends.seq (flushData_rule hU hB bs (fun b hb => (hbs b).mp hb) hstart) ?_ fun c w e h hX => ⟨h, hX⟩
  intro c₁ w₁ q₁ _ _ hP₁
  refine Ends.seq (sendPending_rule hU hP₁) ?_ fun c w e h hX => ⟨h, hX⟩
  intro c₂ w₂ _ h₂ _ ⟨S, hc₂, hI₂, hS⟩
  obtain ⟨t, s, hf₂⟩ := hc₂.file
  obtain ⟨c₃, fc₃, h₃, hc₃, hr₃, hl₃⟩ := cleanBlocks_spec bs h₂ hf₂ fun b hb => by
    obtain ⟨e, he, -⟩ := (hbs b).mp hb
    exact Option.isSome_iff_exists.mpr ⟨e, he⟩
  have hclean : (fc.restamp t s).Cleaned B fc₃ :=
    cleaned_of_lookup hl₃ (fun b e he hd => (hbs b).mpr ⟨e, he, hd⟩) hc₃.attr hc₃.stale
  have hI₃ := hU.clean hI₂ hf₂ (fun x hd hv => hS x (.inr ⟨(hbs _).mpr hd, hv⟩)) hclean
  rw [← hc₃.frame.file_eq hc₃.file] at hI₃
  refine wp_bind.mpr ((local_wp h₃).mpr (attrWb_wp hc₃.file (hU.seen hc₃.wf hI₃) fun hr hs => ?_))
  obtain ⟨hok, herr⟩ := hU.attrWb hI₃ hc₃.file hr hs
  refine ⟨fun he => ⟨hc₃.wf.setFile hc₃.file rfl, by rw [file_setFile_eq]; exact hok he, ?_, ?_,
    ⟨_, file_setFile_self, hclean.clean⟩⟩,
    fun he => ⟨hc₃.wf.setFile hc₃.file rfl, by rw [file_setFile_eq]; exact herr he⟩⟩
  · intro g hg
    rw [file_setFile, if_neg hg, hc₃.frame g hg, hc₂.frame g hg]
  · exact hr₃.trans hc₂.recents

/-- `flush`: an error of the write-back is not reported, so it ends with the
file clean or where the write-back gave up. -/
theorem flush_rule (hU : Flushes E B J X I f) (hB : 0 < B) (h : c.Wf B) (hJ : J c.file w) :
    ((flush B f) c).wp E (Ends B (fun V w => (J V w ∧ ∀ fc, V f = some fc → fc.AllClean) ∨ X V w)
      (fun _ _ => False) fun _ _ _ => True) w := by
  refine wp_bind.mpr (wp_get.mpr ?_)
  show Act.wp E _ _ w
  cases hf : c.file f with
  | none =>
    simp only [hf]
    exact ⟨h, .inl ⟨hJ, fun fc hfc => by rw [hf] at hfc; cases hfc⟩, trivial⟩
  | some fc =>
    simp only [hf]
    split
    · rename_i hlen
      have hne : ¬ fc.AllClean := by
        intro hall
        obtain ⟨b, hb⟩ := List.exists_mem_of_length_pos hlen
        obtain ⟨e, he, hd⟩ := mem_dblocks.mp hb
        rw [hall b e he] at hd
        cases hd
      rw [wp_swallow]
      refine (flushBlocks_rule hU hB h hf hJ hne fun b => mem_sort.trans mem_dblocks).mono fun c' w' o hQ => ?_
      cases o with
      | ok _ =>
        obtain ⟨hw', hJ', -, -, fc', hf', hc'⟩ := hQ
        exact ⟨hw', .inl ⟨hJ', fun fc₁ h₁ => by rw [hf'] at h₁; cases h₁; exact hc'⟩, trivial⟩
      | err e => exact ⟨hQ.1, .inr hQ.2, trivial⟩
      | fault => exact hQ
    · rename_i hlen
      refine ⟨h, .inl ⟨hJ, fun fc₁ h₁ => ?_⟩, trivial⟩
      rw [hf] at h₁
      cases h₁
      intro b e he
      cases hs : e.state with
      | clean => rfl
      | dirty => exact absurd (List.length_pos_of_mem (mem_dblocks.mpr ⟨e, he, hs⟩)) hlen

variable {I : Str → Phase → Files → W → Prop}

/-- Both loops of `flushDirtyBlocks` after the first file: the listed files
end up clean, the others untouched. -/
theorem flushFiles_rule (hU : ∀ f, Flushes E B J X (I f) f) (hB : 0 < B) :
    ∀ (fblocks : List (Str × List Nat)) {c : Cache} {w : W}, c.Wf B → J c.file w → (fblocks.map (·.1)).Nodup →
    (∀ f bs, (f, bs) ∈ fblocks → bs ≠ [] ∧ ∀ b, b ∈ bs ↔ c.IsDirty f b) →
    ((flushFiles B fblocks) c).wp E (Ends B J X fun c' _ _ => c'.recentList = c.recentList ∧
      (∀ f ∈ fblocks.map (·.1), ∀ fc', c'.file f = some fc' → fc'.AllClean) ∧
      ∀ f, f ∉ fblocks.map (·.1) → c'.file f = c.file f) w
  | [], c, w, h, hJ, _, _ => ⟨h, hJ, rfl, fun f hf => absurd hf (by simp), fun _ _ => rfl⟩
  | (f, bs) :: fblocks, c, w, h, hJ, hn, hall => by
    obtain ⟨hnf, hn'⟩ := List.nodup_cons.mp hn
    obtain ⟨hne, hbs⟩ := hall f bs (by simp)
    obtain ⟨b, hb⟩ := List.exists_mem_of_ne_nil bs hne
    obtain ⟨e, he, hd⟩ := (hbs b).mp hb
    obtain ⟨fc, hf, hl⟩ := exists_file_of_entry he
    have hdirty : ¬ fc.AllClean := fun hc => by rw [hc b e hl] at hd; cases hd
    refine Ends.seq (flushBlocks_rule (hU f) hB h hf hJ hdirty fun b => ?_) ?_ fun c w e h hX => ⟨h, hX⟩
    · rw [mem_sort, hbs, IsDirty]
      simp only [entry_of_file hf]
    intro c₁ w₁ _ h₁ hJ₁ hfl
    have hall' : ∀ g bs', (g, bs') ∈ fblocks → bs' ≠ [] ∧ ∀ b, b ∈ bs' ↔ c₁.IsDirty g b := by
      intro g bs' hm
      obtain ⟨hne', hbs'⟩ := hall g bs' (by simp [hm])
      exact ⟨hne', hfl.frame.dirtyLists hnf hm hbs'⟩
    refine Ends.conseq (flushFiles_rule hU hB fblocks h₁ hJ₁ hn' hall') ?_ fun c w e h hX => ⟨h, hX⟩
    rintro c' w' _ hw' hJ' ⟨hr', hcl, hfr⟩
    refine ⟨hw', hJ', hr'.trans hfl.recents, fun g hg fc' hf' => ?_, fun g hg => ?_⟩
    · rcases List.mem_cons.mp hg with hg | hg
      · simp only at hg
        subst hg
        obtain ⟨fc₁, hf₁, hc₁⟩ := hfl.file
        rw [hfr g hnf, hf₁] at hf'
        cases hf'
        exact hc₁
      · exact hcl g hg fc' hf'
    · simp only [List.map_cons, List.mem_cons, not_or] at hg
      rw [hfr g hg.2, hfl.frame g hg.1]

/-- `flushDirtyBlocks`, whatever order the files are visited in. -/
theorem flushDirtyBlocks_rule (hU : ∀ f, Flushes E B J X (I f) f) (hB : 0 < B) (order : HashOrder) (h : c.Wf B)
    (hJ : J c.file w) :
    ((flushDirtyBlocks B order) c).wp E (Ends B J X fun c' _ _ => c'.recentList = c.recentList ∧
      ∀ f fc, c'.file f = some fc → fc.AllClean) w := by
  obtain ⟨fb, hfb, hn, hall, hcomplete⟩ := collectDirty_spec h
  have hperm := order.perm fb
  refine wp_bind.mpr (wp_get.mpr (wp_bind.mpr ((wp_check hfb).mpr ?_)))
  refine Ends.conseq (flushFiles_rule hU hB (order.visit fb) h hJ ((hperm.map _).nodup_iff.mpr hn) ?_) ?_
    fun c w e h hX => ⟨h, hX⟩
  · intro f bs hm
    obtain ⟨h₁, -, h₂⟩ := hall f bs (hperm.mem_iff.mp hm)
    exact ⟨h₁, h₂⟩
  rintro c' w' _ hw' hJ' ⟨hr', hcl, hfr⟩
  refine ⟨hw', hJ', hr', fun f fc hf => ?_⟩
  by_cases hm : f ∈ (order.visit fb).map (·.1)
  · exact hcl f hm fc hf
  · rw [hfr f hm] at hf
    intro b e he
    cases hs : e.state with
    | clean => rfl
    | dirty =>
      obtain ⟨bs, hbs⟩ := hcomplete f b ⟨e, by rw [entry_of_file hf, he], hs⟩
      exact absurd (List.mem_map.mpr ⟨_, hperm.mem_iff.mpr hbs, rfl⟩) hm

/-- `evictBlocks`, for an assertion that survives the loss of clean blocks. -/
theorem evictBlocks_rule (hU : ∀ f, Flushes E B J X (I f) f) (hB : 0 < B) (order : HashOrder) {count : Nat}
    (hdrop : ∀ {V V' : Files} {w}, J V w → (∀ f fc, V f = some fc → fc.AllClean) → V.Thinned V' → J V' w)
    (h : c.Wf B) (hJ : J c.file w) :
    ((evictBlocks B order count) c).wp E (Ends B J X fun c' _ _ => ∀ f fc, c'.file f = some fc → fc.AllClean) w := by
  refine wp_bind.mpr (wp_get.mpr ?_)
  refine Ends.seq (flushDirtyBlocks_rule hU hB order h hJ) ?_ fun c w e h hX => ⟨h, hX⟩
  intro c₁ w₁ _ h₁ hJ₁ ⟨hr, hclean⟩
  obtain ⟨c₂, h₂, hw₂, ht⟩ := dropTail_spec (min c.recentList.length count) h₁ (by rw [hr]; omega)
  exact (local_wp h₂).mpr ⟨hw₂, hdrop hJ₁ hclean ht, ht.allClean hclean⟩

end

end Cache

end Nfs
