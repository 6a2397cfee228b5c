/-
Rules for the operations of the cache, for any assertion about the files it
holds and the world its callbacks reach.

`Fetches` says what an assertion `J` has to survive in order to be kept by
the parts that fill the cache: a request for attributes and a request for
content, with what the cache makes of the answers. `Flushes` is the same
for writing back. A write-back goes through two phases (`Phase`): the
dirty bytes are sent, extent by extent; then the blocks are clean and the
attributes are still to be sent. `X` is what holds when an operation gives
up at a failed request.

Each operation gets one rule: started where `J` holds it does not fault, it
ends where `J` or `X` holds, and its result is as stated. The
representation invariant is carried along.
-/
import Nfs.CacheLoops

namespace Nfs

open PlainFile Resume Intervals

/-! ## What the parts of an operation do to a file -/

/-- Blocks `[start, start + n)` filled up with the bytes of `data`. -/
structure FileCache.Filled (B start n : Nat) (data : Bytes) (fc fc' : FileCache) : Prop where
  attr : fc'.attr = fc.attr
  stale : fc'.stale = fc.stale
  byte : ∀ x, fc'.byte B x =
    if start ≤ x / B ∧ x / B < start + n then some ((fc.byte B x).getD (byteAt data (x - start * B)))
    else fc.byte B x
  dirty : ∀ x, fc'.dirtyAt B x ↔ fc.dirtyAt B x

/-- `buf` stored at `offset`. -/
structure FileCache.Stored (B offset : Nat) (buf : Bytes) (fc fc' : FileCache) : Prop where
  attr : fc'.attr = { fc.attr with size := max fc.attr.size (offset + buf.length) }
  stale : fc'.stale = fc.stale
  byte : ∀ x, fc'.byte B x =
    if offset ≤ x ∧ x < offset + buf.length then some (byteAt buf (x - offset)) else fc.byte B x
  dirty : ∀ x, fc'.dirtyAt B x ↔ fc.dirtyAt B x ∨ ∃ y, offset ≤ y ∧ y < offset + buf.length ∧ y / B = x / B

/-- Another size, and the blocks that lie past it gone if it is smaller. -/
structure FileCache.Resized (B size : Nat) (fc fc' : FileCache) : Prop where
  attr : fc'.attr = { fc.attr with size := size }
  stale : fc'.stale = fc.stale
  entries : ∀ b, fc'.entries.lookup b =
    if size < fc.attr.size ∧ Cache.endBlock B size ≤ b then none else fc.entries.lookup b

/-- Every block clean, no byte changed. -/
structure FileCache.Cleaned (B : Nat) (fc fc' : FileCache) : Prop where
  attr : fc'.attr = fc.attr
  stale : fc'.stale = fc.stale
  blocks : ∀ b, (fc'.entries.lookup b).isSome = (fc.entries.lookup b).isSome
  byte : ∀ x, fc'.byte B x = fc.byte B x
  clean : fc'.AllClean

/-- What a content write-back leaves in the attributes. -/
def FileCache.restamp (fc : FileCache) (time : FileTime) (stale : Bool) : FileCache :=
  { fc with attr := { fc.attr with time := time }, stale := stale }

/-- The bytes of `data` are the cached ones from `off` on, all in dirty
blocks. -/
structure FileCache.Extent (B : Nat) (fc : FileCache) (off : Nat) (data : Bytes) : Prop where
  nonempty : data ≠ []
  byte : ∀ i, i < data.length → fc.byte B (off + i) = some (byteAt data i)
  dirty : ∀ i, i < data.length → fc.dirtyAt B (off + i)

theorem FileCache.AllClean.not_dirtyAt {fc : FileCache} {B x : Nat} (h : fc.AllClean) : ¬ fc.dirtyAt B x := by
  rintro ⟨e, he, hd⟩
  rw [h _ e he] at hd
  cases hd

/-- No block is dirty at any offset. -/
theorem FileCache.allClean_iff {fc : FileCache} {B : Nat} (hB : 0 < B) : fc.AllClean ↔ ∀ x, ¬ fc.dirtyAt B x := by
  refine ⟨fun h x => h.not_dirtyAt, fun h b e he => ?_⟩
  cases hs : e.state with
  | clean => rfl
  | dirty => exact absurd ⟨e, by rw [Nat.mul_div_cancel _ hB]; exact he, hs⟩ (h (b * B))

/-- How far a write-back of a file has come: what has been sent, or that
only the attributes are left. -/
inductive Phase
  | sending (sent : Nat → Prop)
  | owing

section
variable {W : Type}

/-- `J` survives what filling the cache from file `f` does. -/
structure Fetches (E : Env Cache W Call.Ans) (B : Nat) (J X : Files → W → Prop) (f : Str) : Prop where
  seen : ∀ {c : Cache} {w : W}, c.Wf B → J c.file w → E.seen c w
  attrFt : ∀ {V : Files} {w w₁ w₂ : W} {a : AttrFtAns}, J V w → V f = none → E.rely w w₁ →
    E.serve w₁ (.attrFt f) a w₂ →
    (a.err = 0 → J (V.set f (.ofAttr a.attr)) w₂) ∧ (a.err ≠ 0 → X V w₂)
  contentFt : ∀ {V : Files} {w w₁ w₂ : W} {fc : FileCache} {start n : Nat} {a : ContentFtAns}, J V w →
    V f = some fc → E.rely w w₁ → E.serve w₁ (.contentFt f (start * B) (n * B)) a w₂ →
    (a.err = 0 → ∀ fc', fc.Filled B start n a.data fc' → J (V.set f fc') w₂) ∧ (a.err ≠ 0 → X V w₂)

/-- `J` survives writing file `f` back, through the phases `I`. -/
structure Flushes (E : Env Cache W Call.Ans) (B : Nat) (J X : Files → W → Prop) (I : Phase → Files → W → Prop)
    (f : Str) : Prop where
  seen : ∀ {c : Cache} {w : W} {p : Phase}, c.Wf B → I p c.file w → E.seen c w
  start : ∀ {V : Files} {w : W} {fc : FileCache}, J V w → V f = some fc → ¬ fc.AllClean →
    I (.sending fun _ => False) V w
  contentWb : ∀ {V : Files} {w w₁ w₂ : W} {S : Nat → Prop} {fc : FileCache} {off : Nat} {data : Bytes}
    {a : ContentWbAns}, I (.sending S) V w → V f = some fc → fc.Extent B off data → E.rely w w₁ →
    E.serve w₁ (.contentWb f off data fc.attr.time fc.stale) a w₂ →
    (a.err = 0 → I (.sending fun x => S x ∨ (off ≤ x ∧ x < off + data.length))
      (V.set f (fc.restamp a.time a.stale)) w₂) ∧
    (a.err ≠ 0 → X (V.set f (fc.restamp a.time a.stale)) w₂)
  clean : ∀ {V : Files} {w : W} {S : Nat → Prop} {fc fc' : FileCache}, I (.sending S) V w →
    V f = some fc → (∀ x, fc.dirtyAt B x → (fc.byte B x).isSome → S x) → fc.Cleaned B fc' →
    I .owing (V.set f fc') w
  attrWb : ∀ {V : Files} {w w₁ w₂ : W} {fc : FileCache} {a : AttrWbAns}, I .owing V w →
    V f = some fc → E.rely w w₁ → E.serve w₁ (.attrWb f fc.attr fc.stale) a w₂ →
    (a.err = 0 → J (V.set f { fc with attr := a.attr, stale := a.stale }) w₂) ∧
    (a.err ≠ 0 → X (V.set f { fc with attr := a.attr, stale := a.stale }) w₂)
  recover : ∀ {V : Files} {w : W}, X V w → J V w

/-- Where nothing is asserted, nothing has to survive. -/
theorem Fetches.nothing {E : Env Cache W Call.Ans} {B : Nat} (hseen : ∀ {c : Cache} {w : W}, c.Wf B → E.seen c w)
    (f : Str) : Fetches E B (fun _ _ => True) (fun _ _ => True) f where
  seen h _ := hseen h
  attrFt _ _ _ _ := ⟨fun _ => trivial, fun _ => trivial⟩
  contentFt _ _ _ _ := ⟨fun _ _ _ => trivial, fun _ => trivial⟩

theorem Flushes.nothing {E : Env Cache W Call.Ans} {B : Nat} (hseen : ∀ {c : Cache} {w : W}, c.Wf B → E.seen c w)
    (f : Str) : Flushes E B (fun _ _ => True) (fun _ _ => True) (fun _ _ _ => True) f where
  seen h _ := hseen h
  start _ _ _ := trivial
  contentWb _ _ _ _ _ := ⟨fun _ => trivial, fun _ => trivial⟩
  clean _ _ _ _ := trivial
  attrWb _ _ _ _ := ⟨fun _ => trivial, fun _ => trivial⟩
  recover _ := trivial

end

namespace Cache

variable {B : Nat} {c c' : Cache} {f g : Str} {fc fc' : FileCache} {b : Nat}

/-! ## Filling -/

section
variable {W α : Type} {E : Env Cache W Call.Ans} {J X : Files → W → Prop} {w : W}

/-- How an operation ends: with `J` and its result as `R` says, or with `X`
and an error. It never faults. -/
def Ends (B : Nat) (J X : Files → W → Prop) (R : Cache → W → α → Prop) : Cache → W → Outcome α → Prop
  | c, w, .ok a => c.Wf B ∧ J c.file w ∧ R c w a
  | c, w, .err _ => c.Wf B ∧ X c.file w
  | _, _, .fault => False

/-- The consequences of an end. -/
theorem Ends.conseq {p : Act Cache Call.Ans α} {R : Cache → W → α → Prop} {Q : Cache → W → Outcome α → Prop}
    (h : p.wp E (Ends B J X R) w) (hok : ∀ c w a, c.Wf B → J c.file w → R c w a → Q c w (.ok a))
    (herr : ∀ c w e, c.Wf B → X c.file w → Q c w (.err e)) : p.wp E Q w := by
  refine h.mono fun c w o hQ => ?_
  cases o with
  | ok a => exact hok c w a hQ.1 hQ.2.1 hQ.2.2
  | err e => exact herr c w e hQ.1 hQ.2
  | fault => exact hQ.elim

/-- Sequencing under `Ends`. -/
theorem Ends.seq {β : Type} {p : CacheM α} {k : α → CacheM β} {R : Cache → W → α → Prop}
    {Q : Cache → W → Outcome β → Prop} (h : (p c).wp E (Ends B J X R) w)
    (hk : ∀ c w a, c.Wf B → J c.file w → R c w a → (k a c).wp E Q w)
    (herr : ∀ c w e, c.Wf B → X c.file w → Q c w (.err e)) : ((p >>= k) c).wp E Q w :=
  wp_seq h (fun c w a hQ => hk c w a hQ.1 hQ.2.1 hQ.2.2) (fun c w e hQ => herr c w e hQ.1 hQ.2)
    fun _ _ hQ => hQ.elim

theorem fileAt_wp {Q : Cache → W → Outcome FileCache → Prop} (hf : c.file f = some fc) :
    ((fileAt f) c).wp E Q w ↔ Q c w (.ok fc) := by
  rw [fileAt, wp_bind, wp_get]
  exact wp_check hf

theorem local_wp {Q : Cache → W → Outcome Unit → Prop} {m : Cache → Option Cache} (hm : m c = some c') :
    ((local_ m) c).wp E Q w ↔ Q c' w (.ok ()) :=
  wp_step (by rw [hm]; rfl)

theorem putFile_wp {Q : Cache → W → Outcome Unit → Prop} :
    ((putFile f fc) c).wp E Q w ↔ Q (c.setFile f fc) w (.ok ()) := Iff.rfl

theorem fileAt_done (hf : c.file f = some fc) : fileAt f c = .done c (.ok fc) := by
  simp only [fileAt, bind, Prog.get, Act.bind, hf]
  rfl

theorem cacheFileAttr_done (hf : c.file f = some fc) : cacheFileAttr f c = .done c (.ok ()) := by
  simp only [cacheFileAttr, bind, Prog.get, Act.bind, hf]
  rfl

/-- What `cacheFileAttr` has done when it returns 0. -/
def AttrCached (f : Str) (c c' : Cache) : Prop :=
  (c' = c ∧ ∃ fc, c.file f = some fc) ∨ (c.file f = none ∧ ∃ attr, c' = c.setFile f (.ofAttr attr))

theorem AttrCached.file (h : AttrCached f c c') :
    ∃ fc, c'.file f = some fc ∧ (c.file f = some fc ∨ (c.file f = none ∧ fc.entries = ∅)) := by
  rcases h with ⟨rfl, fc, hf⟩ | ⟨hn, attr, rfl⟩
  · exact ⟨fc, hf, .inl hf⟩
  · exact ⟨.ofAttr attr, by simp, .inr ⟨hn, rfl⟩⟩

theorem cacheFileAttr_rule (hF : Fetches E B J X f) (h : c.Wf B) (hJ : J c.file w) :
    (cacheFileAttr f c).wp E (Ends B J X fun c' _ _ => AttrCached f c c') w := by
  rw [cacheFileAttr, wp_bind, wp_get]
  show (Act.wp E _ _ w)
  cases hf : c.file f with
  | some fc =>
    simp only [hf]
    exact ⟨h, hJ, .inl ⟨rfl, fc, hf⟩⟩
  | none =>
    simp only [hf]
    refine wp_bind.mpr (wp_ask.mpr ⟨hF.seen h hJ, fun w₁ hr a w₂ hs => ?_⟩)
    obtain ⟨hok, herr⟩ := hF.attrFt hJ hf hr hs
    show Act.wp E _ ((if _ then _ else _ : CacheM Unit) c) w₂
    split
    · rename_i he
      exact ⟨h, herr he⟩
    · rename_i he
      have := hok (by simpa using he)
      refine ⟨h.newFile hf, ?_, .inr ⟨hf, _, rfl⟩⟩
      rw [file_setFile_eq]
      exact this

/-- Every byte that was there is there, and so are all of the blocks of `rgs`. -/
structure Fetched (B : Nat) (rgs : List Range) (fc fc' : FileCache) : Prop where
  attr : fc'.attr = fc.attr
  kept : ∀ x, (fc.byte B x).isSome → (fc'.byte B x).isSome
  full : ∀ x, Covers rgs (x / B) → (fc'.byte B x).isSome

theorem fetchRuns_rule (hF : Fetches E B J X f) (hB : 0 < B) : ∀ (rgs : List Range) {c : Cache} {fc : FileCache}
    {w : W}, (∀ rg ∈ rgs, rg.start < rg.stop) → c.Wf B → c.file f = some fc → J c.file w →
    (fetchRuns B f rgs c).wp E (Ends B J X fun c' _ _ => ∃ fc', c'.file f = some fc' ∧ Fetched B rgs fc fc') w
  | [], c, fc, w, _, h, hf, hJ => ⟨h, hJ, fc, hf, rfl, fun _ hx => hx, fun x hx => absurd hx (by simp)⟩
  | rg :: rgs, c, fc, w, hlt, h, hf, hJ => by
    refine wp_bind.mpr (wp_ask.mpr ⟨hF.seen h hJ, fun w₁ hr a w₂ hs => ?_⟩)
    obtain ⟨hok, herr⟩ := hF.contentFt hJ hf hr hs
    show Act.wp E _ ((if _ then _ else _ : CacheM Unit) c) w₂
    split
    · rename_i he
      exact ⟨h, herr he⟩
    rename_i he
    have hne := hlt rg (by simp)
    obtain ⟨c₁, fc₁, h₁, hc₁, hby₁, hd₁⟩ := installBlocks_spec hB
      (ftruncate (a : ContentFtAns).data ((rg.stop - rg.start) * B)) rg.start (rg.stop - rg.start) rg.start h hf
      (le_refl _) (by rw [length_ftruncate]; exact Nat.mul_le_mul_right _ (by omega))
    have hfill : fc.Filled B rg.start (rg.stop - rg.start) (a : ContentFtAns).data fc₁ := by
      refine ⟨hc₁.attr, hc₁.stale, fun x => ?_, hd₁⟩
      rw [hby₁]
      split
      · rename_i hx
        rw [byteAt_ftruncate, if_pos (run_offset hB hx.1 hx.2).2]
      · rfl
    refine wp_bind.mpr ((local_wp h₁).mpr ?_)
    have hJ₁ : J c₁.file w₂ := by
      rw [hc₁.frame.file_eq hc₁.file]
      exact hok (by simpa using he) fc₁ hfill
    refine (fetchRuns_rule hF hB rgs (fun q hq => hlt q (by simp [hq])) hc₁.wf hc₁.file hJ₁).mono ?_
    intro c' w' o hQ
    cases o with
    | ok a =>
      obtain ⟨hw', hJ', fc', hf', hfd⟩ := hQ
      refine ⟨hw', hJ', fc', hf', hfd.attr.trans hc₁.attr, fun x hx => hfd.kept x ?_, fun x hx => ?_⟩
      · rw [hby₁]
        split
        · rfl
        · exact hx
      · rcases covers_cons.mp hx with hm | hm
        · refine hfd.kept x ?_
          rw [hby₁, if_pos ⟨hm.1, by have := hm.2; omega⟩]
          rfl
        · exact hfd.full x hm
    | err e => exact hQ
    | fault => exact hQ

/-- `cacheBlocks` on a non-empty file: the blocks of the range are full. -/
theorem cacheBlocks_rule (hF : Fetches E B J X f) (hB : 0 < B) {blockStart blockEnd : Nat} (h : c.Wf B)
    (hf : c.file f = some fc) (hJ : J c.file w) (hsize : fc.attr.size ≠ 0) :
    (cacheBlocks B f blockStart blockEnd c).wp E (Ends B J X fun c' _ _ => ∃ fc', c'.file f = some fc' ∧
      fc'.attr = fc.attr ∧ ∀ b, blockStart ≤ b → b < blockEnd → isFullBlock B fc' b = true) w := by
  obtain ⟨rs, hrs, hg, hcov⟩ := missingBlocks_spec (B := B) fc (blockEnd - blockStart) blockStart Gapped.nil
  refine wp_bind.mpr ((fileAt_wp hf).mpr ?_)
  show Act.wp E _ ((if _ then _ else _ : CacheM Unit) c) w
  rw [if_neg hsize]
  refine wp_bind.mpr ((wp_check hrs).mpr (wp_bind.mpr (wp_get.mpr (wp_bind.mpr (wp_set.mpr ?_)))))
  -- The hit flag changes nothing the rules look at.
  have hw' : ({ c with lastReadHit := rs.length == 0 } : Cache).Wf B := h.congr (fun _ _ => rfl) rfl rfl
  refine (fetchRuns_rule hF hB rs hg.nonempty hw' hf hJ).mono ?_
  intro c' w' o hQ
  cases o with
  | ok a =>
    obtain ⟨hw', hJ', fc', hf', hfd⟩ := hQ
    refine ⟨hw', hJ', fc', hf', hfd.attr, fun b h₁ h₂ => ?_⟩
    rw [isFullBlock_iff hB hw' hf']
    intro x hx
    by_cases hfull : isFullBlock B fc b = true
    · exact hfd.kept x ((isFullBlock_iff hB h hf).mp hfull x hx)
    · refine hfd.full x ((hcov (x / B)).mpr (.inr ⟨by omega, by omega, ?_⟩))
      rw [hx]
      simpa using hfull
  | err e => exact hQ
  | fault => exact hQ

/-- What `read` returns: the cached bytes from `offset`, as many as were
asked for and as there are. -/
def ReadResult (B : Nat) (f : Str) (offset size : Nat) (c : Cache) (data : Bytes) : Prop :=
  ∃ fc, c.file f = some fc ∧ data.length = min size (fc.attr.size - offset) ∧
    ∀ i, i < data.length → fc.byte B (offset + i) = some (byteAt data i)

theorem read_rule (hF : Fetches E B J X f) (hB : 0 < B) {offset size : Nat} (h : c.Wf B) (hJ : J c.file w) :
    (read B f offset size c).wp E (Ends B J X fun c' _ data => ReadResult B f offset size c' data) w := by
  refine Ends.seq (cacheFileAttr_rule hF h hJ) ?_ fun c w e h hX => ⟨h, hX⟩
  intro c₁ w₁ _ h₁ hJ₁ hA
  obtain ⟨fc, hf, -⟩ := hA.file
  refine wp_bind.mpr ((fileAt_wp hf).mpr ?_)
  show Act.wp E _ ((if _ then _ else _ : CacheM Bytes) c₁) w₁
  split
  · rename_i hz
    exact ⟨h₁, hJ₁, fc, hf, by simp; omega, fun i hi => absurd hi (by simp)⟩
  rename_i hz
  -- `n` is the size after the cut at the end of the file.
  generalize hn : (if offset + size > fc.attr.size then fc.attr.size - offset else size) = n
  have hn' : n = min size (fc.attr.size - offset) ∧ 0 < n := by
    rw [← hn]
    split <;> omega
  refine Ends.seq (cacheBlocks_rule hF hB h₁ hf hJ₁ (by omega)) ?_ fun c w e h hX => ⟨h, hX⟩
  intro c₂ w₂ _ h₂ hJ₂ ⟨fc₂, hf₂, hattr, hfull⟩
  have hend : endBlock B (offset + n) = (offset + n - 1) / B + 1 := by
    unfold endBlock
    rw [if_neg (by omega)]
  obtain ⟨buf, c₃, h₃, hw₃, hm₃, hlen, hby⟩ := readLoop_spec hB n offset n (offset / B) (offset % B)
    (min (B - offset % B) n) [] h₂ hf₂
    (fun x hx₁ hx₂ => hfull _ (Nat.div_le_div_right hx₁)
      (by rw [hend]; exact Nat.lt_succ_of_le (Nat.div_le_div_right (by omega))))
    (fun _ => ⟨by rw [Nat.mul_comm]; exact Nat.div_add_mod _ _, Nat.mod_lt _ hB, by simp⟩) (by simp) (by simp)
    (fun i hi => absurd hi (by simp))
  refine (wp_step h₃).mpr ⟨hw₃, ?_, fc₂, ?_, ?_, ?_⟩
  · have : c₃.file = c₂.file := by funext g; rw [Cache.file, Cache.file, hm₃]
    rw [this]; exact hJ₂
  · rw [Cache.file, hm₃]; exact hf₂
  · rw [hlen, hattr]; exact hn'.1
  · rw [hlen]; exact hby

/-! ## Changing -/

theorem write_rule (hF : Fetches E B J X f) (hB : 0 < B) {offset : Nat} {buf : Bytes} {J' : Files → W → Prop}
    (hst : ∀ {V w fc fc'}, J V w → V f = some fc → fc.Stored B offset buf fc' → J' (V.set f fc') w)
    (h : c.Wf B) (hJ : J c.file w) :
    (write B f offset buf c).wp E (Ends B J' X fun _ _ _ => True) w := by
  refine Ends.seq (cacheFileAttr_rule hF h hJ) ?_ fun c w e h hX => ⟨h, hX⟩
  intro c₁ w₁ _ h₁ hJ₁ hA
  obtain ⟨fc, hf, -⟩ := hA.file
  obtain ⟨c₂, fc₂, h₂, hw₂, hfr, hf₂, hattr, hstale, hby, hd⟩ := store_spec hB h₁ hf offset buf
  refine (local_wp h₂).mpr ⟨hw₂, ?_, trivial⟩
  rw [hfr.file_eq hf₂]
  exact hst hJ₁ hf ⟨hattr, hstale, hby, hd⟩

theorem setSize_file (hf : c.file f = some fc) (size : Nat) :
    setSize f size c = some (c.setFile f { fc with attr := { fc.attr with size := size } }) := by
  simp only [setSize, hf, Option.bind_eq_bind, Option.bind_some]

/-- The end of a write-back: the answer is stored, be it an error or not. -/
theorem putAnswer_wp {Q : Cache → W → Outcome Unit → Prop} {err : Int}
    (hQ : (err = 0 → Q (c.setFile f fc) w (.ok ())) ∧ (err ≠ 0 → Q (c.setFile f fc) w (.err err))) :
    ((do putFile f fc; if err ≠ 0 then Prog.throw err : CacheM Unit) c).wp E Q w := by
  refine wp_bind.mpr (putFile_wp.mpr ?_)
  show Act.wp E _ ((if _ then _ else _ : CacheM Unit) _) w
  split
  · rename_i he
    exact hQ.2 he
  · rename_i he
    exact hQ.1 (not_not.mp he)

theorem attrWb_wp {Q : Cache → W → Outcome Unit → Prop} (hf : c.file f = some fc) (hseen : E.seen c w)
    (hQ : ∀ {w₁ w₂} {a : AttrWbAns}, E.rely w w₁ → E.serve w₁ (.attrWb f fc.attr fc.stale) a w₂ →
      (a.err = 0 → Q (c.setFile f { fc with attr := a.attr, stale := a.stale }) w₂ (.ok ())) ∧
      (a.err ≠ 0 → Q (c.setFile f { fc with attr := a.attr, stale := a.stale }) w₂ (.err a.err))) :
    ((attrWb f) c).wp E Q w := by
  refine wp_bind.mpr ((fileAt_wp hf).mpr (wp_bind.mpr (wp_ask.mpr ⟨hseen, fun w₁ hr a w₂ hs => ?_⟩)))
  exact putAnswer_wp (hQ hr hs)

theorem contentWb_wp {Q : Cache → W → Outcome Unit → Prop} {off : Nat} {data : Bytes} (hf : c.file f = some fc)
    (hseen : E.seen c w)
    (hQ : ∀ {w₁ w₂} {a : ContentWbAns}, E.rely w w₁ →
      E.serve w₁ (.contentWb f off data fc.attr.time fc.stale) a w₂ →
      (a.err = 0 → Q (c.setFile f (fc.restamp a.time a.stale)) w₂ (.ok ())) ∧
      (a.err ≠ 0 → Q (c.setFile f (fc.restamp a.time a.stale)) w₂ (.err a.err))) :
    ((contentWb f off data) c).wp E Q w := by
  refine wp_bind.mpr ((fileAt_wp hf).mpr (wp_bind.mpr (wp_ask.mpr ⟨hseen, fun w₁ hr a w₂ hs => ?_⟩)))
  exact putAnswer_wp (hQ hr hs)

/-- `truncate` where the file's size is not `n` already: `K` holds between the
change of the cached file and the answer to its attributes. -/
theorem truncate_rule (hF : Fetches E B J X f) {n : Nat} {J' X' K : Files → W → Prop}
    (hsame : ∀ {V w fc}, J V w → V f = some fc → n = fc.attr.size → J' V w)
    (hresize : ∀ {V w fc fc'}, J V w → V f = some fc → (c.file f = some fc ∨ fc.entries = ∅) →
      n ≠ fc.attr.size → fc.Resized B n fc' → K (V.set f fc') w)
    (hseen : ∀ {c : Cache} {w}, c.Wf B → K c.file w → E.seen c w)
    (hattr : ∀ {V w w₁ w₂ fc} {a : AttrWbAns}, K V w → V f = some fc → E.rely w w₁ →
      E.serve w₁ (.attrWb f fc.attr fc.stale) a w₂ →
      (a.err = 0 → J' (V.set f { fc with attr := a.attr, stale := a.stale }) w₂) ∧
      (a.err ≠ 0 → X' (V.set f { fc with attr := a.attr, stale := a.stale }) w₂))
    (hX : ∀ {V w}, X V w → X' V w) (h : c.Wf B) (hJ : J c.file w) :
    (truncate B f n c).wp E (Ends B J' X' fun _ _ _ => True) w := by
  -- From a resized file on, only the attributes are left to write back.
  have hlast : ∀ {c₁ c₂ : Cache} {w fc} (fc₁ : FileCache), J c₁.file w → c₁.file f = some fc →
      (c.file f = some fc ∨ fc.entries = ∅) → n ≠ fc.attr.size → fc.Resized B n fc₁ → c₂.Wf B →
      Frame f c₁ c₂ → c₂.file f = some fc₁ → (attrWb f c₂).wp E (Ends B J' X' fun _ _ _ => True) w := by
    intro c₁ c₂ w fc fc₁ hJ₁ hf₁ ho hne hre hw₂ hfr hf₂
    have hK := hresize hJ₁ hf₁ ho hne hre
    rw [← hfr.file_eq hf₂] at hK
    refine attrWb_wp hf₂ (hseen hw₂ hK) fun hr hs => ?_
    obtain ⟨hok, herr⟩ := hattr hK hf₂ hr hs
    exact ⟨fun he => ⟨hw₂.setFile hf₂ rfl, by rw [file_setFile_eq]; exact hok he, trivial⟩,
      fun he => ⟨hw₂.setFile hf₂ rfl, by rw [file_setFile_eq]; exact herr he⟩⟩
  refine Ends.seq (cacheFileAttr_rule hF h hJ) ?_ fun c w e h hx => ⟨h, hX hx⟩
  intro c₁ w₁ _ h₁ hJ₁ hA
  obtain ⟨fc, hf, ho⟩ := hA.file
  have ho' : c.file f = some fc ∨ fc.entries = ∅ := ho.imp_right (·.2)
  refine wp_bind.mpr ((fileAt_wp hf).mpr ?_)
  show Act.wp E _ ((if _ then _ else _ : CacheM Unit) c₁) w₁
  split
  · rename_i hlt
    have hbound : (if n = 0 then 0 else endBlock B n) = endBlock B n := by
      split
      · rename_i hz; rw [hz]; rfl
      · rfl
    obtain ⟨c₂, fc₂, h₂, hc₂, hl₂⟩ := deleteEntryBeyond_spec h₁ hf (endBlock B n)
    refine wp_bind.mpr ((local_wp (by rw [hbound]; exact h₂)).mpr
      (wp_bind.mpr ((local_wp (setSize_file hc₂.file n)).mpr ?_)))
    refine hlast { fc₂ with attr := { fc₂.attr with size := n } } hJ₁ hf ho' (by omega)
      ⟨by simp only [hc₂.attr], hc₂.stale, fun b => ?_⟩ (hc₂.wf.setFile hc₂.file rfl) (fun g hg => ?_) (by simp)
    · simp only [hl₂, hlt, true_and]
    · rw [file_setFile, if_neg hg, hc₂.frame g hg]
  · show Act.wp E _ ((if _ then _ else _ : CacheM Unit) c₁) w₁
    split
    · rename_i hnlt hgt
      refine wp_bind.mpr ((local_wp (setSize_file hf n)).mpr ?_)
      refine hlast { fc with attr := { fc.attr with size := n } } hJ₁ hf ho' (by omega) ⟨rfl, rfl, fun b => ?_⟩
        (h₁.setFile hf rfl) (fun g hg => ?_) (by simp)
      · rw [if_neg (by omega)]
      · rw [file_setFile, if_neg hg]
    · exact ⟨h₁, hsame hJ₁ hf (by omega), trivial⟩

end

end Cache

end Nfs
