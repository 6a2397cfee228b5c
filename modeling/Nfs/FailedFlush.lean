/-
What becomes of a write-back that fails.

`flush` does not look at the result of `flushBlocks`, so it returns 0
whatever happens. `flushDirtyBlocks` and `evictBlocks` do report an error,
and what they could not write stays dirty, so that the next call sends it
again. But `flushBlocks` marks its blocks clean before it writes the
attributes back: when these fail, the size on the server stays what the
content made of it, and no later call has a reason to correct it.
-/
import Nfs.Representation
import Nfs.Transparency

namespace Nfs

open PlainFile Resume

/-! ## flush -/

/-- What the result of `flush` is to say: 0 means that every write-back has
succeeded and no block is dirty, and one that has failed is reported. -/
def FlushReports (f : Str) (c : Cache) (o : Outcome Unit) (w : Replies) : Prop :=
  (o = .ok () → ¬ w.Failed ∧ ∀ fc, c.file f = some fc → fc.AllClean) ∧ (w.Failed → ∃ e, e ≠ 0 ∧ o = .err e)

section
variable {B : Nat} {order : HashOrder} {S : LoneCache} {c c' : Cache} {f : Str} {o : Outcome Unit} {w : Replies}

theorem noted_flushes (B : Nat) (f : Str) :
    Flushes (Env.solo Noted) B (fun _ _ => True) (fun _ w => w.Failed) (fun _ _ _ => True) f where
  seen _ _ := trivial
  start _ _ _ := trivial
  contentWb := by
    rintro V w _ _ S fc off data a - - - rfl rfl
    exact ⟨fun _ => trivial, fun he => ⟨_, List.mem_cons_self .., he⟩⟩
  clean _ _ _ _ := trivial
  attrWb := by
    rintro V w _ _ fc a - - rfl rfl
    exact ⟨fun _ => trivial, fun he => ⟨_, List.mem_cons_self .., he⟩⟩
  recover _ := trivial

/-- **`flush` reports** what it is to report just when there is nothing to
report: when no write-back fails. -/
theorem flush_reports_iff (hB : 0 < B) (h : CacheReach B order S) (hc : S.threads () = .idle c)
    (hx : Exec Noted (Cache.flush B f c) [] c' o w) : FlushReports f c' o w ↔ ¬ w.Failed := by
  have hw : c.Wf B := by
    have := h.wf hB
    rwa [LoneCache.cache, hc] at this
  have hend := (Cache.flush_rule (noted_flushes B f) hB hw trivial).exec hx
  cases o with
  | err e => exact hend.2.elim
  | fault => exact hend.elim
  | ok _ =>
    obtain ⟨-, hclean, -⟩ := hend
    constructor
    · intro hr hf
      obtain ⟨e, -, he⟩ := hr.2 hf
      cases he
    · intro hf
      exact ⟨fun _ => ⟨hf, (hclean.resolve_right hf).2⟩, fun h => absurd h hf⟩

/-- A flush whose write-backs succeed. -/
theorem flush_reports_iff_written : ∃ c' w, Exec Noted (Cache.flush 2 [102] written) [] c' (.ok ()) w ∧
    w.length = 2 ∧ FlushReports [102] c' (.ok ()) w := by
  obtain ⟨S, h, hS⟩ := exists_written
  have hx : Exec Noted (Cache.flush 2 [102] written) [] _ (.ok ()) _ :=
    exec_answers (h := fun w (r : Call) => (r.reply 0, ⟨r, r.reply 0⟩ :: w)) (fun _ _ => rfl) _ _ (by decide +kernel)
  exact ⟨_, _, hx, by decide +kernel, (flush_reports_iff (by decide) h hS hx).mpr (by decide +kernel)⟩

/-- **A failed write-back is not reported**: the block stays dirty, and `flush`
returns 0. -/
theorem flush_hides_failure : ∃ S c' w, CacheReach 2 .inserted S ∧ S.threads () = .idle written ∧
    Exec Noted (Cache.flush 2 [102] written) [] c' (.ok ()) w ∧ w.Failed ∧ c'.countDirtyBlocks = 1 := by
  obtain ⟨S, h, hS⟩ := exists_written
  have hx : Exec Noted (Cache.flush 2 [102] written) [] _ (.ok ()) _ :=
    exec_answers (h := fun w (r : Call) => (r.reply 5, ⟨r, r.reply 5⟩ :: w)) (fun _ _ => rfl) _ _ (by decide +kernel)
  exact ⟨S, _, _, h, hS, hx, by decide +kernel, by decide +kernel⟩

end

/-! ## Sizes -/

namespace Plain

/-- A size is written back in vain only where the file has it already. -/
def SizeKept (w : PlainFiles) : (r : Call) → r.Ans → Prop
  | .attrWb f attr _, a => a.err ≠ 0 → ∀ c, w f = some c → c.length = attr.size
  | _, _ => True

def ServeSized (w : PlainFiles) (r : Call) (a : r.Ans) (w' : PlainFiles) : Prop := Serve w r a w' ∧ SizeKept w r a

theorem ServeOk.sized {w w' : PlainFiles} {r : Call} {a : r.Ans} (h : ServeOk w r a w') : ServeSized w r a w' := by
  refine ⟨h.1, ?_⟩
  cases r with
  | attrWb f attr s => exact fun he => absurd he h.2
  | _ => trivial

theorem backs_sized (Spec : Str → Bytes → Prop) : Backs (Env.solo ServeSized) backing Spec False True := by
  have h := backs Spec
  exact ⟨h.seen, h.rely, fun hs => h.attrFt hs.1, fun hs => h.contentFt hs.1, fun hs => h.contentWb hs.1,
    fun hs => h.attrWb hs.1⟩

end Plain

/-- If `f` is cached without a dirty block, the server's file has the cached
size. -/
def LevelAt (w : PlainFiles) (f : Str) (o : Option FileCache) : Prop :=
  ∀ fc, o = some fc → fc.AllClean → ∀ srv, w f = some srv → srv.length = fc.attr.size

def Level (V : Files) (w : PlainFiles) : Prop := ∀ f, LevelAt w f (V f)

/-- While `f` is written back its blocks are dirty, until only the size is
owed. -/
def Levelling (f : Str) (p : Phase) (V : Files) (w : PlainFiles) : Prop :=
  (∀ g, g ≠ f → LevelAt w g (V g)) ∧
    match p with
    | .sending _ => ∀ fc, V f = some fc → ¬ fc.AllClean
    | .owing => True

section
variable {B : Nat} {order : HashOrder} {V V' : Files} {w w' w₀ : PlainFiles} {c c' : Cache} {f : Str} {fc : FileCache}
  {rec : Record}

theorem Level.set (h : ∀ g, g ≠ f → LevelAt w g (V g)) (hw : ∀ g, g ≠ f → w' g = w g) (hf : LevelAt w' f (some fc)) :
    Level (V.set f fc) w' := by
  refine Files.forall_set hf fun g hg => ?_
  intro fc' hfc' hc srv hsrv
  exact h g hg fc' hfc' hc srv ((hw g hg).symm.trans hsrv)

theorem LevelAt.of_dirty (h : ¬ fc.AllClean) : LevelAt w f (some fc) := by
  rintro _ ⟨⟩ hc
  exact absurd hc h

theorem Level.fetches (hB : 0 < B) (f : Str) : Fetches (Env.solo Plain.ServeSized) B Level Level f := by
  refine ⟨fun _ _ => trivial, ?_, ?_⟩
  · rintro V w _ w₂ a h hf rfl ⟨⟨rfl, hok⟩, -⟩
    refine ⟨fun he => .set (fun g _ => h g) (fun _ _ => rfl) ?_, fun _ => h⟩
    obtain ⟨c, hc, hlen⟩ := hok he
    rintro _ ⟨⟩ - srv hsrv
    rw [hc] at hsrv
    cases hsrv
    exact hlen.symm
  · rintro V w _ w₂ fc start n a h hf rfl ⟨⟨rfl, hok⟩, -⟩
    refine ⟨fun he fc' hfill => .set (fun g _ => h g) (fun _ _ => rfl) ?_, fun _ => h⟩
    rintro _ ⟨⟩ hclean srv hsrv
    rw [hfill.attr]
    refine h f fc hf ((FileCache.allClean_iff hB).mpr fun x hd => ?_) srv hsrv
    exact hclean.not_dirtyAt ((hfill.dirty x).mpr hd)

theorem Level.flushes (B : Nat) (f : Str) :
    Flushes (Env.solo Plain.ServeSized) B Level Level (Levelling f) f := by
  refine ⟨fun _ _ => trivial, ?_, ?_, ?_, ?_, id⟩
  · intro V w fc h hf hne
    refine ⟨fun g _ => h g, fun fc' hf' => ?_⟩
    rw [hf] at hf'
    cases hf'
    exact hne
  · rintro V w _ w₂ S fc off data a ⟨ho, hne⟩ hf hx rfl ⟨⟨hok, herr⟩, -⟩
    have hw : ∀ g, g ≠ f → w₂ g = w g := by
      intro g hg
      by_cases he : a.err = 0
      · rw [(hok he).2, Plain.modify_other hg]
      · obtain ⟨k, -, rfl⟩ := herr he
        exact Plain.modify_other hg
    have hdirty : LevelAt w₂ f (some (fc.restamp a.time a.stale)) := .of_dirty (hne fc hf)
    have hlev := Level.set ho hw hdirty
    refine ⟨fun he => ⟨fun g _ => hlev g, fun fc' hf' => ?_⟩, fun _ => hlev⟩
    rw [Files.set_self] at hf'
    cases hf'
    exact hne fc hf
  · intro V w S fc fc' h hf _ _
    refine ⟨fun g hg => ?_, trivial⟩
    rw [Files.set_other hg]
    exact h.1 g hg
  · rintro V w _ w₂ fc a ⟨ho, -⟩ hf rfl ⟨⟨hsize, hok, herr⟩, hkept⟩
    -- On success the file gets the size, on failure it has it.
    constructor
    · intro he
      obtain ⟨-, rfl⟩ := hok he
      refine .set ho (fun g hg => Plain.modify_other hg) ?_
      rintro _ ⟨⟩ - srv hsrv
      rw [Plain.modify_self] at hsrv
      obtain ⟨s, -, rfl⟩ := Option.map_eq_some_iff.mp hsrv
      rw [length_ftruncate, hsize]
    · intro he
      obtain rfl := herr he
      refine .set ho (fun g hg => rfl) ?_
      rintro _ ⟨⟩ - srv hsrv
      rw [hsize]
      exact hkept he srv hsrv

/-- The calls of a client that does not truncate. -/
def Appends (_ : Record) (_ : Cache) : CacheOp → Outcome Bytes → Prop
  | .write _ _ buf, _ => buf ≠ []
  | .truncate .., _ => False
  | _, _ => True

theorem Appends.admits {exact fails : Prop} : Admits B exact fails w₀ Appends := by
  intro rec c w op o h _
  cases op with
  | write f off buf => exact ⟨h, fun ⟨_, _, he⟩ => by cases he⟩
  | truncate f n => exact h.elim
  | _ => exact ⟨trivial, fun ⟨_, _, he⟩ => by cases he⟩

theorem CacheOp.run_level (hB : 0 < B) {op : CacheOp} {o : Outcome Bytes} (hop : Appends rec c op o) (h : c.Wf B)
    (hJ : Level c.file w) :
    (op.run B order c).wp (Env.solo Plain.ServeSized) (Cache.Ends B Level Level fun _ _ _ => True) w := by
  have herr : ∀ (c : Cache) (w : PlainFiles) (e : Int), c.Wf B → Level c.file w →
      Cache.Ends (α := Bytes) B Level Level (fun _ _ _ => True) c w (.err e) := fun _ _ _ h hX => ⟨h, hX⟩
  cases op with
  | truncate f n => exact hop.elim
  | write f off buf =>
    refine Cache.Ends.seq (J := Level) (Cache.write_rule (Level.fetches hB f) hB ?_ h hJ)
      (fun c w _ h hJ _ => ⟨h, hJ, trivial⟩) herr
    intro V w fc fc' hV hf hst
    refine .set (fun g _ => hV g) (fun _ _ => rfl) (.of_dirty fun hclean => ?_)
    have hlen := List.length_pos_iff.mpr hop
    exact hclean.not_dirtyAt ((hst.dirty off).mpr (.inr ⟨off, le_refl _, by omega, rfl⟩))
  | read f off size =>
    exact Cache.Ends.conseq (Cache.read_rule (Level.fetches hB f) hB h hJ)
      (fun c w _ h hJ _ => ⟨h, hJ, trivial⟩) herr
  | flush f =>
    refine Cache.Ends.seq (Cache.flush_rule (Level.flushes B f) hB h hJ)
      (fun c w _ h hJ _ => ⟨h, hJ.elim (·.1) id, trivial⟩) fun c w e _ hX => hX.elim
  | flushDirtyBlocks =>
    exact Cache.Ends.seq (Cache.flushDirtyBlocks_rule (Level.flushes B) hB order h hJ)
      (fun c w _ h hJ _ => ⟨h, hJ, trivial⟩) herr
  | evictBlocks n =>
    refine Cache.Ends.seq (Cache.evictBlocks_rule (Level.flushes B) hB order ?_ h hJ)
      (fun c w _ h hJ _ => ⟨h, hJ, trivial⟩) herr
    intro V V' w hV hclean ht f fc' hf' hc' srv hsrv
    obtain ⟨fc, hf, hth⟩ := ht.file hf'
    rw [hth.attr]
    exact hV f fc hf (hclean f fc hf) srv hsrv

/-- In every run clean files are level. -/
theorem CacheRun.level (hB : 0 < B) (h : CacheRun Plain.ServeSized B order Appends w₀ rec c w) :
    Level c.file w := by
  induction h with
  | start => rintro f _ ⟨⟩
  | @call rec c w op o c' w' h ha hx ih =>
    obtain ⟨hw, -⟩ := h.shows Plain.backs_sized hB Appends.admits
    have hQ := (CacheOp.run_level hB ha hw ih).exec hx
    cases o with
    | ok _ => exact hQ.2.1
    | err _ => exact hQ.2
    | fault => exact hQ.elim

/-- The calls that write every dirty block back. -/
def CacheOp.WritesAllBack : CacheOp → Prop
  | .flushDirtyBlocks => True
  | .evictBlocks _ => True
  | _ => False

/-- The server has what the cache shows: of every cached file the size, and
the bytes that reads return. -/
def WrittenBack (serve : PlainFiles → (r : Call) → r.Ans → PlainFiles → Prop) (B : Nat) (c : Cache) (w : PlainFiles) :
    Prop :=
  ∀ f fc, c.file f = some fc → ∃ srv, w f = some srv ∧ srv.length = fc.attr.size ∧
    ∀ off size c' data w', Exec serve (Cache.read B f off size c) w c' (.ok data) w' → data = pread srv off size

/-- **A write-back that returns 0 is complete**, whatever has failed before,
provided sizes are written back in vain only where the file has them already. -/
theorem writeBack_complete (hB : 0 < B) (h : CacheRun Plain.ServeSized B order Appends w₀ rec c w) {op : CacheOp}
    (hop : op.WritesAllBack) {a : Bytes} (hx : Exec Plain.ServeSized (op.run B order c) w c' (.ok a) w') :
    WrittenBack Plain.ServeSized B c' w' := by
  have ha : Appends rec c op (.ok a) := by
    cases op with
    | flushDirtyBlocks | evictBlocks => trivial
    | _ => exact hop.elim
  have hadm : Admits B False True w₀ Appends := Appends.admits
  have h' := h.call ha hx
  obtain ⟨hw, hJ⟩ := h.shows Plain.backs_sized hB hadm
  obtain ⟨-, hJ'⟩ := h'.shows Plain.backs_sized hB hadm
  obtain ⟨-, -, hr⟩ := (CacheOp.run_rule Plain.backs_sized hB op (hadm _ _ _ _ _ ha hJ).1 hw hJ).exec hx
  have hclean : ∀ f fc, c'.file f = some fc → fc.AllClean := by
    cases op with
    | flushDirtyBlocks | evictBlocks => exact hr
    | _ => exact hop.elim
  intro f fc hf
  have hv := hJ' f
  rw [hf] at hv
  obtain ⟨srv, l, hsrv, hl, hsync, -⟩ := hv.2 id trivial
  have hlen : srv.length = fc.attr.size := h'.level hB f fc hf (hclean f fc hf) srv hsrv
  have hsl : srv = l :=
    ext_byteAt (hlen.trans hsync.size.symm) fun x => hsync.rest x (.inr (hclean f fc hf).not_dirtyAt)
  refine ⟨srv, hsrv, hlen, fun off size c'' data w'' hread => ?_⟩
  obtain ⟨l', hl', hdata⟩ := h'.read_local Plain.backs_sized hB hadm hread
  have hll : l' = l := Option.some.inj (hl'.symm.trans hl)
  rw [hdata, hll, hsl]

/-- The server of `Plain.answer`, which refuses some of the calls. -/
def Plain.answerBut (refused : Call → Bool) (w : PlainFiles) (r : Call) : r.Ans × PlainFiles :=
  if refused r then (r.reply 5, w) else Plain.answer w r

theorem Plain.serve_refused (w : PlainFiles) (r : Call) : Serve w r (r.reply 5) w := by
  have h5 : (5 : Int) ≠ 0 := by decide
  cases r with
  | attrFt | contentFt => exact ⟨rfl, fun he => absurd he h5⟩
  | contentWb f off data t s =>
    refine ⟨fun he => absurd he h5, fun _ => ⟨0, Nat.zero_le _, funext fun g => ?_⟩⟩
    by_cases hg : g = f
    · simp [hg]
    · rw [modify_other hg]
  | attrWb f attr s => exact ⟨rfl, fun he => absurd he h5, fun _ => rfl⟩

theorem Plain.serve_answerBut {serve : PlainFiles → (r : Call) → r.Ans → PlainFiles → Prop}
    (hok : ∀ w r a w', ServeOk w r a w' → serve w r a w') {refused : Call → Bool}
    (hno : ∀ w r, refused r = true → serve w r (r.reply 5) w) (w : PlainFiles) (r : Call) (h : ∀ f, (w f).isSome) :
    serve w r (answerBut refused w r).1 (answerBut refused w r).2 ∧ ∀ f, ((answerBut refused w r).2 f).isSome := by
  unfold answerBut
  split
  · rename_i hr
    exact ⟨hno w r hr, h⟩
  · obtain ⟨hs, hw⟩ := serveOk_answer w r h
    exact ⟨hok _ _ _ _ hs, hw⟩

end

/-- The last block of a file of three bytes is read, so that it is padded to
two bytes, and changed. -/
def lastChanged : Record × Cache × PlainFiles :=
  Plain.calls 2 .inserted (fun _ => some [1, 2, 3]) [.read [102] 2 1, .write [102] 2 [9]]

/-- The write-back of that block, some calls being refused. -/
def lastFlushed (refused : Call → Bool) : Cache × Outcome Bytes × PlainFiles :=
  (CacheOp.flushDirtyBlocks.run 2 .inserted lastChanged.2.1).interp (Plain.answerBut refused) lastChanged.2.2

theorem lastFlushed_run {serve : PlainFiles → (r : Call) → r.Ans → PlainFiles → Prop}
    (hok : ∀ w r a w', Plain.ServeOk w r a w' → serve w r a w') {refused : Call → Bool}
    (hno : ∀ w r, refused r = true → serve w r (r.reply 5) w) (ho : (lastFlushed refused).2.1 = .err 5) :
    CacheRun serve 2 .inserted Appends (fun _ => some [1, 2, 3]) (lastChanged.1 ++ [(.flushDirtyBlocks, .err 5)])
      (lastFlushed refused).1 (lastFlushed refused).2.2 ∧ ∀ f, ((lastFlushed refused).2.2 f).isSome := by
  obtain ⟨hrun, hsome⟩ := Plain.calls_run Appends 2 .inserted (fun _ => some [1, 2, 3]) (fun _ => rfl)
    [.read [102] 2 1, .write [102] 2 [9]] (by simp [Appends])
  have hx : Exec serve (CacheOp.flushDirtyBlocks.run 2 .inserted lastChanged.2.1) lastChanged.2.2
      (lastFlushed refused).1 (lastFlushed refused).2.1 (lastFlushed refused).2.2 ∧
      ∀ f, ((lastFlushed refused).2.2 f).isSome :=
    exec_interp (P := fun w : PlainFiles => ∀ f, (w f).isSome) (R := fun _ => True)
      (fun w r _ => Plain.serve_answerBut hok hno w r) _ _ (fun _ _ => trivial) hsome
  rw [ho] at hx
  exact ⟨(hrun.imp hok).call trivial hx.1, hx.2⟩

def isContentWb : Call → Bool
  | .contentWb .. => true
  | _ => false

def isAttrWb : Call → Bool
  | .attrWb .. => true
  | _ => false

/-- The content is refused at first; the second attempt brings everything to
the server. -/
theorem writeBack_complete_retried : ∃ rec c w,
    CacheRun Plain.ServeSized 2 .inserted Appends (fun _ => some [1, 2, 3])
      (rec ++ [(.flushDirtyBlocks, .err 5)]) c w ∧ c.countDirtyBlocks = 1 ∧
      ∃ c' w', Exec Plain.ServeSized (CacheOp.flushDirtyBlocks.run 2 .inserted c) w c' (.ok []) w' ∧
        WrittenBack Plain.ServeSized 2 c' w' := by
  have hno : ∀ w r, isContentWb r = true → Plain.ServeSized w r (r.reply 5) w := by
    intro w r hr
    cases r with
    | contentWb => exact ⟨Plain.serve_refused w _, trivial⟩
    | attrFt | contentFt | attrWb => cases hr
  obtain ⟨hrun, hsome⟩ := lastFlushed_run (fun _ _ _ _ h => h.sized) hno (by decide +kernel)
  obtain ⟨hx, -⟩ := Plain.exec_answer (p := CacheOp.flushDirtyBlocks.run 2 .inserted (lastFlushed isContentWb).1)
    (o := .ok []) hsome (by decide +kernel)
  have hx' := hx.imp fun h => h.sized
  have hop : CacheOp.flushDirtyBlocks.WritesAllBack := trivial
  exact ⟨_, _, _, hrun, by decide +kernel, _, _, hx', writeBack_complete (by decide) hrun hop hx'⟩

/-- The second attempt where the size was refused. -/
def flushedAgain : Cache × Outcome Bytes × PlainFiles :=
  (CacheOp.flushDirtyBlocks.run 2 .inserted (lastFlushed isAttrWb).1).interp Plain.answer (lastFlushed isAttrWb).2.2

/-- **A size that is not corrected**: the block is on the server with its
padding, the size write-back fails, and from then on `flushDirtyBlocks`
returns 0, finding nothing dirty. -/
theorem size_not_corrected : ∃ rec c w, CacheRun Plain.Serve 2 .inserted Appends (fun _ => some [1, 2, 3]) rec c w ∧
    ∃ c' w', Exec Plain.Serve (CacheOp.flushDirtyBlocks.run 2 .inserted c) w c' (.ok []) w' ∧
      (c'.file [102]).map (·.attr.size) = some 3 ∧ w' [102] = some [1, 2, 9, 0] ∧
        ¬ WrittenBack Plain.Serve 2 c' w' := by
  obtain ⟨hrun, hsome⟩ := lastFlushed_run (fun _ _ _ _ h => h.1)
    (fun w r (_ : isAttrWb r = true) => Plain.serve_refused w r) (by decide +kernel)
  obtain ⟨hx, -⟩ := Plain.exec_answer (p := CacheOp.flushDirtyBlocks.run 2 .inserted (lastFlushed isAttrWb).1)
    (o := .ok []) hsome (by decide +kernel)
  have hsize : (flushedAgain.1.file [102]).map (·.attr.size) = some 3 := by decide +kernel
  have hsrv : flushedAgain.2.2 [102] = some [1, 2, 9, 0] := by decide +kernel
  refine ⟨_, _, _, hrun, _, _, hx.imp fun h => h.1, hsize, hsrv, fun h => ?_⟩
  obtain ⟨fc, hf, hfc⟩ := Option.map_eq_some_iff.mp hsize
  obtain ⟨srv, hsrv', hlen, -⟩ := h [102] fc hf
  obtain rfl : [1, 2, 9, 0] = srv := Option.some.inj (hsrv.symm.trans hsrv')
  rw [hfc] at hlen
  exact absurd hlen (by decide)

end Nfs
