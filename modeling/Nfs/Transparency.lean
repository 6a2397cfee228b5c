/-
The cache is transparent for one client: over plain files, whatever
requests fail on the way, a read returns the bytes of the local file, and
without failures a write-back leaves the server with the local file.

One call keeps the coherence invariant with the local files as the logical
content (`CacheOp.run_rule`); so does a run (`CacheRun.shows`). The calls
of the run are those of the public interface; a truncate has to succeed,
and where it makes the file shorter it has to do so at a block boundary.
Truncation at other places is the subject of `Nfs.Truncation`.
-/
import Nfs.Plain

namespace Nfs

open PlainFile Resume

variable {B : Nat} {order : HashOrder} {exact fails : Prop} {L w w' w₀ : PlainFiles} {c c' : Cache} {f : Str}
  {serve : PlainFiles → (r : Call) → r.Ans → PlainFiles → Prop} {rec : Record}

/-- The logical content is that of the local file. -/
def Local (L : PlainFiles) (f : Str) (l : Bytes) : Prop := L f = some l

/-- The cache shows the local files. -/
def Shows (B : Nat) (exact : Prop) (L : PlainFiles) (V : Files) (w : PlainFiles) : Prop :=
  Coherent Plain.backing B exact (fun _ => False) (Local L) V w

/-- What is known of the cache after a call that returned `a`. -/
def CacheOp.Result (B : Nat) (fails : Prop) (c : Cache) (a : Bytes) : CacheOp → Prop
  | .read f offset size => Cache.ReadResult B f offset size c a
  | .flush f => fails ∨ ∀ fc, c.file f = some fc → fc.AllClean
  | .flushDirtyBlocks => ∀ f fc, c.file f = some fc → fc.AllClean
  | .evictBlocks _ => ∀ f fc, c.file f = some fc → fc.AllClean
  | _ => True

/-- How a call ends that keeps the cache showing the local files. A truncate
that fails is not followed further. -/
def CacheOp.Kept (B : Nat) (exact fails : Prop) (L : PlainFiles) (op : CacheOp) :
    Cache → PlainFiles → Outcome Bytes → Prop
  | c, w, .ok a => c.Wf B ∧ Shows B exact (op.apply (.ok a) L) c.file w ∧ op.Result B fails c a
  | c, w, .err _ => fails ∧ c.Wf B ∧ ((∀ f n, op ≠ .truncate f n) → Shows B exact L c.file w)
  | _, _, .fault => False

/-- What a call has to respect: writes store something, and a truncate
leaves nothing of what it cuts off in the block it cuts. -/
def CacheOp.Respects (B : Nat) (c : Cache) : CacheOp → Prop
  | .write _ _ buf => buf ≠ []
  | .truncate f n => ∀ fc, c.file f = some fc → fc.CutClean B n
  | _ => True

theorem Local.modify {u : Bytes → Bytes} {l : Bytes} (h : Local L f l) : Local (Plain.modify L f u) f (u l) := by
  rw [Local, Plain.modify_self, show L f = some l from h]
  rfl

theorem Local.modify_other {g : Str} {u : Bytes → Bytes} {l : Bytes} (hg : g ≠ f) (h : Local L g l) :
    Local (Plain.modify L f u) g l := by
  rw [Local, Plain.modify_other hg]
  exact h

theorem write_shows (hK : ∀ Spec, Backs (Env.solo serve) Plain.backing Spec exact fails) (hB : 0 < B) {off : Nat}
    {buf : Bytes} (hne : buf ≠ []) (h : c.Wf B) (hJ : Shows B exact L c.file w) :
    (Cache.write B f off buf c).wp (Env.solo serve) (Cache.Ends B
      (Shows B exact (Plain.modify L f (pwrite · off buf))) (fun V w => fails ∧ Shows B exact L V w)
      fun _ _ _ => True) w :=
  Cache.write_rule (Coherent.fetches _ (hK _) hB f) hB
    (fun hV hf hst => hV.stored hf hne hst (fun _ hl => hl.modify) fun _ hg _ hl => hl.modify_other hg) h hJ

theorem truncate_shows (hK : ∀ Spec, Backs (Env.solo serve) Plain.backing Spec exact fails) (hB : 0 < B) {n : Nat}
    (hcut : ∀ fc, c.file f = some fc → fc.CutClean B n) (h : c.Wf B) (hJ : Shows B exact L c.file w) :
    (Cache.truncate B f n c).wp (Env.solo serve) (Cache.Ends B
      (Shows B exact (Plain.modify L f (ftruncate · n))) (fun _ _ => fails) fun _ _ _ => True) w := by
  refine Cache.truncate_rule (K := Resizing Plain.backing B exact (fun _ => False)
    (Local (Plain.modify L f (ftruncate · n))) f) (Coherent.fetches _ (hK _) hB f) ?_ ?_ ?_ ?_ ?_ h hJ
  · intro V w fc hV hf hn g
    by_cases hg : g = f
    · subst hg
      rw [hf]
      have hv := hV g
      rw [hf] at hv
      refine ⟨hv.1, fun hc ht => ?_⟩
      obtain ⟨srv, l, hsrv, hl, hsync, hrest⟩ := hv.2 hc ht
      refine ⟨srv, l, hsrv, ?_, hsync, hrest⟩
      have := hl.modify (u := (ftruncate · n))
      rwa [ftruncate_self (by rw [hn]; exact hsync.size)] at this
    · exact (hV g).mono (fun _ hl => hl.modify_other hg) id
  · intro V w fc fc' hV hf ho _ hre
    refine hV.resizing hf hre (fun _ h => h) (fun _ => ?_) (fun _ hl => hl.modify) fun _ hg _ hl => hl.modify_other hg
    rcases ho with ho | ho
    · exact hcut fc ho
    · intro _ x v _ _ hx
      rw [FileCache.byte, ho] at hx
      simp at hx
  · exact fun _ _ => trivial
  · intro V w w₁ w₂ fc a hR hf hr hs
    obtain ⟨hok, herr⟩ := hR.attrWb (hK _) hf hr hs
    exact ⟨hok, fun he => (herr he).1⟩
  · exact fun hX => hX.1

/-- **One call** keeps the cache showing the local files. -/
theorem CacheOp.run_rule (hK : ∀ Spec, Backs (Env.solo serve) Plain.backing Spec exact fails) (hB : 0 < B)
    (op : CacheOp) (hop : op.Respects B c) (h : c.Wf B) (hJ : Shows B exact L c.file w) :
    (op.run B order c).wp (Env.solo serve) (op.Kept B exact fails L) w := by
  have hU := Coherent.flushes B (fun _ => False) (hK (Local L))
  cases op with
  | write f off buf =>
    refine Cache.Ends.seq (write_shows hK hB hop h hJ) ?_ fun c w e h hX => ⟨hX.1, h, fun _ => hX.2⟩
    exact fun c w _ h hJ _ => ⟨h, hJ, trivial⟩
  | read f off size =>
    exact Cache.Ends.conseq (Cache.read_rule (Coherent.fetches _ (hK (Local L)) hB f) hB h hJ)
      (fun c w _ h hJ hr => ⟨h, hJ, hr⟩) fun c w e h hX => ⟨hX.1, h, fun _ => hX.2⟩
  | flush f =>
    refine Cache.Ends.seq (Cache.flush_rule (hU f) hB h hJ) ?_ fun c w e _ hX => hX.elim
    intro c w _ h hJ _
    rcases hJ with ⟨hJ, hc⟩ | ⟨hx, hJ⟩
    · exact ⟨h, hJ, .inr hc⟩
    · exact ⟨h, hJ, .inl hx⟩
  | flushDirtyBlocks =>
    refine Cache.Ends.seq (Cache.flushDirtyBlocks_rule hU hB order h hJ) ?_
      fun c w e h hX => ⟨hX.1, h, fun _ => hX.2⟩
    exact fun c w _ h hJ hr => ⟨h, hJ, hr.2⟩
  | evictBlocks n =>
    refine Cache.Ends.seq (Cache.evictBlocks_rule hU hB order (fun hV hc ht => hV.thinned hc ht) h hJ) ?_
      fun c w e h hX => ⟨hX.1, h, fun _ => hX.2⟩
    exact fun c w _ h hJ hr => ⟨h, hJ, hr⟩
  | truncate f n =>
    refine Cache.Ends.seq (truncate_shows hK hB hop h hJ) ?_
      fun c w e h hX => ⟨hX, h, fun hne => absurd rfl (hne f n)⟩
    exact fun c w _ h hJ _ => ⟨h, hJ, trivial⟩

/-! ## Runs -/

/-- At the start nothing is cached, and the local files are the server's. -/
theorem Shows.start : Shows B exact w₀ Cache.empty.file w₀ := by
  intro f
  have : Cache.empty.file f = none := rfl
  rw [this]
  exact fun c hc => hc

/-- Every allowed call respects what it has to, and a truncate succeeds. -/
def Admits (B : Nat) (exact fails : Prop) (w₀ : PlainFiles)
    (allowed : Record → Cache → CacheOp → Outcome Bytes → Prop) : Prop :=
  ∀ rec c w op o, allowed rec c op o → Shows B exact (localFiles w₀ rec) c.file w →
    op.Respects B c ∧ ((∃ f n, op = .truncate f n) → fails → ∃ a, o = .ok a)

variable {allowed : Record → Cache → CacheOp → Outcome Bytes → Prop}

/-- **A run** keeps the cache showing the local files. -/
theorem CacheRun.shows (hK : ∀ Spec, Backs (Env.solo serve) Plain.backing Spec exact fails) (hB : 0 < B)
    (hall : Admits B exact fails w₀ allowed) (h : CacheRun serve B order allowed w₀ rec c w) :
    c.Wf B ∧ Shows B exact (localFiles w₀ rec) c.file w := by
  induction h with
  | start => exact ⟨Cache.empty_wf, .start⟩
  | @call rec c w op o c' w' _ ha hx ih =>
    rw [localFiles_snoc]
    obtain ⟨hr, hok⟩ := hall _ _ _ _ _ ha ih.2
    have hQ := (CacheOp.run_rule hK hB op hr ih.1 ih.2).exec hx
    cases o with
    | ok a => exact ⟨hQ.1, hQ.2.1⟩
    | fault => exact hQ.elim
    | err e =>
      obtain ⟨hf, hw, hs⟩ := hQ
      have hne : ∀ f n, op ≠ .truncate f n := by
        rintro f n rfl
        obtain ⟨a, ha⟩ := hok ⟨f, n, rfl⟩ hf
        cases ha
      refine ⟨hw, ?_⟩
      have : ∀ L, op.apply (.err e) L = L := fun L => by cases op <;> rfl
      rw [this]
      exact hs hne

/-- A file that is clean, or not cached, is on the server as it is locally. -/
theorem Shows.settled (h : Shows B True L c.file w) (hex : (w f).isSome = (L f).isSome)
    (hc : ∀ fc, c.file f = some fc → fc.AllClean) : w f = L f := by
  have hv := h f
  cases hf : c.file f with
  | none =>
    rw [hf] at hv
    cases hw : w f with
    | none =>
      rw [hw] at hex
      exact (Option.isSome_eq_false_iff.mp hex.symm |> Option.isNone_iff_eq_none.mp).symm
    | some s => exact (hv s hw).symm
  | some fc =>
    rw [hf] at hv
    obtain ⟨srv, l, hsrv, hl, hsync, hrest⟩ := hv.2 id trivial
    have : srv = l := ext_byteAt (hrest trivial (hc fc hf)) fun x => hsync.rest x (.inr (hc fc hf).not_dirtyAt)
    rw [show w f = some srv from hsrv, show L f = some l from hl, this]

/-- No call makes or removes a file, on either side. -/
theorem CacheRun.isSome
    (hs : ∀ {w r a w'}, serve w r a w' → Plain.Serve w r a w') (h : CacheRun serve B order allowed w₀ rec c w)
    (f : Str) : (w f).isSome = (localFiles w₀ rec f).isSome := by
  induction h with
  | start => rfl
  | @call rec c w op o c' w' _ _ hx ih =>
    have hw : (w' f).isSome = (w f).isSome :=
      hx.keeps (P := fun v => (v f).isSome = (w f).isSome) (fun hr h => ((hs hr).isSome f).trans h) rfl
    have hmod : ∀ {L g u}, (Plain.modify L g u f).isSome = (L f).isSome := by
      intro L g u
      unfold Plain.modify
      split
      · exact Option.isSome_map
      · rfl
    have hL : ∀ L, (op.apply o L f).isSome = (L f).isSome := fun L => by
      cases op <;> cases o <;> first | exact hmod | rfl
    rw [hw, localFiles_snoc, hL, ih]

/-- A read that returns 0 returns the bytes of the local file. -/
theorem CacheRun.read_local (hK : ∀ Spec, Backs (Env.solo serve) Plain.backing Spec exact fails) (hB : 0 < B)
    (hall : Admits B exact fails w₀ allowed) (h : CacheRun serve B order allowed w₀ rec c w) {off size : Nat}
    {data : Bytes} (hx : Exec serve (Cache.read B f off size c) w c' (.ok data) w') :
    ∃ l, localFiles w₀ rec f = some l ∧ data = pread l off size := by
  obtain ⟨hw, hJ⟩ := h.shows hK hB hall
  obtain ⟨-, hJ', hr⟩ := (Cache.read_rule (Coherent.fetches _ (hK _) hB f) hB hw hJ).exec hx
  obtain ⟨fc, -, hread⟩ := hJ'.readResult hr
  obtain ⟨l, hl, hd⟩ := hread id trivial
  exact ⟨l, hl, hd⟩

/-- The calls that write the dirty blocks of `f` back. -/
def CacheOp.WritesBack : CacheOp → Str → Prop
  | .flush f, g => f = g
  | .flushDirtyBlocks, _ => True
  | .evictBlocks _, _ => True
  | _, _ => False

/-- Without failures a write-back succeeds, and leaves the server with the
local file. -/
theorem CacheRun.writeBack_local (hB : 0 < B) (hall : Admits B True False w₀ allowed)
    (h : CacheRun Plain.ServeOk B order allowed w₀ rec c w) {op : CacheOp} {o : Outcome Bytes}
    (hop : op.WritesBack f) (hx : Exec Plain.ServeOk (op.run B order c) w c' o w') :
    (∃ a, o = .ok a) ∧ w' f = localFiles w₀ rec f := by
  obtain ⟨hw, hJ⟩ := h.shows Plain.backs_ok hB hall
  have hres : op.Respects B c := by
    cases op with
    | write | truncate => exact hop.elim
    | _ => trivial
  have hex : (w' f).isSome = (localFiles w₀ rec f).isSome :=
    (hx.keeps (P := fun v => (v f).isSome = (w f).isSome) (fun hr h => (hr.1.isSome f).trans h) rfl).trans
      (h.isSome (fun h => h.1) f)
  have hQ := (CacheOp.run_rule Plain.backs_ok hB op hres hw hJ).exec hx
  cases o with
  | err e => exact hQ.1.elim
  | fault => exact hQ.elim
  | ok a =>
    obtain ⟨-, hJ', hr⟩ := hQ
    refine ⟨⟨a, rfl⟩, ?_⟩
    cases op with
    | write | truncate | read => exact hop.elim
    | flush g =>
      obtain rfl : g = f := hop
      exact Shows.settled hJ' hex (hr.resolve_left id)
    | flushDirtyBlocks => exact Shows.settled hJ' hex (hr f)
    | evictBlocks n => exact Shows.settled hJ' hex (hr f)

/-! ## Transparency -/

/-- The calls for which the cache is transparent. -/
def Transparent (B : Nat) (w₀ : PlainFiles) (rec : Record) (_ : Cache) : CacheOp → Outcome Bytes → Prop
  | .write _ _ buf, _ => buf ≠ []
  | .truncate f n, o => (∃ a, o = .ok a) ∧ ∀ l, localFiles w₀ rec f = some l → l.length ≤ n ∨ B ∣ n
  | _, _ => True

theorem Transparent.admits (hB : 0 < B) : Admits B exact fails w₀ (Transparent B w₀) := by
  intro rec c w op o h hJ
  cases op with
  | write f off buf => exact ⟨h, fun ⟨_, _, he⟩ => by cases he⟩
  | truncate f n =>
    refine ⟨fun fc hf => ?_, fun _ _ => h.1⟩
    have hv := hJ f
    rw [hf] at hv
    obtain ⟨srv, l, -, hl, hsync, -⟩ := hv.2 id trivial
    rcases h.2 l hl with hle | hd
    · exact fun hlt => absurd hlt (by rw [← hsync.size]; omega)
    · exact .of_dvd hB hd
  | _ => exact ⟨trivial, fun ⟨_, _, he⟩ => by cases he⟩

/-- **Transparency.** In every run, whatever requests fail, a read that
returns 0 returns what the local file holds there. If no request fails, a
write-back leaves the server with the local file: `flush` the flushed one,
`flushDirtyBlocks` and `evictBlocks` all of them. -/
theorem cache_transparent (hB : 0 < B) (order : HashOrder) (w₀ : PlainFiles) :
    (∀ rec c w, CacheRun Plain.Serve B order (Transparent B w₀) w₀ rec c w → ∀ f off size c' data w',
      Exec Plain.Serve (Cache.read B f off size c) w c' (.ok data) w' →
      ∃ l, localFiles w₀ rec f = some l ∧ data.length = min size (l.length - off) ∧ data = pread l off size) ∧
    (∀ rec c w, CacheRun Plain.ServeOk B order (Transparent B w₀) w₀ rec c w →
      ∀ (op : CacheOp) f c' o w', op.WritesBack f → Exec Plain.ServeOk (op.run B order c) w c' o w' →
      (∃ a, o = .ok a) ∧ w' f = localFiles w₀ rec f) := by
  refine ⟨fun rec c w h f off size c' data w' hx => ?_, fun rec c w h op f c' o w' hop hx => ?_⟩
  · obtain ⟨l, hl, rfl⟩ := h.read_local Plain.backs hB (Transparent.admits hB) hx
    exact ⟨l, hl, length_pread, rfl⟩
  · exact h.writeBack_local hB (Transparent.admits hB) hop hx

/-- After a byte is written into the middle of a file. -/
def patched : Cache × Outcome Bytes × PlainFiles :=
  ((CacheOp.write [102] 1 [9]).run 2 .inserted Cache.empty).interp Plain.answer fun _ => some [1, 2, 3]

/-- The byte is read back, and the flush puts it on the server. -/
theorem cache_transparent_patched :
    CacheRun Plain.ServeOk 2 .inserted (Transparent 2 fun _ => some [1, 2, 3]) (fun _ => some [1, 2, 3])
        [(.write [102] 1 [9], .ok [])] patched.1 patched.2.2 ∧
      (∃ c' w', Exec Plain.ServeOk ((CacheOp.flush [102]).run 2 .inserted patched.1) patched.2.2 c' (.ok []) w' ∧
        w' [102] = some [1, 9, 3]) ∧
      ∃ c' w', Exec Plain.Serve (Cache.read 2 [102] 0 5 patched.1) patched.2.2 c' (.ok [1, 9, 3]) w' ∧
        ∃ l, some [1, 9, 3] = some l ∧ [1, 9, 3] = pread l 0 5 := by
  obtain ⟨hwrite, hex⟩ := Plain.exec_answer (w := fun _ => some [1, 2, 3])
    (p := (CacheOp.write [102] 1 [9]).run 2 .inserted Cache.empty) (o := .ok []) (fun _ => rfl) (by decide +kernel)
  have hnil : ([9] : Bytes) ≠ [] := by decide
  have hrun : CacheRun Plain.ServeOk 2 .inserted (Transparent 2 fun _ => some [1, 2, 3]) (fun _ => some [1, 2, 3])
      [(.write [102] 1 [9], .ok [])] patched.1 patched.2.2 := CacheRun.start.call hnil hwrite
  have hrun' : CacheRun Plain.Serve 2 .inserted (Transparent 2 fun _ => some [1, 2, 3]) (fun _ => some [1, 2, 3])
      [(.write [102] 1 [9], .ok [])] patched.1 patched.2.2 := CacheRun.start.call hnil (hwrite.imp fun h => h.1)
  obtain ⟨hflush, -⟩ := Plain.exec_answer (p := (CacheOp.flush [102]).run 2 .inserted patched.1) (o := .ok []) hex
    (by decide +kernel)
  obtain ⟨hread, -⟩ := Plain.exec_answer (p := Cache.read 2 [102] 0 5 patched.1) (o := .ok [1, 9, 3]) hex
    (by decide +kernel)
  have ht := cache_transparent (B := 2) (by decide) .inserted fun _ => some [1, 2, 3]
  obtain ⟨l, hl, -, hdata⟩ := ht.1 _ _ _ hrun' _ _ _ _ _ _ (hread.imp fun h => h.1)
  have hshown := (ht.2 _ _ _ hrun (.flush [102]) [102] _ _ _ rfl hflush).2
  exact ⟨hrun, ⟨_, _, hflush, hshown⟩, _, _, hread.imp fun h => h.1, l, hl, hdata⟩

end Nfs
