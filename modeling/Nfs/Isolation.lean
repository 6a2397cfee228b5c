/-
What the failures of one file do to the reads and writes of another.

A read or a write of `g` asks for `g` only, until it makes room: a cache that
holds more than `max_cache_entry` blocks is flushed first, every file of it,
and the first error ends the operation. So a file `f` whose write-backs fail
makes the operations on `g` fail, but only while the cache is over-full and
holds dirty blocks of `f`.
-/
import Nfs.System

namespace Nfs

open PlainFile Resume

/-- The request names file `f`. -/
def Req.Names : Req → Str → Prop
  | .access g, f => g = f
  | .create g, f => g = f
  | .stat g, f => g = f
  | .statfs, _ => False
  | .readdir g, f => g = f
  | .read g _ _, f => g = f
  | .write g _ _, f => g = f
  | .truncate g _, f => g = f
  | .unlink g, f => g = f
  | .rmdir g, f => g = f
  | .mkdir g _, f => g = f
  | .rename g g' _, f => g = f ∨ g' = f

instance (r : Req) (f : Str) : Decidable (r.Names f) := by
  cases r <;> unfold Req.Names <;> infer_instance

/-- The operation reads or writes `g`. -/
def Op.Transfers : Op → Str → Prop
  | .read f _ _, g => f = g
  | .write f _ _, g => f = g
  | _, _ => False

/-- A dirty block of `f` is cached. -/
def DirtyIn (f : Str) (V : Files) : Prop := ∃ fc, V f = some fc ∧ ¬ fc.AllClean

section
variable {ι : Type} [DecidableEq ι]

/-- A run from a call of `op` at client `A`, in state `s`: of the answers the
operation has got, those that are errors are to requests that name `f`. The
other clients do as they like. What the operation has returned is recorded. -/
inductive Calls (cfg : ι → Config) (A : ι) (f : Str) (op : Op) (s : NetFS) : Option (Outcome op.Ret) → System ι → Prop
  | call : Reach cfg S → S.threads A = .idle s → Step cfg S A ⟨op, none, ret⟩ S' → Calls cfg A f op s ret S'
  | reply : Calls cfg A f op s none S → Step cfg S A ⟨op, some ⟨r, a⟩, ret⟩ S' → (r.error a ≠ 0 → r.Names f) →
      Calls cfg A f op s ret S'
  | other : Calls cfg A f op s ret S → i ≠ A → Step cfg S i e S' → Calls cfg A f op s ret S'

end

/-! ## The cache -/

/-- Errors are answered to requests that name `f` only. -/
def failsOnly (f : Str) : Service Unit where
  serve _ r a _ := r.error a ≠ 0 → r.Names f
  rely _ _ := True
  seen _ _ := True

/-- The same blocks are cached. -/
def Files.SameBlocks (V V' : Files) : Prop :=
  ∀ g b, ((V' g).bind fun fc => fc.entries.lookup b).isSome = ((V g).bind fun fc => fc.entries.lookup b).isSome

section
variable {B : Nat} {f g : Str} {V V' V₀ : Files} {fc fc' : FileCache} {w : Unit} {D : Prop}

theorem Files.SameBlocks.set (h : V₀.SameBlocks V) (hf : V g = some fc)
    (hb : ∀ b, (fc'.entries.lookup b).isSome = (fc.entries.lookup b).isSome) : V₀.SameBlocks (V.set g fc') := by
  intro g' b
  rw [← h g' b]
  by_cases hg : g' = g
  · subst hg
    rw [Files.set_self, hf]
    exact hb b
  · rw [Files.set_other hg]

theorem DirtyIn.of_set (h : DirtyIn f (V.set g fc')) (hV : V g = some fc) (hc : fc.AllClean → fc'.AllClean) :
    DirtyIn f V := by
  obtain ⟨fc₁, hf, hn⟩ := h
  by_cases hfg : f = g
  · subst hfg
    rw [Files.set_self] at hf
    cases hf
    exact ⟨fc, hV, fun ha => hn (hc ha)⟩
  · rw [Files.set_other hfg] at hf
    exact ⟨fc₁, hf, hn⟩

theorem DirtyIn.of_other (h : DirtyIn f (V.set g fc)) (hg : g ≠ f) : DirtyIn f V := by
  obtain ⟨fc₁, hf, hn⟩ := h
  rw [Files.set_other (Ne.symm hg)] at hf
  exact ⟨fc₁, hf, hn⟩

/-- Fetching from `g` fails no request, and does not touch `f`. -/
theorem DirtyIn.fetches (hg : g ≠ f) :
    Fetches (failsOnly f).back B (fun V _ => DirtyIn f V → D) (fun _ _ => False) g := by
  refine ⟨fun _ _ => trivial, ?_, ?_⟩
  · rintro V w w₁ w₂ a h - - ⟨resp, hs, rfl⟩
    exact ⟨fun _ hd => h (hd.of_other hg), fun he => hg (hs he)⟩
  · rintro V w w₁ w₂ fc start n a h - - ⟨resp, hs, rfl⟩
    exact ⟨fun _ fc' _ hd => h (hd.of_other hg), fun he => hg (hs fun he' => he (doRead_error.trans he'))⟩

/-- What holds while the cache is flushed and thinned: `f` has dirty blocks if
`D`, and nothing is dropped before everything is clean. -/
def Making (f : Str) (D : Prop) (V₀ V : Files) (_ : Unit) : Prop :=
  (DirtyIn f V → D) ∧ (V₀.SameBlocks V ∨ ∀ g fc, V g = some fc → fc.AllClean)

theorem Making.flushes (f : Str) (D : Prop) (V₀ : Files) (g : Str) :
    Flushes (failsOnly f).back B (Making f D V₀) (fun V _ => D ∧ V₀.SameBlocks V)
      (fun _ V _ => (DirtyIn f V → D) ∧ V₀.SameBlocks V ∧ (g = f → D)) g := by
  refine ⟨fun _ _ => trivial, ?_, ?_, ?_, ?_, fun h => ⟨fun _ => h.1, .inl h.2⟩⟩
  · rintro V w fc ⟨hD, hV⟩ hf hn
    refine ⟨hD, hV.resolve_right fun hc => hn (hc g fc hf), ?_⟩
    rintro rfl
    exact hD ⟨fc, hf, hn⟩
  · rintro V w w₁ w₂ S fc off data a ⟨hD, hV, hg⟩ hf - - ⟨resp, hs, rfl⟩
    exact ⟨fun _ => ⟨fun hd => hD (hd.of_set hf id), hV.set hf fun _ => rfl, hg⟩,
      fun he => ⟨hg (hs fun he' => he (doWrite_error.trans he')), hV.set hf fun _ => rfl⟩⟩
  · rintro V w S fc fc' ⟨hD, hV, hg⟩ hf - hc
    exact ⟨fun hd => hD (hd.of_set hf fun _ => hc.clean), hV.set hf hc.blocks, hg⟩
  · rintro V w w₁ w₂ fc a ⟨hD, hV, hg⟩ hf - ⟨resp, hs, rfl⟩
    exact ⟨fun _ => ⟨fun hd => hD (hd.of_set hf id), .inl (hV.set hf fun _ => rfl)⟩,
      fun he => ⟨hg (hs fun he' => he (doWriteAttr_error.trans he')), hV.set hf fun _ => rfl⟩⟩

theorem Making.of_thinned (hc : ∀ g fc, V g = some fc → fc.AllClean) (ht : V.Thinned V') : Making f D V₀ V' w := by
  have hc' := ht.allClean hc
  exact ⟨fun ⟨fc, hf, hn⟩ => absurd (hc' f fc hf) hn, .inr hc'⟩

/-! ## The operations -/

/-- How a read or a write of another file ends: an error leaves an over-full
cache behind. -/
def Excused {α : Type} (c : Config) (f : Str) (D : Prop) : NetFS → Unit → Outcome α → Prop
  | s, _, .ok _ => s.cache.Wf c.blockSize ∧ (DirtyIn f s.files → D)
  | s, _, .err _ => D ∧ c.maxCacheEntry < s.cache.countCachedBlocks
  | _, _, .fault => False

variable {c : Config} {s : NetFS}

/-- **Making room.** -/
theorem evict_excused (hB : 0 < c.blockSize) (hw : s.cache.Wf c.blockSize) (h : DirtyIn f s.files → D) :
    ((NetFS.evict c) s).wp (failsOnly f).net (Excused c f D) w := by
  refine wp_bind.mpr (wp_get.mpr ?_)
  show Act.wp _ _ ((if _ then _ else _ : NetFSM Unit) s) w
  split
  · rename_i hmax
    have hJ : Making f D s.files s.files w := ⟨h, .inl fun _ _ => rfl⟩
    refine NetFS.onCache_wp.mpr (Cache.Ends.conseq (Cache.evictBlocks_rule (Making.flushes f D s.files) hB c.order
      (fun _ hc ht => .of_thinned hc ht) hw hJ) (fun _ _ _ h hJ _ => ⟨h, hJ.1⟩) ?_)
    rintro c' w' _ hw' ⟨hD, hb⟩
    refine ⟨hD, ?_⟩
    rw [hw.countCachedBlocks_eq hw' hb]
    exact hmax
  · exact ⟨hw, h⟩

theorem read_excused (hB : 0 < c.blockSize) (hg : g ≠ f) {off n : Nat} (hw : s.cache.Wf c.blockSize) :
    ((NetFS.read c g off n) s).wp (failsOnly f).net (Excused c f (DirtyIn f s.files)) w := by
  refine NetFS.Ends.seq (NetFS.onCache_rule (P := fun _ => True)
    (Cache.read_rule (DirtyIn.fetches hg) hB hw fun h => h) fun _ _ _ => trivial) ?_ fun _ _ _ _ hX => hX.elim
  intro s₁ w₁ data h₁ hJ₁ _
  exact wp_seq (evict_excused hB h₁ hJ₁) (fun s w _ hQ => hQ) (fun s w e hQ => hQ) fun s w hQ => hQ

theorem write_excused (hB : 0 < c.blockSize) (hg : g ≠ f) {off : Nat} {buf : Bytes} (hw : s.cache.Wf c.blockSize) :
    ((NetFS.write c g off buf) s).wp (failsOnly f).net (Excused c f (DirtyIn f s.files)) w := by
  have hwrite : (Cache.write c.blockSize g off buf s.cache).wp _ (Cache.Ends c.blockSize
      (fun V _ => DirtyIn f V → DirtyIn f s.files) (fun _ _ => False) fun _ _ _ => True) w :=
    Cache.write_rule (DirtyIn.fetches hg) hB (fun h _ _ hd => h (hd.of_other hg)) hw fun h => h
  refine NetFS.Ends.seq (NetFS.onCache_rule (P := fun _ => True) hwrite fun _ _ _ => trivial) ?_
    fun _ _ _ _ hX => hX.elim
  intro s₁ w₁ _ h₁ hJ₁ _
  refine wp_seq (evict_excused hB h₁ hJ₁) ?_ (fun s w e hQ => hQ) fun s w hQ => hQ
  intro s₂ w₂ _ h₂
  -- The flush at the end of the interval keeps its errors to itself.
  exact NetFS.Ends.conseq (NetFS.countWrite_rule (w := w₂) hB (Making.flushes f (DirtyIn f s.files) s₂.files) h₂.1
    ⟨h₂.2, .inl fun _ _ => rfl⟩) (fun _ _ _ h hJ _ => ⟨h, hJ.1⟩) fun _ _ _ _ hX => hX.elim

end

section
variable {ι : Type} [DecidableEq ι] {cfg : ι → Config} {A : ι} {f g : Str} {op : Op} {s : NetFS} {S : System ι}

theorem Op.run_excused {c : Config} {w : Unit} (hB : 0 < c.blockSize) (hg : g ≠ f) (hop : op.Transfers g)
    (hw : s.cache.Wf c.blockSize) :
    (op.run c s).wp (failsOnly f).net (Excused c f (DirtyIn f s.files)) w := by
  cases op with
  | read g' off n =>
    obtain rfl : g' = g := hop
    exact read_excused hB hg hw
  | write g' off buf =>
    obtain rfl : g' = g := hop
    exact write_excused hB hg hw
  | _ => exact hop.elim

/-- **A run.** -/
theorem Calls.within {ret : Option (Outcome op.Ret)} (hB : 0 < (cfg A).blockSize) (hg : g ≠ f) (hop : op.Transfers g)
    (h : Calls cfg A f op s ret S) :
    (S.threads A).Within (failsOnly f).net op (Excused (cfg A) f (DirtyIn f s.files)) () ret := by
  induction h with
  | call hr hi hs =>
    obtain ⟨s', hi', hc, hret⟩ := hs.called
    cases hi.symm.trans hi'
    rw [hc, hret]
    exact .after (op.run_excused hB hg hop (hr.idle_wf hB hi))
  | reply _ hs he ih => exact hs.within ih trivial he
  | other _ hi hs ih =>
    rw [hs.other (Ne.symm hi)]
    exact ih

/-- An operation over a server that lets nothing be changed, as it goes on. -/
theorem Calls.replies {w : Server} {p : Act NetFS Req.Resp op.Ret} {s' : NetFS} {o : Outcome op.Ret} {v v' : Server}
    (hx : Exec (fun v r a v' => (a = w.readOnly r ∧ v = w ∧ v' = w) ∧ (r.error (w.readOnly r) ≠ 0 → r.Names f))
      p v s' o v') : ∀ {S : System ι}, Calls cfg A f op s p.result S → S.world = w → S.threads A = .after op p →
      ∃ S', Calls cfg A f op s (some o) S' := by
  induction hx with
  | done s o v => exact fun h _ _ => ⟨_, h⟩
  | @ask r a v₁ k s' o v' s v hr _ ih =>
    intro S h hw hc
    obtain ⟨⟨rfl, -, -⟩, he⟩ := hr
    have hserve : S.world.Serve r (w.readOnly r) w := by
      rw [hw]
      exact w.serve_readOnly r
    obtain ⟨S', hstep, hw', hc'⟩ := Threads.exists_reply (fun i (op : Op) => op.run (cfg i)) hc hserve
    exact ih (.reply h hstep he) hw' hc'

end

/-- A server with two files. -/
def twoFiles : Server where
  files f :=
    if f = [102] then some { content := [1, 2, 3], mode := 0, time := .epoch }
    else if f = [103] then some { content := [7], mode := 0, time := .epoch }
    else none
  had _ t := t = FileTime.epoch.stamp
  own {f s} h := by
    split at h
    · cases h
      rfl
    · split at h
      · cases h
        rfl
      · cases h

/-- Room for `room` blocks of two bytes. -/
def roomFor (room : Nat) : Bool → Config := fun _ =>
  { blockSize := 2, maxCacheEntry := room, evictCount := 1, flushInterval := 3, order := .inserted }

/-- A client that has written a byte of the first file. -/
def wrote (room : Nat) : NetFS := (readOnlyRun (.write [102] 0 [9]) (roomFor room true) .new twoFiles).1

/-- It reads the second file. -/
theorem wrote_calls (room : Nat) {o : Outcome Bytes}
    (hw : (readOnlyRun (.write [102] 0 [9]) (roomFor room true) .new twoFiles).2.1 = .ok ())
    (hr : (readOnlyRun (.read [103] 0 1) (roomFor room true) (wrote room) twoFiles).2.1 = o)
    (hask : ∀ r ∈ readOnlyAsks (.read [103] 0 1) (roomFor room true) (wrote room) twoFiles,
      r.error (twoFiles.readOnly r) ≠ 0 → r.Names [102]) :
    ∃ S, Calls (roomFor room) true [102] (.read [103] 0 1) (wrote room) (some o) S := by
  have h₀ : Reach (roomFor room) ⟨twoFiles, fun _ => .idle .new⟩ := .start fun _ => rfl
  obtain ⟨-, S₁, -, -, h₁, -, hw₁, hc₁⟩ := readOnly_steps (.write [102] 0 [9])
    (Reach (roomFor room)) hw rfl rfl h₀ fun h hs _ _ => .step h hs
  obtain ⟨S₂, hs₂, hw₂, hc₂⟩ := Threads.exists_call Server.Serve (fun i (op : Op) => op.run (roomFor room i))
    (.read [103] 0 1) (show S₁.threads true = .idle (wrote room) from hc₁)
  exact Calls.replies (exec_readOnly_asks _ _ _ _ hask hr) (.call h₁ hc₁ hs₂) (hw₂.trans hw₁) hc₂

section
variable {ι : Type} [DecidableEq ι] {cfg : ι → Config} {A : ι} {f g : Str} {op : Op} {s : NetFS} {S : System ι}

/-- **Error isolation.** In any state of any run, a read or a write of `g`
during which the server answers with errors only requests that name another
file `f` returns 0, unless a dirty block of `f` was cached at the call and
the cache holds more than `max_cache_entry` blocks: then, whatever order the
files are flushed in, an error of `f` may be returned. -/
theorem errors_isolated {o : Outcome op.Ret} (hB : 0 < (cfg A).blockSize) (hg : g ≠ f) (hop : op.Transfers g)
    (h : Calls cfg A f op s (some o) S) :
    (∃ a, o = .ok a) ∨
      (DirtyIn f s.files ∧ (cfg A).maxCacheEntry < (S.threads A).state.cache.countCachedBlocks) := by
  have hQ := h.within hB hg hop
  cases o with
  | ok a => exact .inl ⟨a, rfl⟩
  | err e => exact .inr hQ
  | fault => exact hQ.elim

end

/-- With room for four blocks the read returns 0. -/
theorem errors_isolated_room : ∃ S,
    Calls (roomFor 4) true [102] (.read [103] 0 1) (wrote 4) (some (.ok [7])) S ∧
      ((∃ a, (Outcome.ok [7] : Outcome Bytes) = .ok a) ∨
        (DirtyIn [102] (wrote 4).files ∧ 4 < (S.threads true).state.cache.countCachedBlocks)) := by
  obtain ⟨S, h⟩ := wrote_calls 4 (o := .ok [7]) (by decide +kernel) (by decide +kernel) (by decide +kernel)
  have hop : (Op.read [103] 0 1).Transfers [103] := rfl
  exact ⟨S, h, errors_isolated (by decide) (by decide) hop h⟩

/-- With room for one block, the read of the second file writes the first one
back, and returns the error of that. -/
theorem flush_error_crosses : ([103] : Str) ≠ [102] ∧ ∃ S,
    Calls (roomFor 1) true [102] (.read [103] 0 1) (wrote 1) (some (.err 30)) S :=
  ⟨by decide, wrote_calls 1 (by decide +kernel) (by decide +kernel) (by decide +kernel)⟩

end Nfs
