/-
The two ways of writing back.

`flushDirtyBlocks` finds the dirty blocks of a file along the recency list,
`flush` in the file's map; sorted, they are the same list (`sort_eq`). With a
server that does not fail and that nobody else changes, writing a file back
does to the file and to its content on the server what depends on these two
only (`FileFlushed`). So files can be written back in any order, and the two
ways end in the same cache and the same contents, but for the time stamps.
-/
import Nfs.Eviction
import Nfs.Isolation
import Nfs.Lib.Layers
import Nfs.StatSize

namespace Nfs

open PlainFile Resume Intervals Extents

/-! ## One file -/

/-- The mark of a file after a change that found the server's file at `t`. -/
def FileCache.staleAfter (fc : FileCache) (t : FileTime) : Bool := if t.ne fc.attr.time then true else fc.stale

/-- The content after the pieces have been stored. -/
def storeAll (c : Bytes) (ps : List (Piece UInt8)) : Bytes := ps.foldl (fun c p => pwrite c p.start p.data) c

namespace Cache

variable {B : Nat} {c c' c'' : Cache} {f g : Str} {fc fc' : FileCache} {b : Nat} {w w' w'' : Server}

theorem sort_eq {bs bs' : List Nat} (hn : bs.Nodup) (hn' : bs'.Nodup) (h : ∀ b, b ∈ bs ↔ b ∈ bs') :
    sort bs = sort bs' := by
  have hp : bs.Perm bs' := (List.perm_ext_iff_of_nodup hn hn').mpr h
  exact List.Perm.eq_of_pairwise (fun a b _ _ => Nat.le_antisymm) (List.pairwise_insertionSort _ _)
    (List.pairwise_insertionSort _ _)
    ((List.perm_insertionSort _ _).trans (hp.trans (List.perm_insertionSort _ _).symm))

theorem sort_lt {bs : List Nat} (hn : bs.Nodup) : (sort bs).Pairwise (· < ·) := by
  have hle := List.pairwise_insertionSort (· ≤ ·) bs
  have hne : (sort bs).Pairwise (· ≠ ·) := (List.perm_insertionSort (· ≤ ·) bs).nodup_iff.mpr hn
  exact (hle.and hne).imp fun h => Nat.lt_of_le_of_ne h.1 h.2

theorem staleAfter_self {t : FileTime} {s : Bool} : (fc.restamp t s).staleAfter t = s := by
  have : ¬ t.ne t = true := by
    rw [FileTime.ne_iff]
    simp
  simp [FileCache.staleAfter, FileCache.restamp, this]

/-- A content write-back. -/
theorem contentWb_serves {off : Nat} {data : Bytes} (hf : c.file f = some fc) :
    (contentWb f off data c).wp soloOk.back (Returns fun _ c' w' => ∃ s s', w.Change f (pwrite · off data) s s' w' ∧
      Replaced f (fc.restamp s'.time (fc.staleAfter s.time)) c c') w := by
  refine contentWb_wp hf trivial fun {w₁ w₂ a} hr hs => ?_
  cases hr
  obtain ⟨resp, ⟨hserve, he⟩, rfl⟩ := hs
  obtain ⟨s, s', hch, hb, ha⟩ := hserve.1 he
  have hans : Call.ans (.contentWb f off data fc.attr.time fc.stale) resp =
      { err := 0, time := s'.time, stale := fc.staleAfter s.time } := by
    rw [← hb, ← ha]
    exact doWrite_ok he
  rw [hans]
  exact ⟨fun _ => ⟨s, s', hch, (Replaced.refl hf).setFile _⟩, fun hne => absurd rfl hne⟩

/-- All content write-backs: the mark they lead to is the one a single change
would. -/
theorem sendAll_serves : ∀ (ps : List (Piece UInt8)) {c : Cache} {fc : FileCache} {w : Server}, c.file f = some fc →
    (sendAll f ps c).wp soloOk.back (Returns fun _ c' w' => (∀ g, g ≠ f → w'.files g = w.files g) ∧
      ∃ t st, Replaced f (fc.restamp t st) c c' ∧ ∀ s', w'.files f = some s' → ∃ s, w.files f = some s ∧
        s'.content = storeAll s.content ps ∧ (fc.restamp t st).staleAfter s'.time = fc.staleAfter s.time) w
  | [], c, fc, w, hf => ⟨fun _ _ => rfl, fc.attr.time, fc.stale, .refl hf, fun s' hs' => ⟨s', hs', rfl, rfl⟩⟩
  | p :: ps, c, fc, w, hf => by
    refine wp_returns (contentWb_serves hf) fun c₁ w₁ _ h₁ => ?_
    obtain ⟨s, s₁, hch, hrep⟩ := h₁
    refine (sendAll_serves ps hrep.file).returns fun _ c' w' h' => ?_
    obtain ⟨hother, t, st, hrep', hfile⟩ := h'
    refine ⟨fun g hg => (hother g hg).trans (hch.other hg), t, st, hrep.trans hrep', fun s' hs' => ?_⟩
    obtain ⟨s₁', hs₁', hcont, hstale⟩ := hfile s' hs'
    obtain rfl : s₁ = s₁' := Option.some.inj (hch.2.1.2.1.symm.trans hs₁')
    refine ⟨s, hch.1, ?_, hstale.trans staleAfter_self⟩
    rw [hcont, hch.2.2]
    rfl

theorem attrWb_serves (hf : c.file f = some fc) :
    (attrWb f c).wp soloOk.back (Returns fun _ c' w' => ∃ s s', w.Change f (ftruncate · fc.attr.size) s s' w' ∧
      Replaced f { fc with attr := { fc.attr with time := s'.time }, stale := fc.staleAfter s.time } c c') w := by
  refine attrWb_wp hf trivial fun {w₁ w₂ a} hr hs => ?_
  cases hr
  obtain ⟨resp, ⟨hserve, he⟩, rfl⟩ := hs
  obtain ⟨s, s', hch, hb, ha⟩ := hserve.1 he
  have hans : Call.ans (.attrWb f fc.attr fc.stale) resp =
      { err := 0, attr := { fc.attr with time := s'.time }, stale := fc.staleAfter s.time } := by
    rw [← hb, ← ha]
    exact doWriteAttr_ok he
  rw [hans]
  exact ⟨fun _ => ⟨s, s', hch, (Replaced.refl hf).setFile _⟩, fun hne => absurd rfl hne⟩

/-- What writing back file `f` does to it and to its content on the server. -/
def FileFlushed (B : Nat) (f : Str) (c : Cache) (w : Server) (c' : Cache) (w' : Server) : Prop :=
  ∃ fc fc' s s', c.file f = some fc ∧ c'.file f = some fc' ∧ w.files f = some s ∧ w'.files f = some s' ∧
    fc'.attr = { fc.attr with time := fc'.attr.time } ∧ fc'.stale = fc.staleAfter s.time ∧
    (∀ b, fc'.entries.lookup b = (fc.entries.lookup b).map CacheEntry.cleaned) ∧
    s'.content = ftruncate (storeAll s.content (extents B fc fc.dirtyBlocks)) fc.attr.size

/-- What writing back the files of `fs` does: those with dirty blocks are
written back, and nothing else changes. -/
structure FlushedAll (B : Nat) (fs : List Str) (c : Cache) (w : Server) (c' : Cache) (w' : Server) : Prop where
  wf : c'.Wf B
  recents : c'.recentList = c.recentList
  addr : c'.nextAddr = c.nextAddr
  hit : c'.lastReadHit = c.lastReadHit
  flushed : ∀ g ∈ fs, (∃ b, c.IsDirty g b) → FileFlushed B g c w c' w'
  same : ∀ g, g ∉ fs ∨ (∀ b, ¬ c.IsDirty g b) → c'.file g = c.file g ∧ w'.files g = w.files g

theorem dblocks_nodup (fc : FileCache) : ((fc.entries.entries.filter fun p => p.2.state = .dirty).map (·.1)).Nodup :=
  fc.entries.nodupKeys.sublist List.filter_sublist

/-- `flushBlocks` on the dirty blocks of a file. -/
theorem flushBlocks_serves (h : c.Wf B) (hf : c.file f = some fc) (hd : ∃ b, c.IsDirty f b) :
    (flushBlocks B f fc.dirtyBlocks c).wp soloOk.back (Returns fun _ c' w' => FlushedAll B [f] c w c' w') w := by
  have hall : ∀ b ∈ fc.dirtyBlocks, (fc.entries.lookup b).isSome := fun b hb =>
    ((mem_dirtyBlocks hf).mp hb).cached hf
  rw [flushBlocks_eq h hf hall]
  refine wp_returns (sendAll_serves _ hf) fun c₁ w₁ _ h₁ => ?_
  obtain ⟨hother, t, st, hrep, hfile⟩ := h₁
  obtain ⟨c₂, fc₂, h₂, hc₂, hr₂, hl₂⟩ := cleanBlocks_spec fc.dirtyBlocks (hrep.wf h hf rfl) hrep.file hall
  obtain ⟨ha₂, hh₂⟩ := cleanBlocks_rest _ h₂
  refine wp_bind.mpr ((local_wp h₂).mpr ((attrWb_serves hc₂.file).returns fun _ c' w' h' => ?_))
  obtain ⟨s₁, s', hch, hrep'⟩ := h'
  obtain ⟨s, hs, hcont, hstale⟩ := hfile s₁ hch.1
  have hall' := (hrep.trans ⟨hc₂.file, hc₂.frame, hr₂, ha₂, hh₂⟩).trans hrep'
  have hattr : fc₂.attr = { fc.attr with time := t } := hc₂.attr
  have hstale₂ : fc₂.staleAfter s₁.time = fc.staleAfter s.time := by
    rw [← hstale, FileCache.staleAfter, FileCache.staleAfter, hc₂.attr, hc₂.stale]
  refine ⟨hrep'.wf hc₂.wf hc₂.file rfl, hall'.recents, hall'.addr, hall'.hit, fun g hg _ => ?_, fun g hg => ?_⟩
  · rw [List.mem_singleton] at hg
    subst hg
    refine ⟨fc, _, s, s', hf, hrep'.file, hs, hch.2.1.2.1, by rw [hattr], hstale₂, fun b => ?_, ?_⟩
    · refine (hl₂ b).trans ?_
      split
      · rfl
      · rename_i hb
        rw [mem_dirtyBlocks hf, not_dirty_iff, entry_of_file hf] at hb
        exact hb.symm
    · rw [hch.2.2, hcont, hattr]
  · have hgf : g ≠ f := by
      rcases hg with hg | hg
      · simpa using hg
      · rintro rfl
        obtain ⟨b, hb⟩ := hd
        exact hg b hb
    exact ⟨hall'.frame g hgf, (hch.other hgf).trans (hother g hgf)⟩

/-! ## Several files -/

theorem FlushedAll.nil (h : c.Wf B) : FlushedAll B [] c w c w :=
  ⟨h, rfl, rfl, rfl, fun _ hg => absurd hg (by simp), fun _ _ => ⟨rfl, rfl⟩⟩

/-- Files keep out of each other's way, so they may be written back one after
the other, in any order and more than once. -/
theorem FlushedAll.cons {fs : List Str} (h : FlushedAll B [f] c w c' w') (h' : FlushedAll B fs c' w' c'' w'') :
    FlushedAll B (f :: fs) c w c'' w'' := by
  -- A file that the first part has left alone is what it was for the second.
  have hdirty : ∀ g, c'.file g = c.file g → ∀ b, c'.IsDirty g b ↔ c.IsDirty g b := by
    intro g hg b
    unfold IsDirty Cache.entry
    rw [hg]
  have hclean : (∃ b, c.IsDirty f b) → ∀ b, ¬ c'.IsDirty f b := by
    intro hd b hb
    obtain ⟨fc, fc', -, -, -, hf', -, -, -, -, hl, -⟩ := h.flushed f (by simp) hd
    obtain ⟨e, he, hs⟩ := hb
    rw [entry_of_file hf', hl] at he
    obtain ⟨e', -, rfl⟩ := Option.map_eq_some_iff.mp he
    cases hs
  refine ⟨h'.wf, h'.recents.trans h.recents, h'.addr.trans h.addr, h'.hit.trans h.hit, fun g hg hd => ?_,
    fun g hg => ?_⟩
  · by_cases hgf : g = f
    · subst hgf
      obtain ⟨fc, fc', s, s', hf, hf', hs, hs', hrest⟩ := h.flushed g (by simp) hd
      obtain ⟨hc, hw⟩ := h'.same g (.inr (hclean hd))
      exact ⟨fc, fc', s, s', hf, hc.trans hf', hs, hw.trans hs', hrest⟩
    · obtain ⟨hc, hw⟩ := h.same g (.inl (by simpa using hgf))
      have hgs : g ∈ fs := (List.mem_cons.mp hg).resolve_left hgf
      obtain ⟨fc, fc', s, s', hf, hf', hs, hs', hrest⟩ := h'.flushed g hgs (by simpa only [hdirty g hc] using hd)
      exact ⟨fc, fc', s, s', hc ▸ hf, hf', hw ▸ hs, hs', hrest⟩
  · have hg₁ : g ∉ [f] ∨ ∀ b, ¬ c.IsDirty g b := by
      refine hg.imp_left fun hnot => ?_
      rw [List.mem_singleton]
      exact fun hgf => hnot (by simp [hgf])
    obtain ⟨hc, hw⟩ := h.same g hg₁
    obtain ⟨hc', hw'⟩ := h'.same g (hg.imp (fun hnot hgs => hnot (by simp [hgs])) fun hno b => by
      rw [hdirty g hc]
      exact hno b)
    exact ⟨hc'.trans hc, hw'.trans hw⟩

/-- `flush`. -/
theorem flush_serves (h : c.Wf B) (f : Str) :
    (flush B f c).wp soloOk.back (Returns fun _ c' w' => FlushedAll B [f] c w c' w') w := by
  refine flush_wp (fun hno => ⟨h, rfl, rfl, rfl, fun g hg hd => ?_, fun _ _ => ⟨rfl, rfl⟩⟩) fun fc hf hd => ?_
  · rw [List.mem_singleton] at hg
    subst hg
    obtain ⟨b, hb⟩ := hd
    exact absurd hb (hno b)
  · refine wp_swallow.mpr ((flushBlocks_serves h hf hd).mono fun c' w' o hQ => ?_)
    cases o with
    | ok _ => exact hQ
    | err e => exact hQ.elim
    | fault => exact hQ.elim

/-- `flush` on one file after the other. -/
def flushEach (B : Nat) : List Str → CacheM Unit
  | [] => pure ()
  | f :: fs => do
    flush B f
    flushEach B fs

theorem flushEach_serves : ∀ (fs : List Str) {c : Cache} {w : Server}, c.Wf B →
    (flushEach B fs c).wp soloOk.back (Returns fun _ c' w' => FlushedAll B fs c w c' w') w
  | [], c, w, h => .nil h
  | f :: fs, c, w, h => by
    refine wp_returns (flush_serves h f) fun c₁ w₁ _ h₁ => ?_
    exact (flushEach_serves fs h₁.wf).returns fun _ c' w' h' => h₁.cons h'

/-- The list that `flushDirtyBlocks` has for a file is the one `flush`
makes. -/
theorem sort_eq_dirtyBlocks {bs : List Nat} (hf : c.file f = some fc) (hn : bs.Nodup)
    (hbs : ∀ b, b ∈ bs ↔ c.IsDirty f b) : sort bs = fc.dirtyBlocks := by
  refine sort_eq hn (dblocks_nodup fc) fun b => ?_
  rw [hbs, ← mem_dirtyBlocks hf, FileCache.dirtyBlocks, mem_sort]

theorem flushFiles_serves : ∀ (fblocks : List (Str × List Nat)) {c : Cache} {w : Server}, c.Wf B →
    (fblocks.map (·.1)).Nodup →
    (∀ f bs, (f, bs) ∈ fblocks → bs ≠ [] ∧ bs.Nodup ∧ ∀ b, b ∈ bs ↔ c.IsDirty f b) →
    (flushFiles B fblocks c).wp soloOk.back (Returns fun _ c' w' => FlushedAll B (fblocks.map (·.1)) c w c' w') w
  | [], c, w, h, _, _ => .nil h
  | (f, bs) :: fblocks, c, w, h, hn, hall => by
    obtain ⟨hnf, hn'⟩ := List.nodup_cons.mp hn
    obtain ⟨hne, hnd, hbs⟩ := hall f bs (by simp)
    obtain ⟨b, hb⟩ := List.exists_mem_of_ne_nil bs hne
    have hd := (hbs b).mp hb
    obtain ⟨e, he, -⟩ := id hd
    obtain ⟨fc, hf, -⟩ := exists_file_of_entry he
    have hone := flushBlocks_serves (w := w) h hf ⟨b, hd⟩
    rw [← sort_eq_dirtyBlocks hf hnd hbs] at hone
    refine wp_returns hone fun c₁ w₁ _ h₁ => ?_
    have hfr : Frame f c c₁ := fun g hg => (h₁.same g (.inl (by simpa using hg))).1
    have hall' : ∀ g bs', (g, bs') ∈ fblocks → bs' ≠ [] ∧ bs'.Nodup ∧ ∀ b, b ∈ bs' ↔ c₁.IsDirty g b := by
      intro g bs' hm
      obtain ⟨hne', hnd', hbs'⟩ := hall g bs' (by simp [hm])
      exact ⟨hne', hnd', hfr.dirtyLists hnf hm hbs'⟩
    exact (flushFiles_serves fblocks h₁.wf hn' hall').returns fun _ c' w' h' => h₁.cons h'

/-! ## Agreement -/

/-- The same cache, but for the time stamps of the files. -/
structure SameButTimes (c c' : Cache) : Prop where
  recents : c'.recentList = c.recentList
  addr : c'.nextAddr = c.nextAddr
  hit : c'.lastReadHit = c.lastReadHit
  file : ∀ g, (c.file g = none ∧ c'.file g = none) ∨ ∃ fc fc', c.file g = some fc ∧ c'.file g = some fc' ∧
    fc'.attr = { fc.attr with time := fc'.attr.time } ∧ fc'.stale = fc.stale ∧
    ∀ b, fc'.entries.lookup b = fc.entries.lookup b

/-- What is written back does not depend on the way. -/
theorem FlushedAll.agree {c₁ c₂ : Cache} {w₁ w₂ : Server} {fs₁ fs₂ : List Str} (h₁ : FlushedAll B fs₁ c w c₁ w₁)
    (h₂ : FlushedAll B fs₂ c w c₂ w₂) (hfs₁ : ∀ f b, c.IsDirty f b → f ∈ fs₁) (hfs₂ : ∀ f b, c.IsDirty f b → f ∈ fs₂) :
    SameButTimes c₁ c₂ ∧ w₂.content = w₁.content := by
  have hboth : ∀ g, (c₁.file g = none ∧ c₂.file g = none ∨ ∃ fc₁ fc₂, c₁.file g = some fc₁ ∧ c₂.file g = some fc₂ ∧
      fc₂.attr = { fc₁.attr with time := fc₂.attr.time } ∧ fc₂.stale = fc₁.stale ∧
      ∀ b, fc₂.entries.lookup b = fc₁.entries.lookup b) ∧ w₂.content g = w₁.content g := by
    intro g
    by_cases hd : ∃ b, c.IsDirty g b
    · obtain ⟨b, hb⟩ := id hd
      obtain ⟨fc, fc₁, s, s₁, hf, hf₁, hs, hs₁, hattr₁, hstale₁, hl₁, hcont₁⟩ := h₁.flushed g (hfs₁ g b hb) hd
      obtain ⟨fc', fc₂, s', s₂, hf', hf₂, hs', hs₂, hattr₂, hstale₂, hl₂, hcont₂⟩ := h₂.flushed g (hfs₂ g b hb) hd
      cases hf.symm.trans hf'
      cases hs.symm.trans hs'
      refine ⟨.inr ⟨fc₁, fc₂, hf₁, hf₂, ?_, hstale₂.trans hstale₁.symm, fun b => (hl₂ b).trans (hl₁ b).symm⟩, ?_⟩
      · rw [hattr₂, hattr₁]
      · rw [Server.content, Server.content, hs₁, hs₂, Option.map_some, Option.map_some, hcont₁, hcont₂]
    · obtain ⟨hc₁, hw₁⟩ := h₁.same g (.inr fun b hb => hd ⟨b, hb⟩)
      obtain ⟨hc₂, hw₂⟩ := h₂.same g (.inr fun b hb => hd ⟨b, hb⟩)
      rw [hc₁, hc₂, Server.content, Server.content, hw₁, hw₂]
      refine ⟨?_, rfl⟩
      cases c.file g with
      | none => exact .inl ⟨rfl, rfl⟩
      | some fc => exact .inr ⟨fc, fc, rfl, rfl, rfl, rfl, fun _ => rfl⟩
  exact ⟨⟨h₂.recents.trans h₁.recents.symm, h₂.addr.trans h₁.addr.symm, h₂.hit.trans h₁.hit.symm,
    fun g => (hboth g).1⟩, funext fun g => (hboth g).2⟩

/-- `flushDirtyBlocks`, in whatever order it visits the files. -/
theorem flushDirtyBlocks_serves (order : HashOrder) (h : c.Wf B) :
    (flushDirtyBlocks B order c).wp soloOk.back (Returns fun _ c' w' => ∃ fs, FlushedAll B fs c w c' w' ∧
      ∀ f b, c.IsDirty f b → f ∈ fs) w := by
  obtain ⟨fb, hfb, hn, hall, hcomplete⟩ := collectDirty_spec h
  have hperm := order.perm fb
  refine wp_bind.mpr (wp_get.mpr (wp_bind.mpr ((wp_check hfb).mpr ?_)))
  have hwp := flushFiles_serves (w := w) (order.visit fb) h ((hperm.map _).nodup_iff.mpr hn) fun f bs hm =>
    hall f bs (hperm.mem_iff.mp hm)
  refine hwp.returns fun _ c' w' h' => ⟨_, h', fun f b hd => ?_⟩
  obtain ⟨bs, hbs⟩ := hcomplete f b hd
  exact List.mem_map.mpr ⟨_, hperm.mem_iff.mpr hbs, rfl⟩

end Cache

section
variable {B : Nat} {order : HashOrder} {S : LoneCache} {c : Cache}

/-- **The two ways of writing back agree.** `flushDirtyBlocks` has for each
file with dirty blocks the list that `flush` makes of them; on a server that
does not fail and that nobody else changes it ends as `flush` on these files
does, in any order. -/
theorem flush_paths_agree (hB : 0 < B) (h : CacheReach B order S) (hc : S.cache = c) :
    (∃ fblocks, Cache.collectDirty c c.recentList.reverse [] = some fblocks ∧ (fblocks.map (·.1)).Nodup ∧
      (∀ f b, c.IsDirty f b → f ∈ fblocks.map (·.1)) ∧
      ∀ f bs, (f, bs) ∈ fblocks → ∃ fc, c.file f = some fc ∧ Cache.sort bs = fc.dirtyBlocks ∧
        (Cache.sort bs).Pairwise (· < ·) ∧ ∀ b, b ∈ Cache.sort bs ↔ c.IsDirty f b) ∧
    ∀ fs : List Str, (∀ f b, c.IsDirty f b → f ∈ fs) → ∀ w c₁ o₁ w₁ c₂ o₂ w₂,
      Exec soloOk.back.serve (Cache.flushDirtyBlocks B order c) w c₁ o₁ w₁ →
      Exec soloOk.back.serve (Cache.flushEach B fs c) w c₂ o₂ w₂ →
      o₁ = .ok () ∧ o₂ = .ok () ∧ Cache.SameButTimes c₁ c₂ ∧ w₂.content = w₁.content := by
  have hw : c.Wf B := hc ▸ h.wf hB
  constructor
  · obtain ⟨fb, hfb, hn, hall, hcomplete⟩ := Cache.collectDirty_spec hw
    refine ⟨fb, hfb, hn, fun f b hd => ?_, fun f bs hm => ?_⟩
    · obtain ⟨bs, hbs⟩ := hcomplete f b hd
      exact List.mem_map.mpr ⟨_, hbs, rfl⟩
    · obtain ⟨hne, hnd, hbs⟩ := hall f bs hm
      obtain ⟨b, hb⟩ := List.exists_mem_of_ne_nil bs hne
      obtain ⟨e, he, -⟩ := (hbs b).mp hb
      obtain ⟨fc, hf, -⟩ := Cache.exists_file_of_entry he
      exact ⟨fc, hf, Cache.sort_eq_dirtyBlocks hf hnd hbs, Cache.sort_lt hnd, fun b => Cache.mem_sort.trans (hbs b)⟩
  · intro fs hfs w c₁ o₁ w₁ c₂ o₂ w₂ hx₁ hx₂
    have h₁ := (Cache.flushDirtyBlocks_serves (w := w) order hw).exec_in (fun _ => rfl) id hx₁
    have h₂ := (Cache.flushEach_serves (w := w) fs hw).exec_in (fun _ => rfl) id hx₂
    cases o₁ with
    | ok _ =>
      cases o₂ with
      | ok _ =>
        obtain ⟨fs₁, h₁, hfs₁⟩ := h₁
        exact ⟨rfl, rfl, h₁.agree h₂ hfs₁ hfs⟩
      | err e => exact h₂.elim
      | fault => exact h₂.elim
    | err e => exact h₁.elim
    | fault => exact h₁.elim

end

/-- How the callbacks answer over a server that carries every change out, as
long as no request fails. -/
def Call.answerOk (w : Server) (r : Call) : Option (r.Ans × Server) :=
  if r.req.error (w.answer r.req).1 = 0 then some (r.ans (w.answer r.req).1, (w.answer r.req).2) else none

theorem exec_answerOk {α : Type} {p : Act Cache Call.Ans α} {w w' : Server} {c' : Cache} {o : Outcome α}
    (h : p.runWith Call.answerOk w = some (c', o, w')) (hw : w.Ticking) :
    Exec soloOk.back.serve p w c' o w' := by
  refine exec_runWith (I := Server.Ticking) (fun {w r x} hw hx => ?_) hw h
  rw [Call.answerOk] at hx
  split at hx
  · rename_i he
    cases hx
    obtain ⟨hs, ht⟩ := Server.serve_answer hw r.req
    exact ⟨⟨_, ⟨hs, he⟩, rfl⟩, ht⟩
  · cases hx

theorem twoFiles_ticking : twoFiles.Ticking := .of_unchanged fun _ _ _ h h' => Eq.trans h (Eq.symm h')

/-- The replies of `twoFiles` when it is asked for attributes. -/
def Call.replyTwo : (r : Call) → r.Ans
  | .attrFt f => { err := 0, attr := { size := if f = [102] then 3 else 1, mode := 0, time := .epoch } }
  | r => r.reply 0

/-- A cache after a byte of each file has been written. -/
def writtenTwo : Cache :=
  let c := (((CacheOp.write [102] 2 [9]).run 2 .inserted .empty).interp (fun _ r => (r.replyTwo, ())) ()).1
  (((CacheOp.write [103] 0 [8]).run 2 .inserted c).interp (fun _ r => (r.replyTwo, ())) ()).1

theorem exists_writtenTwo : ∃ S : LoneCache, CacheReach 2 .inserted S ∧ S.threads () = .idle writtenTwo := by
  have h₀ : CacheReach 2 .inserted ⟨(), fun _ => .idle .empty⟩ := .start rfl
  obtain ⟨S, h, hS⟩ := h₀.call rfl (.ofOp (.write [102] 2 [9])) Call.replyTwo (by decide +kernel)
  exact h.call hS (.ofOp (.write [103] 0 [8])) Call.replyTwo (by decide +kernel)

theorem mem_of_dirty_writtenTwo {f : Str} {b : Nat} (h : writtenTwo.IsDirty f b) : f ∈ [[103], [102]] := by
  obtain ⟨e, he, -⟩ := h
  obtain ⟨fc, hf, -⟩ := Cache.exists_file_of_entry he
  have hkeys : writtenTwo.fileMap.keys = [[103], [102]] := by decide +kernel
  rw [← hkeys, ← AList.mem_keys, ← AList.lookup_isSome]
  exact Option.isSome_iff_exists.mpr ⟨fc, hf⟩

/-- The two files in the one order and in the other: both ways the server
comes to hold both bytes. -/
theorem flush_paths_agree_changed : ∃ S c₁ w₁ c₂ w₂, CacheReach 2 .inserted S ∧ S.threads () = .idle writtenTwo ∧
    writtenTwo.countDirtyBlocks = 2 ∧
    Exec soloOk.back.serve (Cache.flushDirtyBlocks 2 .inserted writtenTwo) twoFiles c₁ (.ok ()) w₁ ∧
    Exec soloOk.back.serve (Cache.flushEach 2 [[103], [102]] writtenTwo) twoFiles c₂ (.ok ()) w₂ ∧
    w₁.content [102] = some [1, 2, 9] ∧ w₁.content [103] = some [8] ∧
    Cache.SameButTimes c₁ c₂ ∧ w₂.content = w₁.content := by
  obtain ⟨S, h, hS⟩ := exists_writtenTwo
  have hc : S.cache = writtenTwo := by rw [LoneCache.cache, hS]; rfl
  have h₁ : ((Cache.flushDirtyBlocks 2 .inserted writtenTwo).runWith Call.answerOk twoFiles).any (fun x =>
      decide (x.2.1 = .ok () ∧ x.2.2.content [102] = some [1, 2, 9] ∧ x.2.2.content [103] = some [8])) = true := by
    decide +kernel
  have h₂ : ((Cache.flushEach 2 [[103], [102]] writtenTwo).runWith Call.answerOk twoFiles).any (fun x =>
      decide (x.2.1 = .ok ())) = true := by
    decide +kernel
  obtain ⟨⟨c₁, o₁, w₁⟩, he₁, hf₁⟩ := (Option.any_eq_true _ _).mp h₁
  obtain ⟨⟨c₂, o₂, w₂⟩, he₂, hf₂⟩ := (Option.any_eq_true _ _).mp h₂
  obtain ⟨rfl, hcont₁, hcont₂⟩ := of_decide_eq_true hf₁
  obtain rfl := of_decide_eq_true hf₂
  have hx₁ := exec_answerOk he₁ twoFiles_ticking
  have hx₂ := exec_answerOk he₂ twoFiles_ticking
  exact ⟨S, c₁, w₁, c₂, w₂, h, hS, by decide +kernel, hx₁, hx₂, hcont₁, hcont₂,
    ((flush_paths_agree (by decide) h hc).2 _ (fun _ _ => mem_of_dirty_writtenTwo) _ _ _ _ _ _ _ hx₁ hx₂).2.2⟩

end Nfs
