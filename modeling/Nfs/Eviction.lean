/-
What `evictBlocks` leaves behind, whatever the callbacks reply.

Writing back keeps every entry but for its state (`KeptBlocks`), whether it
ends well or is given up at some reply. If it ends well no block is dirty,
and then the loop of `evictBlocks` takes the nodes at the cold end and their
entries, and nothing else (`dropTail_recents`).
-/
import Nfs.Sending

namespace Nfs

open PlainFile Resume Intervals

theorem CacheEntry.cleaned_of_clean {e : CacheEntry} (h : e.state = .clean) : e.cleaned = e := by
  cases e
  cases h
  rfl

/-- The dirty blocks of a file as `flush` lists them. -/
def FileCache.dirtyBlocks (fc : FileCache) : List Nat :=
  Cache.sort ((fc.entries.entries.filter fun p => p.2.state = .dirty).map (·.1))

namespace Cache

variable {B : Nat} {c c' c'' : Cache} {f : Str} {fc fc' : FileCache} {b : Nat} {w : Replies}

/-! ## The dirty blocks of a file -/

theorem IsDirty.cached (hd : c.IsDirty f b) (hf : c.file f = some fc) : (fc.entries.lookup b).isSome := by
  obtain ⟨e, he, -⟩ := hd
  rw [← entry_of_file hf, he]
  rfl

theorem mem_dirtyBlocks (hf : c.file f = some fc) : b ∈ fc.dirtyBlocks ↔ c.IsDirty f b := by
  rw [FileCache.dirtyBlocks, mem_sort, mem_dblocks, IsDirty, entry_of_file hf]

/-- `flush` writes the dirty blocks back, if there are any. -/
theorem flush_wp {W : Type} {E : Env Cache W Call.Ans} {Q : Cache → W → Outcome Unit → Prop} {w : W}
    (hclean : (∀ b, ¬ c.IsDirty f b) → Q c w (.ok ()))
    (hdirty : ∀ fc, c.file f = some fc → (∃ b, c.IsDirty f b) →
      ((flushBlocks B f fc.dirtyBlocks).swallow c).wp E Q w) : (flush B f c).wp E Q w := by
  refine wp_bind.mpr (wp_get.mpr ?_)
  show Act.wp _ _ _ w
  cases hf : c.file f with
  | none =>
    simp only [hf]
    refine hclean fun b hd => ?_
    obtain ⟨e, he, -⟩ := hd
    rw [Cache.entry, hf] at he
    cases he
  | some fc =>
    simp only [hf]
    split
    · rename_i hlen
      obtain ⟨b, hb⟩ := List.exists_mem_of_length_pos hlen
      exact hdirty fc hf ⟨b, (mem_dirtyBlocks hf).mp (mem_sort.mpr hb)⟩
    · rename_i hlen
      refine hclean fun b hd => ?_
      rw [← mem_dirtyBlocks hf, FileCache.dirtyBlocks, mem_sort] at hd
      exact absurd (List.length_pos_of_mem hd) hlen

/-! ## Writing back -/

/-- The same files and entries, but for the states of the entries and the
attributes of the files. -/
structure KeptBlocks (c c' : Cache) : Prop where
  recents : c'.recentList = c.recentList
  files : ∀ g, (c'.file g).isSome = (c.file g).isSome
  entry : ∀ g b, (c'.entry g b).map CacheEntry.cleaned = (c.entry g b).map CacheEntry.cleaned

theorem KeptBlocks.refl (c : Cache) : KeptBlocks c c := ⟨rfl, fun _ => rfl, fun _ _ => rfl⟩

theorem KeptBlocks.trans (h : KeptBlocks c c') (h' : KeptBlocks c' c'') : KeptBlocks c c'' :=
  ⟨h'.recents.trans h.recents, fun g => (h'.files g).trans (h.files g),
    fun g b => (h'.entry g b).trans (h.entry g b)⟩

/-- A file whose entries are the same but for their states. -/
theorem Replaced.kept (hr : Replaced f fc' c c') (hf : c.file f = some fc)
    (he : ∀ b, (fc'.entries.lookup b).map CacheEntry.cleaned = (fc.entries.lookup b).map CacheEntry.cleaned) :
    KeptBlocks c c' := by
  refine ⟨hr.recents, fun g => ?_, fun g b => ?_⟩
  · by_cases hg : g = f
    · rw [hg, hr.file, hf]
      rfl
    · rw [hr.frame g hg]
  · rw [hr.entry]
    split
    · rename_i hg
      rw [he, hg, entry_of_file hf]
    · rfl

theorem not_dirty_iff : ¬ c.IsDirty f b ↔ (c.entry f b).map CacheEntry.cleaned = c.entry f b := by
  unfold IsDirty
  cases c.entry f b with
  | none => simp
  | some e =>
    cases hs : e.state with
    | clean => simp [hs, CacheEntry.cleaned_of_clean hs]
    | dirty =>
      have : e.cleaned ≠ e := fun he => by
        rw [← he] at hs
        cases hs
      simp [hs, this]

/-- After `flushBlocks` on the dirty blocks of a file the blocks are kept; if
it returns 0 those of the file are clean. -/
theorem flushBlocks_keeps {bs : List Nat} {w' : Replies} {o : Outcome Unit} (h : c.Wf B) (hf : c.file f = some fc)
    (hbs : ∀ b, b ∈ bs ↔ c.IsDirty f b) (hend : FlushEnds B f bs fc c w c' w' o) :
    c'.Wf B ∧ KeptBlocks c c' ∧ Frame f c c' ∧ o ≠ .fault ∧
      (o = .ok () → ∀ b, c'.entry f b = (c.entry f b).map CacheEntry.cleaned) := by
  rcases hend with ⟨e, rfl, done, p, rest, rs, fc₁, a, -, hwb, -, -, -, hrep⟩ |
    ⟨rs, fc₁, fc₂, a, hwb, hclean, -, hrep, hw', ho⟩
  · obtain ⟨t, s, rfl⟩ := hwb.stamps
    exact ⟨hrep.wf h hf rfl, hrep.kept hf fun _ => rfl, hrep.frame, by simp, by simp⟩
  · obtain ⟨t, s, rfl⟩ := hwb.stamps
    have hl : ∀ b, fc₂.entries.lookup b = (fc.entries.lookup b).map CacheEntry.cleaned := by
      intro b
      refine (hclean.lookup b).trans ?_
      split
      · rfl
      · rename_i hb
        rw [hbs, not_dirty_iff, entry_of_file hf] at hb
        exact hb.symm
    refine ⟨hw', hrep.kept hf fun b => ?_, hrep.frame, ?_, fun _ b => ?_⟩
    · rw [hl, Option.map_map]
      rfl
    · rw [ho]
      split <;> simp
    · rw [hrep.entry, if_pos rfl, entry_of_file hf]
      exact hl b

/-- How writing back files ends: the blocks are kept, and if it returns 0
those of the files in `fs` are clean and the others untouched. -/
structure FlushKeeps (B : Nat) (fs : List Str) (c c' : Cache) (o : Outcome Unit) : Prop where
  wf : c'.Wf B
  kept : KeptBlocks c c'
  fault : o ≠ .fault
  clean : o = .ok () → ∀ g b, c'.entry g b = if g ∈ fs then (c.entry g b).map CacheEntry.cleaned else c.entry g b

/-- The second loop of `flushDirtyBlocks`. -/
theorem flushFiles_keeps : ∀ (fblocks : List (Str × List Nat)) {c : Cache} {w : Replies}, c.Wf B →
    (fblocks.map (·.1)).Nodup → (∀ f bs, (f, bs) ∈ fblocks → bs ≠ [] ∧ ∀ b, b ∈ bs ↔ c.IsDirty f b) →
    (flushFiles B fblocks c).wp (Env.solo Noted) (fun c' _ o => FlushKeeps B (fblocks.map (·.1)) c c' o) w
  | [], c, w, h, _, _ => ⟨h, .refl c, by simp, fun _ g b => by simp⟩
  | (f, bs) :: fblocks, c, w, h, hn, hall => by
    obtain ⟨hnf, hn'⟩ := List.nodup_cons.mp hn
    obtain ⟨hne, hbs⟩ := hall f bs (by simp)
    obtain ⟨b, hb⟩ := List.exists_mem_of_ne_nil bs hne
    obtain ⟨e, he, -⟩ := (hbs b).mp hb
    obtain ⟨fc, hf, -⟩ := exists_file_of_entry he
    have hsort : ∀ b, b ∈ sort bs ↔ c.IsDirty f b := fun b => mem_sort.trans (hbs b)
    have hcached : ∀ b ∈ sort bs, (fc.entries.lookup b).isSome := fun b hb => ((hsort b).mp hb).cached hf
    refine wp_seq (((flushBlocks_ends h hf hcached).mono fun c' w' o hend => flushBlocks_keeps h hf hsort hend)) ?_
      (fun c₁ w₁ e h₁ => ⟨h₁.1, h₁.2.1, by simp, by simp⟩) fun c₁ w₁ h₁ => absurd rfl h₁.2.2.2.1
    intro c₁ w₁ _ h₁
    obtain ⟨hw₁, hk₁, hfr₁, -, hcl₁⟩ := h₁
    have hall' : ∀ g bs', (g, bs') ∈ fblocks → bs' ≠ [] ∧ ∀ b, b ∈ bs' ↔ c₁.IsDirty g b := by
      intro g bs' hm
      obtain ⟨hne', hbs'⟩ := hall g bs' (by simp [hm])
      exact ⟨hne', hfr₁.dirtyLists hnf hm hbs'⟩
    refine (flushFiles_keeps fblocks hw₁ hn' hall').mono fun c' w' o h' => ?_
    refine ⟨h'.wf, hk₁.trans h'.kept, h'.fault, fun ho g b => ?_⟩
    rw [h'.clean ho]
    by_cases hg : g = f
    · subst hg
      rw [if_neg hnf, hcl₁ rfl, if_pos (by simp)]
    · rw [hfr₁.entry hg]
      have hin : g ∈ fblocks.map (·.1) ↔ g ∈ ((f, bs) :: fblocks).map (·.1) := by simp [hg]
      exact if_congr hin rfl rfl

/-- `flushDirtyBlocks`: no block is dirty when it returns 0. -/
theorem flushDirtyBlocks_keeps (order : HashOrder) (h : c.Wf B) :
    (flushDirtyBlocks B order c).wp (Env.solo Noted) (fun c' _ o => c'.Wf B ∧ KeptBlocks c c' ∧ o ≠ .fault ∧
      (o = .ok () → ∀ g b, c'.entry g b = (c.entry g b).map CacheEntry.cleaned)) w := by
  obtain ⟨fb, hfb, hn, hall, hcomplete⟩ := collectDirty_spec h
  have hperm := order.perm fb
  refine wp_bind.mpr (wp_get.mpr (wp_bind.mpr ((wp_check hfb).mpr ?_)))
  have hwp := flushFiles_keeps (w := w) (order.visit fb) h ((hperm.map _).nodup_iff.mpr hn) fun f bs hm => by
    obtain ⟨h₁, -, h₂⟩ := hall f bs (hperm.mem_iff.mp hm)
    exact ⟨h₁, h₂⟩
  refine hwp.mono fun c' w' o h' => ⟨h'.wf, h'.kept, h'.fault, fun ho g b => ?_⟩
  rw [h'.clean ho]
  split
  · rfl
  · rename_i hg
    refine (not_dirty_iff.mp fun hd => hg ?_).symm
    obtain ⟨bs, hbs⟩ := hcomplete g b hd
    exact List.mem_map.mpr ⟨_, hperm.mem_iff.mpr hbs, rfl⟩

/-! ## Evicting -/

/-- What `evictBlocks` has done when it returns 0. -/
structure Evicted (n : Nat) (c c' : Cache) : Prop where
  recents : c'.recentList = c.recentList.take (c.countCachedBlocks - min n c.countCachedBlocks)
  files : ∀ g, (c'.file g).isSome = (c.file g).isSome
  entry : ∀ g b, c'.entry g b = if ⟨g, b⟩ ∈ c'.ids then (c.entry g b).map CacheEntry.cleaned else none

/-- How `evictBlocks` ends. -/
def EvictEnds (B n : Nat) (c : Cache) : Cache → Outcome Unit → Prop
  | c', .ok _ => c'.Wf B ∧ Evicted n c c'
  | c', .err _ => c'.Wf B ∧ KeptBlocks c c'
  | _, .fault => False

theorem evictBlocks_ends (order : HashOrder) (h : c.Wf B) (n : Nat) :
    (evictBlocks B order n c).wp (Env.solo Noted) (fun c' _ o => EvictEnds B n c c' o) w := by
  refine wp_bind.mpr (wp_get.mpr ?_)
  refine wp_seq (flushDirtyBlocks_keeps order h) ?_ (fun c₁ w₁ e h₁ => ⟨h₁.1, h₁.2.1⟩)
    fun c₁ w₁ h₁ => absurd rfl h₁.2.2.1
  intro c₁ w₁ _ h₁
  obtain ⟨hw₁, hk₁, -, hcl₁⟩ := h₁
  obtain ⟨c₂, out, h₂, hw₂, hsplit, hlen, hwithout⟩ := dropTail_recents (min c.recentList.length n) hw₁
    (by rw [hk₁.recents]; omega)
  rw [hk₁.recents] at hsplit
  refine (local_wp h₂).mpr ⟨hw₂, ?_, fun g => ?_, fun g b => ?_⟩
  · have hcount : c.countCachedBlocks - min n c.countCachedBlocks = c₂.recentList.length := by
      simp only [countCachedBlocks, hsplit, List.length_append] at hlen ⊢
      omega
    rw [hcount, hsplit, List.take_left]
  · have := congrArg Option.isSome (hwithout.attr g)
    rw [Option.isSome_map, Option.isSome_map] at this
    rw [this, hk₁.files]
  · have hmem := hw₂.mem_ids ⟨g, b⟩
    have hent := hwithout.entry g b
    rw [hcl₁ rfl] at hent
    by_cases hin : (⟨g, b⟩ : CacheEntryID) ∈ c₂.ids
    · rw [if_pos hin]
      have hsome := hmem.mp hin
      split at hent
      · rw [hent] at hsome
        cases hsome
      · exact hent
    · rw [if_neg hin]
      exact Option.not_isSome_iff_eq_none.mp fun hsome => hin (hmem.mpr hsome)

end Cache

section
variable {B : Nat} {order : HashOrder} {S : LoneCache} {c c' : Cache} {n : Nat} {o : Outcome Unit} {w : Replies}

/-- **Exact eviction.** When `evictBlocks` returns 0 the last `min n k` of
the `k` nodes are gone with their entries, and the other entries are clean
and otherwise as they were; when it returns an error nothing is gone, and the
entries are as they were but for their states. -/
theorem evicts_exactly (hB : 0 < B) (h : CacheReach B order S) (hc : S.cache = c)
    (hx : Exec Noted (Cache.evictBlocks B order n c) [] c' o w) :
    (o = .ok () ∧ Cache.Evicted n c c' ∧ ∀ g b, ¬ c'.IsDirty g b) ∨ ((∃ e, o = .err e) ∧ Cache.KeptBlocks c c') := by
  have hend := (Cache.evictBlocks_ends (w := []) order (hc ▸ h.wf hB) n).exec hx
  cases o with
  | ok _ =>
    refine .inl ⟨rfl, hend.2, fun g b hd => ?_⟩
    obtain ⟨e, he, hs⟩ := hd
    rw [hend.2.entry] at he
    split at he
    · obtain ⟨e', -, rfl⟩ := Option.map_eq_some_iff.mp he
      cases hs
    · cases he
  | err e => exact .inr ⟨⟨e, rfl⟩, hend.2⟩
  | fault => exact hend.elim

end

/-- One of three dirty blocks goes; a failed write-back keeps them all. -/
theorem evicts_exactly_one : ∃ S c' w c'' w', CacheReach 2 .inserted S ∧ S.threads () = .idle writtenTwice ∧
    Exec Noted (Cache.evictBlocks 2 .inserted 1 writtenTwice) [] c' (.ok ()) w ∧ Cache.Evicted 1 writtenTwice c' ∧
    c'.countCachedBlocks = 2 ∧
    Exec Noted (Cache.evictBlocks 2 .inserted 1 writtenTwice) [] c'' (.err 5) w' ∧
    Cache.KeptBlocks writtenTwice c'' := by
  obtain ⟨S, h, hS⟩ := exists_writtenTwice
  have hx : Exec Noted (Cache.evictBlocks 2 .inserted 1 writtenTwice) [] _ (.ok ()) _ :=
    exec_answers (h := failsFrom 3) (fun _ _ => rfl) _ _ (by decide +kernel)
  have hx' : Exec Noted (Cache.evictBlocks 2 .inserted 1 writtenTwice) [] _ (.err 5) _ :=
    exec_answers (h := failsFrom 1) (fun _ _ => rfl) _ _ (by decide +kernel)
  have hc : S.cache = writtenTwice := by rw [LoneCache.cache, hS]; rfl
  have hok := (evicts_exactly (by decide) h hc hx).resolve_right (by simp)
  have herr := (evicts_exactly (by decide) h hc hx').resolve_left (by simp)
  exact ⟨S, _, _, _, _, h, hS, hx, hok.2.1, by decide +kernel, hx', herr.2⟩

end Nfs
