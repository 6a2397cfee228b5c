/-
The representation of the cache, and what each part that calls nothing does
to it.

`Cache.Wf` ties the two structures together: the nodes of the recency list
have distinct addresses, and they are exactly the use records of the
entries. Each function of `Nfs.Cache` that calls nothing gets one lemma: it
does not fault, it keeps `Wf`, it leaves the other files alone, and it
changes its own file as stated, in terms of the valid bytes at absolute
offsets (`FileCache.byte`) and of which of them stand in dirty blocks
(`FileCache.dirtyAt`).
-/
import Nfs.Cache

namespace Nfs

open PlainFile Resume

/-! ## Files by absolute offset -/

/-- The cached byte at an offset of the file, when it is valid. -/
def FileCache.byte (B : Nat) (fc : FileCache) (x : Nat) : Option UInt8 :=
  (fc.entries.lookup (x / B)).bind fun e => e.byte (x % B)

/-- The offset lies in a dirty block. -/
def FileCache.dirtyAt (B : Nat) (fc : FileCache) (x : Nat) : Prop :=
  ∃ e, fc.entries.lookup (x / B) = some e ∧ e.state = .dirty

/-- No block of the file is dirty. -/
def FileCache.AllClean (fc : FileCache) : Prop := ∀ b e, fc.entries.lookup b = some e → e.state = .clean

/-- A file with some of its entries gone. -/
structure FileCache.Thinned (fc fc' : FileCache) : Prop where
  attr : fc'.attr = fc.attr
  stale : fc'.stale = fc.stale
  entries : ∀ b e, fc'.entries.lookup b = some e → fc.entries.lookup b = some e

/-- The files a cache holds. -/
abbrev Files := Str → Option FileCache

/-- One file of them replaced. -/
def Files.set (V : Files) (f : Str) (fc : FileCache) : Files := fun g => if g = f then some fc else V g

@[simp] theorem Files.set_self {V : Files} {f : Str} {fc : FileCache} : V.set f fc f = some fc := by
  simp [Files.set]

@[simp] theorem Files.set_other {V : Files} {f g : Str} {fc : FileCache} (h : g ≠ f) : V.set f fc g = V g := by
  simp [Files.set, h]

/-- What holds of the new file and of the others holds of all. -/
theorem Files.forall_set {P : Str → Option FileCache → Prop} {V : Files} {f : Str} {fc : FileCache}
    (hf : P f (some fc)) (h : ∀ g, g ≠ f → P g (V g)) : ∀ g, P g (V.set f fc g) := by
  intro g
  by_cases hg : g = f
  · subst hg
    rw [Files.set_self]
    exact hf
  · rw [Files.set_other hg]
    exact h g hg

theorem Files.forall_set_some {P : Str → FileCache → Prop} {V : Files} {f : Str} {fc : FileCache} (hf : P f fc)
    (h : ∀ g, g ≠ f → ∀ gc, V g = some gc → P g gc) : ∀ g gc, V.set f fc g = some gc → P g gc := by
  refine Files.forall_set (P := fun g o => ∀ gc, o = some gc → P g gc) ?_ h
  intro gc hg
  cases hg
  exact hf

/-- The same files, with some entries gone. -/
def Files.Thinned (V V' : Files) : Prop :=
  ∀ f, (V f = none ∧ V' f = none) ∨ ∃ fc fc', V f = some fc ∧ V' f = some fc' ∧ fc.Thinned fc'

theorem Files.Thinned.refl (V : Files) : V.Thinned V := by
  intro f
  cases hf : V f with
  | none => exact .inl ⟨rfl, rfl⟩
  | some fc => exact .inr ⟨fc, fc, rfl, rfl, rfl, rfl, fun _ _ h => h⟩

theorem Files.Thinned.trans {V₁ V₂ V₃ : Files} (h : V₁.Thinned V₂) (h' : V₂.Thinned V₃) : V₁.Thinned V₃ := by
  intro f
  rcases h f with ⟨h₁, h₂⟩ | ⟨fc₁, fc₂, h₁, h₂, ht⟩ <;> rcases h' f with ⟨h₃, h₄⟩ | ⟨fc₃, fc₄, h₃, h₄, ht'⟩
  · exact .inl ⟨h₁, h₄⟩
  · rw [h₂] at h₃; cases h₃
  · rw [h₂] at h₃; cases h₃
  · rw [h₂] at h₃; cases h₃
    exact .inr ⟨fc₁, fc₄, h₁, h₄, ht'.attr.trans ht.attr, ht'.stale.trans ht.stale,
      fun b e he => ht.entries b e (ht'.entries b e he)⟩

theorem Files.Thinned.file {V V' : Files} (h : V.Thinned V') {f : Str} {fc' : FileCache} (hf' : V' f = some fc') :
    ∃ fc, V f = some fc ∧ fc.Thinned fc' := by
  rcases h f with ⟨-, hn⟩ | ⟨fc, fc₂, hf, hf₂, ht⟩
  · cases hn.symm.trans hf'
  · cases hf₂.symm.trans hf'
    exact ⟨fc, hf, ht⟩

theorem FileCache.Thinned.allClean {fc fc' : FileCache} (h : fc.Thinned fc') (hc : fc.AllClean) : fc'.AllClean :=
  fun b e he => hc b e (h.entries b e he)

theorem Files.Thinned.allClean {V V' : Files} (h : V.Thinned V') (hc : ∀ f fc, V f = some fc → fc.AllClean) :
    ∀ f fc', V' f = some fc' → fc'.AllClean := by
  intro f fc' hf'
  obtain ⟨fc, hf, ht⟩ := h.file hf'
  exact ht.allClean (hc f fc hf)

namespace Cache

/-- Entries are well formed, and the recency list holds their use records. -/
structure Wf (B : Nat) (c : Cache) : Prop where
  entry : ∀ f b e, c.entry f b = some e → e.Wf B
  record : ∀ a f b, ⟨a, ⟨f, b⟩⟩ ∈ c.recentList ↔ ∃ e, c.entry f b = some e ∧ e.useRecord = a
  addrs : (c.recentList.map (·.addr)).Nodup
  fresh : ∀ r ∈ c.recentList, r.addr < c.nextAddr

/-- Every file but `f` is as it was. -/
def Frame (f : Str) (c c' : Cache) : Prop := ∀ g, g ≠ f → c'.file g = c.file g

/-- Only entries of `f` have changed: its file is now `fc'`, in place of
`fc`, with the same attributes. -/
structure Changed (B : Nat) (f : Str) (c c' : Cache) (fc fc' : FileCache) : Prop where
  wf : c'.Wf B
  frame : Frame f c c'
  file : c'.file f = some fc'
  attr : fc'.attr = fc.attr
  stale : fc'.stale = fc.stale

variable {B : Nat} {c c' : Cache} {f g : Str} {fc fc' : FileCache} {b : Nat} {e e' : CacheEntry}

theorem Changed.trans {c'' : Cache} {fc'' : FileCache} (h : Changed B f c c' fc fc')
    (h' : Changed B f c' c'' fc' fc'') : Changed B f c c'' fc fc'' :=
  ⟨h'.wf, fun g hg => (h'.frame g hg).trans (h.frame g hg), h'.file, h'.attr.trans h.attr,
    h'.stale.trans h.stale⟩

theorem Changed.refl (h : c.Wf B) (hf : c.file f = some fc) : Changed B f c c fc fc :=
  ⟨h, fun _ _ => rfl, hf, rfl, rfl⟩

theorem empty_wf : empty.Wf B := by
  constructor <;> simp [empty, Cache.entry, Cache.file]

@[simp] theorem file_setFile : (c.setFile f fc).file g = if g = f then some fc else c.file g := by
  unfold setFile file
  split
  · rename_i h; subst h; exact AList.lookup_insert _
  · rename_i h; exact AList.lookup_insert_ne h

theorem file_setFile_self : (c.setFile f fc).file f = some fc := by rw [file_setFile, if_pos rfl]

theorem file_setFile_eq : (c.setFile f fc).file = Files.set c.file f fc := by
  funext g
  rw [file_setFile]; rfl

/-- A change of one file, as a change of the files held. -/
theorem Frame.file_eq (h : Frame f c c') (hf : c'.file f = some fc') : c'.file = Files.set c.file f fc' := by
  funext g
  by_cases hg : g = f
  · subst hg; rw [hf, Files.set_self]
  · rw [h g hg, Files.set_other hg]

theorem entry_of_file (h : c.file f = some fc) : c.entry f b = fc.entries.lookup b := by
  simp [Cache.entry, h]

theorem Frame.entry (h : Frame f c c') (hg : g ≠ f) : c'.entry g b = c.entry g b := by
  rw [Cache.entry, Cache.entry, h g hg]

theorem entry_setFile : (c.setFile f fc).entry g b = if g = f then fc.entries.lookup b else c.entry g b := by
  simp only [Cache.entry, file_setFile]
  split <;> rfl

theorem exists_file_of_entry (h : c.entry f b = some e) :
    ∃ fc, c.file f = some fc ∧ fc.entries.lookup b = some e := by
  simpa [Cache.entry, Option.bind_eq_some_iff] using h

/-- Well-formedness looks at the entries and the list only. -/
theorem Wf.congr (h : c.Wf B) (he : ∀ f b, c'.entry f b = c.entry f b) (hl : c'.recentList = c.recentList)
    (ha : c'.nextAddr = c.nextAddr) : c'.Wf B :=
  ⟨fun f b e hb => h.entry f b e (he f b ▸ hb), fun a f b => by rw [hl, he]; exact h.record a f b,
    by rw [hl]; exact h.addrs, by rw [hl, ha]; exact h.fresh⟩

/-- A change of a file's attributes keeps well-formedness. -/
theorem Wf.setFile (h : c.Wf B) (hf : c.file f = some fc) (he : fc'.entries = fc.entries) :
    (c.setFile f fc').Wf B := by
  refine h.congr (fun g b => ?_) rfl rfl
  rw [entry_setFile, he]
  split
  · rename_i hg; subst hg; exact (entry_of_file hf).symm
  · rfl

/-- A file without entries joins the map. -/
theorem Wf.newFile (h : c.Wf B) (hf : c.file f = none) {attr : FileAttr} :
    (c.setFile f (FileCache.ofAttr attr)).Wf B := by
  refine h.congr (fun g b => ?_) rfl rfl
  rw [entry_setFile]
  split
  · rename_i hg; subst hg; simp [FileCache.ofAttr, Cache.entry, hf]
  · rfl

/-- Every entry has its node in the list. -/
theorem Wf.mem_record (h : c.Wf B) (he : c.entry f b = some e) : ⟨e.useRecord, ⟨f, b⟩⟩ ∈ c.recentList :=
  (h.record _ f b).mpr ⟨e, he, rfl⟩

/-- Nodes with one address are one node. -/
theorem Wf.addr_inj (h : c.Wf B) {r q : UseRecord} (hr : r ∈ c.recentList) (hq : q ∈ c.recentList)
    (ha : r.addr = q.addr) : r = q :=
  List.inj_on_of_nodup_map h.addrs hr hq ha

theorem Wf.mem_ids (h : c.Wf B) (k : CacheEntryID) :
    k ∈ c.recentList.map (·.id) ↔ (c.entry k.filename k.blockNum).isSome := by
  rw [List.mem_map, Option.isSome_iff_exists]
  constructor
  · rintro ⟨r, hr, rfl⟩
    obtain ⟨e, he, -⟩ := (h.record r.addr _ _).mp hr
    exact ⟨e, he⟩
  · rintro ⟨e, he⟩
    exact ⟨_, h.mem_record he, rfl⟩

/-- No block is listed twice. -/
theorem Wf.ids_nodup (h : c.Wf B) : (c.recentList.map (·.id)).Nodup := by
  refine List.Nodup.map_on ?_ h.addrs.of_map
  rintro ⟨a, k⟩ hr ⟨a', k'⟩ hq (rfl : k = k')
  obtain ⟨e, he, ha⟩ := (h.record a _ _).mp hr
  obtain ⟨e', he', ha'⟩ := (h.record a' _ _).mp hq
  refine h.addr_inj hr hq ?_
  cases he.symm.trans he'
  exact ha.symm.trans ha'

/-- The number of cached blocks depends on which blocks are cached only. -/
theorem Wf.countCachedBlocks_eq (h : c.Wf B) (h' : c'.Wf B)
    (hb : ∀ f b, (c'.entry f b).isSome = (c.entry f b).isSome) : c'.countCachedBlocks = c.countCachedBlocks := by
  have hp : (c'.recentList.map (·.id)).Perm (c.recentList.map (·.id)) :=
    (List.perm_ext_iff_of_nodup h'.ids_nodup h.ids_nodup).mpr fun k => by rw [h'.mem_ids, h.mem_ids, hb]
  simpa [countCachedBlocks] using hp.length_eq

/-! ## Single entries -/

theorem eraseRecord_addr {a : Nat} : ∀ {l : List UseRecord}, (l.map (·.addr)).Nodup →
    ((eraseRecord a l).map (·.addr)).Nodup ∧ ∀ r, r ∈ eraseRecord a l ↔ r ∈ l ∧ r.addr ≠ a
  | [], _ => by simp [eraseRecord]
  | x :: l, hn => by
    have hn' := hn
    simp only [List.map_cons, List.nodup_cons, List.mem_map, not_exists, not_and] at hn
    obtain ⟨h₁, h₂⟩ := eraseRecord_addr (a := a) hn.2
    by_cases hx : x.addr = a
    · have he : eraseRecord a (x :: l) = l := by simp [eraseRecord, hx]
      rw [he]
      refine ⟨hn.2, fun r => ⟨fun hr => ⟨by simp [hr], fun ha => hn.1 r hr (ha.trans hx.symm)⟩, ?_⟩⟩
      rintro ⟨hr, hne⟩
      rcases List.mem_cons.mp hr with rfl | hr
      · exact absurd hx hne
      · exact hr
    · have he : eraseRecord a (x :: l) = x :: eraseRecord a l := by simp [eraseRecord, hx]
      rw [he]
      refine ⟨?_, fun r => ?_⟩
      · simp only [List.map_cons, List.nodup_cons, List.mem_map, not_exists, not_and]
        exact ⟨fun r hr => hn.1 r ((h₂ r).mp hr).1, h₁⟩
      · simp only [List.mem_cons, h₂]
        constructor
        · rintro (rfl | ⟨hr, ha⟩)
          · exact ⟨.inl rfl, hx⟩
          · exact ⟨.inr hr, ha⟩
        · rintro ⟨rfl | hr, ha⟩
          · exact .inl rfl
          · exact .inr ⟨hr, ha⟩

/-- A change of one block of one file, the list following the block's entry. -/
theorem Changed.block (h : c.Wf B) (hf : c.file f = some fc) (hm : c'.fileMap = c.fileMap.insert f fc')
    (hattr : fc'.attr = fc.attr) (hstale : fc'.stale = fc.stale)
    (hb : ∀ b', b' ≠ b → fc'.entries.lookup b' = fc.entries.lookup b')
    (hw : ∀ e, fc'.entries.lookup b = some e → e.Wf B)
    (hrec : ∀ a g b', ⟨a, ⟨g, b'⟩⟩ ∈ c'.recentList ↔
      if g = f ∧ b' = b then ∃ e, fc'.entries.lookup b = some e ∧ e.useRecord = a
      else ⟨a, ⟨g, b'⟩⟩ ∈ c.recentList)
    (hn : (c'.recentList.map (·.addr)).Nodup) (hfr : ∀ r ∈ c'.recentList, r.addr < c'.nextAddr) :
    Changed B f c c' fc fc' := by
  have hfile : ∀ g, c'.file g = if g = f then some fc' else c.file g := by
    intro g
    rw [← file_setFile]
    simp only [Cache.file, setFile, hm]
  have hent : ∀ g b', c'.entry g b' = if g = f ∧ b' = b then fc'.entries.lookup b else c.entry g b' := by
    intro g b'
    by_cases hg : g = f
    · subst hg
      by_cases hb' : b' = b
      · subst hb'; simp [Cache.entry, hfile]
      · simp [Cache.entry, hfile, hb', hb b' hb', hf]
    · simp [Cache.entry, hfile, hg]
  refine ⟨⟨?_, ?_, hn, hfr⟩, fun g hg => by rw [hfile, if_neg hg], by rw [hfile, if_pos rfl], hattr, hstale⟩
  · intro g b' e he
    rw [hent] at he
    split at he
    · exact hw e he
    · exact h.entry g b' e he
  · intro a g b'
    rw [hrec, hent]
    split
    · exact Iff.rfl
    · exact h.record a g b'

/-- `newEntry` on a block that is not there. -/
theorem newEntry_spec (h : c.Wf B) (hf : c.file f = some fc) (hb : fc.entries.lookup b = none) :
    ∃ c', newEntry B f b c = some c' ∧
      Changed B f c c' fc { fc with entries := fc.entries.insert b (CacheEntry.new B c.nextAddr) } := by
  refine ⟨{ c with
      recentList := c.recentList ++ [⟨c.nextAddr, ⟨f, b⟩⟩]
      nextAddr := c.nextAddr + 1
      fileMap := c.fileMap.insert f { fc with entries := fc.entries.insert b (CacheEntry.new B c.nextAddr) } },
    by simp [newEntry, hf, hb], .block (b := b) h hf rfl rfl rfl (fun b' hb' => AList.lookup_insert_ne hb') ?_ ?_
      ?_ ?_⟩
  · intro e he
    simp only [AList.lookup_insert, Option.some.injEq] at he
    subst he
    exact CacheEntry.new_wf
  · intro a g b'
    have hnone : ⟨a, ⟨f, b⟩⟩ ∉ c.recentList := by
      rw [h.record, entry_of_file hf, hb]
      rintro ⟨e, he, -⟩
      cases he
    simp only [AList.lookup_insert, Option.some.injEq, exists_eq_left', CacheEntry.new, List.mem_append,
      List.mem_singleton, UseRecord.mk.injEq, CacheEntryID.mk.injEq]
    split
    · rename_i hgb
      obtain ⟨rfl, rfl⟩ := hgb
      simp only [hnone, false_or, and_true]
      exact eq_comm
    · rename_i hgb
      simp only [hgb, and_false, or_false]
  · simp only [List.map_append, List.map_cons, List.map_nil]
    rw [List.nodup_append]
    refine ⟨h.addrs, by simp, ?_⟩
    intro a ha a' ha'
    obtain ⟨r, hr, rfl⟩ := List.mem_map.mp ha
    simp only [List.mem_singleton] at ha'
    have := h.fresh r hr
    omega
  · intro r hr
    simp only [List.mem_append, List.mem_singleton] at hr
    rcases hr with hr | rfl
    · exact Nat.lt_succ_of_lt (h.fresh r hr)
    · exact Nat.lt_succ_self _

/-- A change of an entry that keeps its node. -/
theorem updateEntry_spec (h : c.Wf B) (hf : c.file f = some fc) (hb : fc.entries.lookup b = some e)
    {u : CacheEntry → Option CacheEntry} (hu : u e = some e') (hw : e'.Wf B) (hr : e'.useRecord = e.useRecord) :
    ∃ c', updateEntry f b u c = some c' ∧
      Changed B f c c' fc { fc with entries := fc.entries.insert b e' } ∧ c'.recentList = c.recentList := by
  refine ⟨c.setFile f { fc with entries := fc.entries.insert b e' }, ?_,
    .block (b := b) h hf rfl rfl rfl (fun b' hb' => AList.lookup_insert_ne hb') ?_ ?_ h.addrs h.fresh, rfl⟩
  · simp only [updateEntry, hf, hb, hu, Option.bind_eq_bind, Option.bind_some]
  · intro e₁ he
    simp only [AList.lookup_insert, Option.some.injEq] at he
    subst he
    exact hw
  · intro a g b'
    simp only [AList.lookup_insert, Option.some.injEq, exists_eq_left', hr]
    show _ ∈ c.recentList ↔ _
    split
    · rename_i hgb
      obtain ⟨rfl, rfl⟩ := hgb
      rw [h.record, entry_of_file hf, hb]
      simp only [Option.some.injEq, exists_eq_left']
    · exact Iff.rfl

/-- The entry a block has, or the one it is given first. -/
def entryOrNew (B : Nat) (c : Cache) (fc : FileCache) (b : Nat) : CacheEntry :=
  (fc.entries.lookup b).getD (CacheEntry.new B c.nextAddr)

theorem entryOrNew_wf (h : c.Wf B) (hf : c.file f = some fc) : (entryOrNew B c fc b).Wf B := by
  unfold entryOrNew
  cases hb : fc.entries.lookup b with
  | none => exact CacheEntry.new_wf
  | some e => exact h.entry f b e (by rw [entry_of_file hf, hb])

theorem entryOrNew_byte {i : Nat} :
    (entryOrNew B c fc b).byte i = (fc.entries.lookup b).bind fun e => e.byte i := by
  unfold entryOrNew
  cases fc.entries.lookup b <;> simp

/-- The cache with a node for the block at the end of the list, unless the
block has one. -/
def withRecord (f : Str) (b : Nat) (c : Cache) : Cache :=
  if (c.entry f b).isSome then c
  else { c with recentList := c.recentList ++ [⟨c.nextAddr, ⟨f, b⟩⟩], nextAddr := c.nextAddr + 1 }

theorem setFile_setFile : (c.setFile f fc).setFile f fc' = c.setFile f fc' := by
  simp only [setFile, AList.insert_insert]

/-- `touchEntry` as one change of the map and one of the list. -/
theorem touchEntry_eq {u : CacheEntry → Option CacheEntry} :
    touchEntry B f b u c = (c.file f).bind fun fc => (u (entryOrNew B c fc b)).map fun e =>
      (c.withRecord f b).setFile f { fc with entries := fc.entries.insert b e } := by
  cases hf : c.file f with
  | none => simp only [touchEntry, hf, Option.bind_eq_bind, Option.bind_none]
  | some fc =>
    cases hb : fc.entries.lookup b with
    | none =>
      have hnew : ∀ {l a h} {fc' : FileCache}, (Cache.mk (c.fileMap.insert f fc') l a h).file f = some fc' :=
        AList.lookup_insert _
      simp only [touchEntry, newEntry, updateEntry, withRecord, entryOrNew, hf, hb, entry_of_file hf, hnew,
        Option.bind_eq_bind, Option.bind_some, Option.isSome_none, Bool.false_eq_true, if_false,
        AList.lookup_insert, AList.insert_insert, Option.getD_none, setFile]
      cases u (CacheEntry.new B c.nextAddr) <;> rfl
    | some e =>
      simp only [touchEntry, updateEntry, withRecord, entryOrNew, hf, hb, entry_of_file hf, Option.bind_eq_bind,
        Option.bind_some, Option.isSome_some, if_true, Option.getD_some]
      cases u e <;> rfl

/-- `touchEntry`: the block's entry becomes what `u` makes of it. -/
theorem touchEntry_spec (h : c.Wf B) (hf : c.file f = some fc) {u : CacheEntry → Option CacheEntry}
    (hu : u (entryOrNew B c fc b) = some e') (hw : e'.Wf B)
    (hr : e'.useRecord = (entryOrNew B c fc b).useRecord) :
    ∃ c' fc', touchEntry B f b u c = some c' ∧ Changed B f c c' fc fc' ∧
      ∀ b', fc'.entries.lookup b' = if b' = b then some e' else fc.entries.lookup b' := by
  cases hb : fc.entries.lookup b with
  | none =>
    obtain ⟨c₁, h₁, hc₁⟩ := newEntry_spec h hf hb
    have hnew : entryOrNew B c fc b = CacheEntry.new B c.nextAddr := by simp [entryOrNew, hb]
    rw [hnew] at hu hr
    obtain ⟨c₂, h₂, hc₂, -⟩ := updateEntry_spec hc₁.wf hc₁.file (AList.lookup_insert _) hu hw hr
    refine ⟨c₂, _, ?_, hc₁.trans hc₂, fun b' => ?_⟩
    · simp only [touchEntry, hf, hb, h₁, Option.bind_eq_bind, Option.bind_some, h₂]
    · by_cases hb' : b' = b
      · subst hb'; simp [AList.lookup_insert]
      · simp [hb', AList.lookup_insert_ne]
  | some e =>
    have hold : entryOrNew B c fc b = e := by simp [entryOrNew, hb]
    rw [hold] at hu hr
    obtain ⟨c₂, h₂, hc₂, -⟩ := updateEntry_spec h hf hb hu hw hr
    refine ⟨c₂, _, ?_, hc₂, fun b' => ?_⟩
    · simp only [touchEntry, hf, hb, h₂, Option.bind_eq_bind, Option.bind_some]
    · by_cases hb' : b' = b
      · subst hb'; simp [AList.lookup_insert]
      · simp [hb', AList.lookup_insert_ne]

/-- `deleteEntry` on a block that is there. -/
theorem deleteEntry_spec (h : c.Wf B) (hf : c.file f = some fc) (hb : fc.entries.lookup b = some e) :
    ∃ c', deleteEntry f b c = some c' ∧ Changed B f c c' fc { fc with entries := fc.entries.erase b } ∧
      c'.recentList = eraseRecord e.useRecord c.recentList := by
  have hrec := h.mem_record (show c.entry f b = some e by rw [entry_of_file hf, hb])
  obtain ⟨hn, hm⟩ := eraseRecord_addr (a := e.useRecord) h.addrs
  refine ⟨{ c with
      recentList := eraseRecord e.useRecord c.recentList
      fileMap := c.fileMap.insert f { fc with entries := fc.entries.erase b } }, by simp [deleteEntry, hf, hb],
    .block (b := b) h hf rfl rfl rfl (fun b' hb' => AList.lookup_erase_ne hb') ?_ ?_ hn
      (fun r hr => h.fresh r ((hm r).mp hr).1), rfl⟩
  · intro e₁ he
    simp only [AList.lookup_erase, reduceCtorEq] at he
  · intro a g b'
    show _ ∈ eraseRecord _ _ ↔ _
    rw [hm]
    simp only [AList.lookup_erase, reduceCtorEq, false_and, exists_false]
    split
    · rename_i hgb
      obtain ⟨rfl, rfl⟩ := hgb
      rw [h.record, entry_of_file hf, hb]
      simp only [Option.some.injEq, exists_eq_left', iff_false, not_and, not_not]
      exact fun he => he.symm
    · rename_i hgb
      refine ⟨fun hx => hx.1, fun hx => ⟨hx, fun ha => hgb ?_⟩⟩
      have hr := h.addr_inj hx hrec ha
      simp only [UseRecord.mk.injEq, CacheEntryID.mk.injEq] at hr
      exact hr.2

/-- `moveToHead` on an entry's node. -/
theorem moveToHead_spec (h : c.Wf B) (he : c.entry f b = some e) :
    ∃ c', moveToHead e.useRecord c = some c' ∧ c'.Wf B ∧ c'.fileMap = c.fileMap := by
  have hrec := h.mem_record he
  have hfind : c.recentList.find? (fun r => r.addr == e.useRecord) = some ⟨e.useRecord, ⟨f, b⟩⟩ := by
    cases hx : c.recentList.find? (fun r => r.addr == e.useRecord) with
    | none => exact absurd (List.find?_eq_none.mp hx _ hrec) (by simp)
    | some r =>
      have ha : r.addr = e.useRecord := by simpa using List.find?_some hx
      rw [h.addr_inj (List.mem_of_find?_eq_some hx) hrec ha]
  refine ⟨{ c with recentList := ⟨e.useRecord, ⟨f, b⟩⟩ :: eraseRecord e.useRecord c.recentList }, ?_, ?_, rfl⟩
  · simp only [moveToHead, hfind, Option.bind_eq_bind, Option.bind_some]
  obtain ⟨hn, hm⟩ := eraseRecord_addr (a := e.useRecord) h.addrs
  have hmem : ∀ r, r ∈ ⟨e.useRecord, ⟨f, b⟩⟩ :: eraseRecord e.useRecord c.recentList ↔ r ∈ c.recentList := by
    intro r
    rw [List.mem_cons, hm]
    constructor
    · rintro (rfl | ⟨hr, -⟩)
      · exact hrec
      · exact hr
    · intro hr
      by_cases ha : r.addr = e.useRecord
      · exact .inl (h.addr_inj hr hrec ha)
      · exact .inr ⟨hr, ha⟩
  constructor
  · exact h.entry
  · exact fun a g b' => (hmem _).trans (h.record a g b')
  · simp only [List.map_cons, List.nodup_cons, List.mem_map, not_exists, not_and]
    exact ⟨fun r hr => ((hm r).mp hr).2, hn⟩
  · exact fun r hr => h.fresh r ((hmem r).mp hr)

end Cache

end Nfs
