/-
Rules for the operations of a client, for any assertion about the files it
caches and the world its requests reach.

A `Service` is such a world. The callbacks of the cache reach it through the
client (`Service.back`), so the rules of the cache apply to the operations
that go through the cache (`onCache_wp`), under the same parameters: what
the assertion has to survive when the cache is filled (`Fetches`) and when
it is written back (`Flushes`). The requests a client sends on its own
(`access`, `stat`, `unlink`, ...) each ask for one more fact. `Ends` is how
an operation ends, as for the cache.
-/
import Nfs.Client
import Nfs.FlushRules

namespace Nfs

open PlainFile Resume

/-- How the world answers a client's requests and moves on its own, and what
holds of the cache of every client that waits for an answer. -/
structure Service (W : Type) where
  serve : W → (r : Req) → r.Resp → W → Prop
  rely : W → W → Prop
  seen : Cache → W → Prop

/-- The service as a client meets it. -/
def Service.net {W : Type} (S : Service W) : Env NetFS W Req.Resp :=
  { serve := S.serve, rely := S.rely, seen := fun s w => S.seen s.cache w }

/-- The service as the callbacks of the client's cache meet it. -/
def Service.back {W : Type} (S : Service W) : Env Cache W Call.Ans :=
  { serve := fun w r a w' => ∃ resp, S.serve w r.req resp w' ∧ a = r.ans resp, rely := S.rely, seen := S.seen }

/-- The files a client caches. -/
abbrev NetFS.files (s : NetFS) : Files := s.cache.file

/-- Without file `f`. -/
def Files.drop (V : Files) (f : Str) : Files := fun g => if g = f then none else V g

@[simp] theorem Files.drop_self {V : Files} {f : Str} : V.drop f f = none := if_pos rfl

theorem Files.drop_other {V : Files} {f g : Str} (h : g ≠ f) : V.drop f g = V g := if_neg h

/-- `f` is not cached, or it is not marked stale and its cached time is
`time`: `access` and `stat` keep it. -/
def Files.Agrees (V : Files) (f : Str) (time : FileTime) : Prop :=
  ∀ fc, V f = some fc → fc.stale = false ∧ fc.attr.time.stamp = time.stamp

namespace NetFS

section
variable {W α : Type} {S : Service W} {B : Nat} {J J' X X' : Files → W → Prop} {I : Str → Phase → Files → W → Prop}
  {s : NetFS} {w : W} {f : Str} {cfg : Config}

/-- How an operation ends: with `J` and its result as `R` says, or with `X`
and an error. It never faults. -/
def Ends (B : Nat) (J X : Files → W → Prop) (R : α → Prop) : NetFS → W → Outcome α → Prop
  | s, w, .ok a => s.cache.Wf B ∧ J s.files w ∧ R a
  | s, w, .err _ => s.cache.Wf B ∧ X s.files w
  | _, _, .fault => False

/-- The consequences of an end. -/
theorem Ends.conseq {p : Act NetFS Req.Resp α} {R : α → Prop} {Q : NetFS → W → Outcome α → Prop}
    (h : p.wp S.net (Ends B J X R) w) (hok : ∀ s w a, s.cache.Wf B → J s.files w → R a → Q s w (.ok a))
    (herr : ∀ s w e, s.cache.Wf B → X s.files w → Q s w (.err e)) : p.wp S.net Q w := by
  refine Act.wp.mono h fun s w o hQ => ?_
  cases o with
  | ok a => exact hok s w a hQ.1 hQ.2.1 hQ.2.2
  | err e => exact herr s w e hQ.1 hQ.2
  | fault => exact hQ.elim

theorem Ends.mono {R R' : α → Prop} {p : Act NetFS Req.Resp α} (h : p.wp S.net (Ends B J X R) w)
    (hJ : ∀ {V w}, J V w → J' V w) (hX : ∀ {V w}, X V w → X' V w) (hR : ∀ a, R a → R' a) :
    p.wp S.net (Ends B J' X' R') w :=
  Ends.conseq h (fun _ _ a h hV hRa => ⟨h, hJ hV, hR a hRa⟩) fun _ _ _ h hV => ⟨h, hX hV⟩

theorem Ends.keeps {R : α → Prop} {o : Outcome α} (h : Ends B J J R s w o) :
    o ≠ .fault ∧ s.cache.Wf B ∧ J s.files w := by
  cases o with
  | ok a => exact ⟨nofun, h.1, h.2.1⟩
  | err e => exact ⟨nofun, h⟩
  | fault => exact h.elim

theorem Ends.seq {β : Type} {p : NetFSM α} {k : α → NetFSM β} {R : α → Prop} {Q : NetFS → W → Outcome β → Prop}
    (h : (p s).wp S.net (Ends B J X R) w)
    (hk : ∀ s w a, s.cache.Wf B → J s.files w → R a → (k a s).wp S.net Q w)
    (herr : ∀ s w e, s.cache.Wf B → X s.files w → Q s w (.err e)) : ((p >>= k) s).wp S.net Q w :=
  wp_seq h (fun s w a hQ => hk s w a hQ.1 hQ.2.1 hQ.2.2) (fun s w e hQ => herr s w e hQ.1 hQ.2)
    fun _ _ hQ => hQ.elim

theorem onCache_wp {p : CacheM α} {Q : NetFS → W → Outcome α → Prop} :
    ((onCache p) s).wp S.net Q w ↔ (p s.cache).wp S.back (fun c w o => Q { s with cache := c } w o) w := wp_lift

/-- A rule of the cache, for the client. -/
theorem onCache_rule {p : CacheM α} {R : Cache → W → α → Prop} {P : α → Prop}
    (h : (p s.cache).wp S.back (Cache.Ends B J X R) w)
    (hP : ∀ {c w a}, c.Wf B → J c.file w → R c w a → P a) : ((onCache p) s).wp S.net (Ends B J X P) w :=
  onCache_wp.mpr (Cache.Ends.conseq h (fun _ _ _ h hJ hR => ⟨h, hJ, hP h hJ hR⟩) fun _ _ _ h hX => ⟨h, hX⟩)

/-! ## The requests of the client itself -/

theorem invalidate_wp {Q : NetFS → W → Outcome Unit → Prop} (h : s.cache.Wf B)
    (hQ : ∀ c, c.Wf B → c.file = s.files.drop f → Q { s with cache := c } w (.ok ())) :
    ((invalidate f) s).wp S.net Q w := by
  obtain ⟨c, hc, hw, hfr, hn⟩ := Cache.invalidate_spec (f := f) h
  refine onCache_wp.mpr ((Cache.local_wp hc).mpr (hQ c hw ?_))
  funext g
  by_cases hg : g = f
  · rw [hg, hn, Files.drop_self]
  · rw [hfr g hg, Files.drop_other hg]

theorem checkTime_wp {time : FileTime} {Q : NetFS → W → Outcome Unit → Prop} (h : s.cache.Wf B)
    (hkeep : s.files.Agrees f time → Q s w (.ok ()))
    (hdrop : ¬ s.files.Agrees f time → ∀ c, c.Wf B → c.file = s.files.drop f →
      Q { s with cache := c } w (.ok ())) : ((checkTime f time) s).wp S.net Q w := by
  refine wp_bind.mpr (wp_get.mpr ?_)
  cases hf : s.cache.file f with
  | none =>
    have h₁ : s.cache.isStale f = false := by simp only [Cache.isStale, hf]
    have h₂ : s.cache.getFileTime f = none := by simp only [Cache.getFileTime, hf, Option.map_none]
    simp only [Bound, h₁, h₂, Bool.false_eq_true, if_false]
    exact hkeep fun fc hc => by cases hf.symm.trans hc
  | some fc =>
    have h₁ : s.cache.isStale f = fc.stale := by simp only [Cache.isStale, hf]
    have h₂ : s.cache.getFileTime f = some fc.attr.time := by simp only [Cache.getFileTime, hf, Option.map_some]
    simp only [Bound, h₁, h₂]
    by_cases hs : fc.stale = true
    · rw [if_pos hs]
      refine invalidate_wp h (hdrop fun ha => ?_)
      rw [(ha fc hf).1] at hs
      cases hs
    · rw [if_neg hs]
      by_cases ht : fc.attr.time.ne time = true
      · rw [if_pos ht]
        exact invalidate_wp h (hdrop fun ha => FileTime.ne_iff.mp ht (ha fc hf).2)
      · rw [if_neg ht]
        refine hkeep fun fc' hf' => ?_
        cases hf.symm.trans hf'
        exact ⟨by simpa using hs, not_not.mp fun hne => ht (FileTime.ne_iff.mpr hne)⟩

/-- `access`: an error drops the file, and so does a time that does not
agree. -/
theorem access_rule (h : s.cache.Wf B) (hseen : S.seen s.cache w)
    (hask : ∀ {w₁ w₂} {a : AccessResp}, S.rely w w₁ → S.serve w₁ (.access f) a w₂ →
      (a.error ≠ 0 → X (s.files.drop f) w₂) ∧
      (a.error = 0 → (s.files.Agrees f a.time → J s.files w₂) ∧
        (¬ s.files.Agrees f a.time → J (s.files.drop f) w₂))) :
    ((access f) s).wp S.net (Ends B J X fun _ => True) w := by
  refine wp_bind.mpr (wp_ask.mpr ⟨hseen, fun w₁ hr a w₂ hs => ?_⟩)
  obtain ⟨herr, hok⟩ := hask hr hs
  show Act.wp S.net _ ((if _ then _ else _ : NetFSM Unit) s) w₂
  split
  · rename_i he
    refine wp_bind.mpr (invalidate_wp h fun c hw hc => ⟨hw, ?_⟩)
    rw [NetFS.files, hc]
    exact herr he
  · rename_i he
    obtain ⟨hkeep, hdrop⟩ := hok (not_not.mp he)
    refine checkTime_wp h (fun ha => ⟨h, hkeep ha, trivial⟩) fun ha c hw hc => ⟨hw, ?_, trivial⟩
    rw [NetFS.files, hc]
    exact hdrop ha

theorem stat_rule {R : FileAttr → Prop} (h : s.cache.Wf B) (hseen : S.seen s.cache w)
    (hask : ∀ {w₁ w₂} {a : StatResp}, S.rely w w₁ → S.serve w₁ (.stat f) a w₂ →
      (a.error ≠ 0 → X (s.files.drop f) w₂) ∧
      (a.error = 0 → R (doReadAttr a).attr ∧ (s.files.Agrees f a.time → J s.files w₂) ∧
        (¬ s.files.Agrees f a.time → J (s.files.drop f) w₂))) :
    ((stat f) s).wp S.net (Ends B J X R) w := by
  refine wp_bind.mpr (wp_ask.mpr ⟨hseen, fun w₁ hr a w₂ hs => ?_⟩)
  obtain ⟨herr, hok⟩ := hask hr hs
  show Act.wp S.net _ ((if _ then _ else _ : NetFSM FileAttr) s) w₂
  split
  · rename_i he
    refine wp_bind.mpr (invalidate_wp h fun c hw hc => ⟨hw, ?_⟩)
    rw [NetFS.files, hc]
    exact herr he
  · rename_i he
    obtain ⟨hR, hkeep, hdrop⟩ := hok (not_not.mp he)
    refine wp_bind.mpr (checkTime_wp h (fun ha => ⟨h, hkeep ha, hR⟩) fun ha c hw hc => ⟨hw, ?_, hR⟩)
    rw [NetFS.files, hc]
    exact hdrop ha

/-- A request whose error is returned at once. -/
theorem ask_rule {r : Req} {k : r.Resp → NetFSM α} {Q : NetFS → W → Outcome α → Prop} (hseen : S.seen s.cache w)
    (hask : ∀ {w₁ w₂} {a : r.Resp}, S.rely w w₁ → S.serve w₁ r a w₂ →
      (r.error a ≠ 0 → Q s w₂ (.err (r.error a))) ∧ (r.error a = 0 → (k a s).wp S.net Q w₂)) :
    ((Prog.ask r >>= fun a => if r.error a ≠ 0 then Prog.throw (r.error a) else k a) s).wp S.net Q w := by
  refine wp_bind.mpr (wp_ask.mpr ⟨hseen, fun w₁ hr a w₂ hs => ?_⟩)
  obtain ⟨herr, hok⟩ := hask hr hs
  show Act.wp S.net _ ((if _ then _ else _ : NetFSM α) s) w₂
  split
  · rename_i he
    exact herr he
  · rename_i he
    exact hok (not_not.mp he)

/-- What a request of the client itself has to keep of `J`. -/
def Asks (S : Service W) (J X : Files → W → Prop) (V V' : Files) (w : W) (r : Req) : Prop :=
  ∀ {w₁ w₂} {a : r.Resp}, S.rely w w₁ → S.serve w₁ r a w₂ → (r.error a ≠ 0 → X V w₂) ∧ (r.error a = 0 → J V' w₂)

theorem simply_rule {r : Req} (h : s.cache.Wf B) (hseen : S.seen s.cache w) (hask : Asks S J X s.files s.files w r) :
    ((simply r) s).wp S.net (Ends B J X fun _ => True) w :=
  ask_rule hseen fun hr hs => ⟨fun he => ⟨h, (hask hr hs).1 he⟩, fun he => ⟨h, (hask hr hs).2 he, trivial⟩⟩

theorem statfs_rule (h : s.cache.Wf B) (hseen : S.seen s.cache w) (hask : Asks S J X s.files s.files w .statfs) :
    (statfs s).wp S.net (Ends B J X fun _ => True) w :=
  ask_rule (r := .statfs) hseen fun hr hs =>
    ⟨fun he => ⟨h, (hask hr hs).1 he⟩, fun he => ⟨h, (hask hr hs).2 he, trivial⟩⟩

theorem readdir_rule (h : s.cache.Wf B) (hseen : S.seen s.cache w)
    (hask : Asks S J X s.files s.files w (.readdir f)) : ((readdir f) s).wp S.net (Ends B J X fun _ => True) w :=
  ask_rule (r := .readdir f) hseen fun hr hs =>
    ⟨fun he => ⟨h, (hask hr hs).1 he⟩, fun he => ⟨h, (hask hr hs).2 he, trivial⟩⟩

/-- `unlink` and `rmdir`. -/
theorem remove_rule {r : Req} (h : s.cache.Wf B) (hseen : S.seen s.cache w)
    (hask : Asks S J X s.files (s.files.drop f) w r) : ((remove r f) s).wp S.net (Ends B J X fun _ => True) w := by
  refine ask_rule hseen fun hr hs => ⟨fun he => ⟨h, (hask hr hs).1 he⟩, fun he => ?_⟩
  refine invalidate_wp h fun c hw hc => ⟨hw, ?_, trivial⟩
  rw [NetFS.files, hc]
  exact (hask hr hs).2 he

theorem rename_rule {g : Str} {flags : UInt32} (h : s.cache.Wf B) (hseen : S.seen s.cache w)
    (hask : Asks S J X s.files ((s.files.drop f).drop g) w (.rename f g flags)) :
    ((rename f g flags) s).wp S.net (Ends B J X fun _ => True) w := by
  refine ask_rule (r := .rename f g flags) hseen fun hr hs => ⟨fun he => ⟨h, (hask hr hs).1 he⟩, fun he => ?_⟩
  refine wp_bind.mpr (invalidate_wp h fun c hw hc => invalidate_wp hw fun c' hw' hc' => ⟨hw', ?_, trivial⟩)
  rw [NetFS.files, hc']
  show J (Files.drop c.file g) _
  rw [hc]
  exact (hask hr hs).2 he

/-! ## The operations that go through the cache -/

section
variable {B : Nat} (hB : 0 < cfg.blockSize) (hU : ∀ g, Flushes S.back cfg.blockSize J X (I g) g)
include hB hU

theorem evict_rule
    (hthin : ∀ {V V' : Files} {w}, J V w → (∀ f fc, V f = some fc → fc.AllClean) → V.Thinned V' → J V' w)
    (h : s.cache.Wf cfg.blockSize) (hJ : J s.files w) :
    ((evict cfg) s).wp S.net (Ends cfg.blockSize J X fun _ => True) w := by
  refine wp_bind.mpr (wp_get.mpr ?_)
  show Act.wp S.net _ ((if _ then _ else _ : NetFSM Unit) s) w
  split
  · exact onCache_rule (Cache.evictBlocks_rule hU hB cfg.order hthin h hJ) fun _ _ _ => trivial
  · exact ⟨h, hJ, trivial⟩

theorem countWrite_rule (h : s.cache.Wf cfg.blockSize) (hJ : J s.files w) :
    ((countWrite cfg) s).wp S.net (Ends cfg.blockSize J (fun _ _ => False) fun _ => True) w := by
  refine wp_bind.mpr (wp_get.mpr (wp_bind.mpr (wp_set.mpr ?_)))
  show Act.wp S.net _ ((if _ then _ else _ : NetFSM Unit) _) w
  split
  · refine wp_bind.mpr (wp_set.mpr (wp_swallow.mpr (onCache_wp.mpr ?_)))
    exact Cache.Ends.conseq (Cache.flushDirtyBlocks_rule hU hB cfg.order h hJ)
      (fun _ _ _ h hJ _ => ⟨h, hJ, trivial⟩) fun _ _ _ h hX => ⟨h, (hU []).recover hX, trivial⟩
  · exact ⟨h, hJ, trivial⟩

end

/-- `read`: what it returns, it has from the cache before the eviction. -/
theorem read_rule {off n : Nat} {P : Bytes → Prop} (hB : 0 < cfg.blockSize)
    (hF : Fetches S.back cfg.blockSize J X f) (hU : ∀ g, Flushes S.back cfg.blockSize J X (I g) g)
    (hthin : ∀ {V V' : Files} {w}, J V w → (∀ f fc, V f = some fc → fc.AllClean) → V.Thinned V' → J V' w)
    (hP : ∀ {c w data}, J (Cache.file c) w → Cache.ReadResult cfg.blockSize f off n c data → P data)
    (h : s.cache.Wf cfg.blockSize) (hJ : J s.files w) :
    ((read cfg f off n) s).wp S.net (Ends cfg.blockSize J X P) w := by
  refine Ends.seq (onCache_rule (Cache.read_rule hF hB h hJ) fun _ hJ hr => hP hJ hr) ?_
    fun s w e h hX => ⟨h, hX⟩
  intro s w data h hJ hd
  exact Ends.seq (evict_rule hB hU hthin h hJ) (fun s w _ h hJ _ => ⟨h, hJ, hd⟩) fun s w e h hX => ⟨h, hX⟩

/-- `write`: `J'` holds from the moment the bytes are in the cache. -/
theorem write_rule {off : Nat} {buf : Bytes} (hB : 0 < cfg.blockSize) (hF : Fetches S.back cfg.blockSize J X f)
    (hst : ∀ {V w fc fc'}, J V w → V f = some fc → fc.Stored cfg.blockSize off buf fc' → J' (V.set f fc') w)
    (hU : ∀ g, Flushes S.back cfg.blockSize J' X' (I g) g)
    (hthin : ∀ {V V' : Files} {w}, J' V w → (∀ f fc, V f = some fc → fc.AllClean) → V.Thinned V' → J' V' w)
    (h : s.cache.Wf cfg.blockSize) (hJ : J s.files w) :
    ((write cfg f off buf) s).wp S.net
      (Ends cfg.blockSize J' (fun V w => X V w ∨ X' V w) fun _ => True) w := by
  refine Ends.seq (onCache_rule (P := fun _ => True) (Cache.write_rule hF hB hst h hJ) fun _ _ _ => trivial) ?_
    fun s w e h hX => ⟨h, .inl hX⟩
  intro s w _ h hJ _
  refine Ends.seq (evict_rule hB hU hthin h hJ) ?_ fun s w e h hX => ⟨h, .inr hX⟩
  intro s w _ h hJ _
  exact Ends.mono (countWrite_rule hB hU h hJ) id False.elim fun _ h => h

theorem flush_rule (hB : 0 < cfg.blockSize) (hU : ∀ g, Flushes S.back cfg.blockSize J X (I g) g)
    (h : s.cache.Wf cfg.blockSize) (hJ : J s.files w) :
    ((flush cfg f) s).wp S.net (Ends cfg.blockSize J (fun _ _ => False) fun _ => True) w := by
  refine onCache_wp.mpr (Cache.Ends.conseq (Cache.flush_rule (hU f) hB h hJ) ?_ fun _ _ _ h hX => ⟨h, hX⟩)
  exact fun _ _ _ h hJ _ => ⟨h, hJ.elim (·.1) (hU f).recover, trivial⟩

end

end NetFS

/-! ## Assertions that every operation keeps -/

/-- A request that does not go through the cache. -/
def Req.Direct : Req → Prop
  | .read .. => False
  | .write .. => False
  | .truncate .. => False
  | _ => True

/-- `J` survives whatever a client does, writes and truncates apart. -/
structure Lasting {W : Type} (S : Service W) (B : Nat) (J X : Files → W → Prop)
    (I : Str → Phase → Files → W → Prop) : Prop where
  seen : ∀ {c : Cache} {w : W}, c.Wf B → J c.file w → S.seen c w
  fetches : ∀ f, Fetches S.back B J X f
  flushes : ∀ f, Flushes S.back B J X (I f) f
  thinned : ∀ {V V' : Files} {w : W}, J V w → (∀ f fc, V f = some fc → fc.AllClean) → V.Thinned V' → J V' w
  asks : ∀ {V : Files} {w w₁ w₂ : W} {r : Req} {a : r.Resp}, r.Direct → J V w → S.rely w w₁ → S.serve w₁ r a w₂ →
    J V w₂
  drop : ∀ {V : Files} {w : W} (f : Str), J V w → J (V.drop f) w

section
variable {W : Type} {S : Service W} {J X : Files → W → Prop} {I : Str → Phase → Files → W → Prop} {s : NetFS} {w : W}
  {cfg : Config}

/-- **Any operation** keeps such an assertion. -/
theorem Lasting.run (hL : Lasting S cfg.blockSize J X I) (hB : 0 < cfg.blockSize) (op : Op)
    (hwrite : ∀ {f off buf}, op = .write f off buf → ∀ {V w fc fc'}, J V w → V f = some fc →
      fc.Stored cfg.blockSize off buf fc' → J (V.set f fc') w)
    (htruncate : ∀ {f n}, op = .truncate f n →
      (Cache.truncate cfg.blockSize f n s.cache).wp S.back (Cache.Ends cfg.blockSize J J fun _ _ _ => True) w)
    (h : s.cache.Wf cfg.blockSize) (hJ : J s.files w) :
    (op.run cfg s).wp S.net (NetFS.Ends cfg.blockSize J J fun _ => True) w := by
  have hseen := hL.seen h hJ
  have hX : ∀ {V w}, X V w → J V w := (hL.flushes []).recover
  -- A request that changes nothing in the cache, or drops a file from it.
  have hask : ∀ r : Req, r.Direct → NetFS.Asks S J J s.files s.files w r := fun _ hd _ _ _ hr hs =>
    ⟨fun _ => hL.asks hd hJ hr hs, fun _ => hL.asks hd hJ hr hs⟩
  have hdrop : ∀ (r : Req) (f : Str), r.Direct → NetFS.Asks S J J s.files (s.files.drop f) w r :=
    fun _ f hd _ _ _ hr hs => ⟨fun _ => hL.asks hd hJ hr hs, fun _ => hL.drop f (hL.asks hd hJ hr hs)⟩
  cases op with
  | access f =>
    refine NetFS.access_rule h hseen fun hr hs => ?_
    have hJ' := hL.asks (r := .access f) trivial hJ hr hs
    exact ⟨fun _ => hL.drop f hJ', fun _ => ⟨fun _ => hJ', fun _ => hL.drop f hJ'⟩⟩
  | create f => exact NetFS.simply_rule h hseen (hask (.create f) trivial)
  | stat f =>
    refine NetFS.stat_rule h hseen fun hr hs => ?_
    have hJ' := hL.asks (r := .stat f) trivial hJ hr hs
    exact ⟨fun _ => hL.drop f hJ', fun _ => ⟨trivial, fun _ => hJ', fun _ => hL.drop f hJ'⟩⟩
  | statfs => exact NetFS.statfs_rule h hseen (hask .statfs trivial)
  | readdir f => exact NetFS.readdir_rule h hseen (hask (.readdir f) trivial)
  | read f off n =>
    exact NetFS.Ends.mono (NetFS.read_rule hB (hL.fetches f) hL.flushes hL.thinned (fun _ _ => trivial) h hJ) id hX
      fun _ h => h
  | write f off buf =>
    exact NetFS.Ends.mono (NetFS.write_rule hB (hL.fetches f) (hwrite rfl) hL.flushes hL.thinned h hJ) id
      (fun h => h.elim hX hX) fun _ h => h
  | truncate f n => exact NetFS.onCache_rule (htruncate rfl) fun _ _ _ => trivial
  | unlink f => exact NetFS.remove_rule h hseen (hdrop (.unlink f) f trivial)
  | rmdir f => exact NetFS.remove_rule h hseen (hdrop (.rmdir f) f trivial)
  | mkdir f mode => exact NetFS.simply_rule h hseen (hask (.mkdir f mode) trivial)
  | flush f => exact NetFS.Ends.mono (NetFS.flush_rule hB hL.flushes h hJ) id False.elim fun _ h => h
  | rename f g flags =>
    refine NetFS.rename_rule h hseen fun hr hs => ?_
    have hJ' := hL.asks (r := .rename f g flags) trivial hJ hr hs
    exact ⟨fun _ => hJ', fun _ => hL.drop g (hL.drop f hJ')⟩

end

end Nfs
