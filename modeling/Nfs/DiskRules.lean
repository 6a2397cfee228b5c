/-
The callbacks keep a disk.

One rule for each operation of the client, over a server that it is alone
with and that refuses nothing without need (`Server.Answers`), and from them
one for each callback. The server breaks at a request that cannot be sent or
that it cannot understand. So a rule also says that there is no such request.

Nothing but a file that is not there is an error. A write-back has nothing to
report then: what is cached is there.
-/
import Nfs.Disk
import Nfs.Isolation
import Nfs.View

namespace Nfs

open PlainFile Resume

-- As in `Nfs.Connection`.
seal toInt

/-- The request can be sent, the server understands it, and the names are the
program's. -/
structure Req.Good (T : Tree) (r : Req) : Prop where
  proper : r.Proper
  sendable : r.Sendable
  mine : ∀ f, r.Names f → T.mine f

theorem Tree.Named.names {T : Tree} {f : Str} (h : T.Named f) (g : Str) (hg : f = g) : T.mine g := hg ▸ h.mine

/-- The server, asked good requests only. -/
abbrev diskService (T : Tree) : Service (Option Server) := .solo (guard (Server.Answers True) fun _ => Req.Good T)

/-- It is not broken. -/
def Whole (J : Files → Server → Prop) (V : Files) (o : Option Server) : Prop := ∃ w, o = some w ∧ J V w

/-- `f` was there, and the disk is `D'` now. -/
def Done (T : Tree) (B N : Nat) (D : Disk) (f : Str) (D' : Disk) (V : Files) (o : Option Server) : Prop :=
  Whole (Mounted T B N D') V o ∧ (D.files f).isSome

/-- `f` is not there. -/
def Missing (T : Tree) (B N : Nat) (D : Disk) (f : Str) (V : Files) (o : Option Server) : Prop :=
  Whole (Mounted T B N D) V o ∧ D.files f = none

/-- What the cache fetches lies within the bounds. -/
def Call.Within (N : Nat) : Call → Prop
  | .contentFt _ offset size => 0 < size ∧ offset + size ≤ N
  | _ => True

section
variable {T : Tree} {B N : Nat} {D D' : Disk} {V V' : Files} {w : Server} {f : Str} {fc : FileCache}
  {o o₁ o₂ : Option Server} {X : Files → Option Server → Prop}

/-! ## Filling and writing back -/

/-- A callback of the cache, answered. -/
theorem Call.answered {r : Call} {a : r.Ans} (hs : (diskService T).back.serve (some w) r a o) (hgood : r.req.Good T) :
    ∃ resp w', o = some w' ∧ a = r.ans resp ∧ w.ServeTree r.req resp w' ∧ (r.err a ≠ 0 → w.Lacks r.req) := by
  obtain ⟨resp, hs, rfl⟩ := hs
  obtain ⟨w', rfl, ha⟩ := guard_step hs hgood
  exact ⟨resp, w', rfl, rfl, ha.tree, fun hne => ha.lacks trivial (by rwa [← Call.err_ans])⟩

theorem Mounted.fetches (hB : 0 < B) (hN : N < 2 ^ 31) (hn : T.Named f ∧ IsFile T f) :
    Fetches ((diskService T).back.only (Call.Within N)) B (Whole (Mounted T B N D))
      (Missing T B N D f) f := by
  refine ⟨fun _ _ => trivial, ?_, ?_⟩
  · intro V _ _ o a h hV hr hs
    obtain ⟨w, rfl, h⟩ := h
    cases hr
    obtain ⟨resp, w', rfl, rfl, ⟨⟨rfl, hok⟩, -⟩, hlacks⟩ := Call.answered hs.2 ⟨hn.1.1, hn.1.2, hn.1.names⟩
    have hb := h.held f hn.2 trivial
    rw [hV] at hb
    refine ⟨fun he => ⟨w', rfl, ?_⟩, fun he => ⟨⟨w', rfl, h⟩, (hb.files_none (hlacks he)).1⟩⟩
    obtain ⟨s, hs, hsize, -, ht⟩ := hok he
    have hl : D.files f = some s.content := by
      rw [hs] at hb
      exact Eq.symm hb
    have hclean : (FileCache.ofAttr (doReadAttr resp).attr).AllClean := by simp [FileCache.AllClean, FileCache.ofAttr]
    exact .set (h.but f) hn (fun _ _ => rfl) hs hl ⟨.ofAttr hsize ht, fun _ => rfl, fun _ => hclean⟩
  · intro V _ _ o fc start n a h hV hr hs
    obtain ⟨w, rfl, h⟩ := h
    cases hr
    obtain ⟨⟨hpos, hle⟩, hs⟩ := hs
    obtain ⟨resp, w', rfl, rfl, ⟨hserve, -⟩, hlacks⟩ := Call.answered hs
      ⟨⟨hn.1.1, ⟨by omega, by omega⟩, by omega⟩, ⟨hn.1.2, hpos, by omega⟩, hn.1.names⟩
    obtain ⟨s, l, hs, hl, hR⟩ := h.file hV
    refine ⟨fun he fc' hfill => ⟨w', rfl, Mounted.peek ?_ hserve.1⟩, fun he => ?_⟩
    · obtain ⟨c, hc, hdata⟩ := Server.Serve.read_content hserve he
      rw [Server.content, hs] at hc
      cases hc
      exact .set (h.but f) hn (fun _ _ => rfl) hs hl (hR.filled hB hfill hdata hle)
    · cases hs.symm.trans (hlacks he)

/-- The times of a change that is the client's own. -/
theorem unmarked_eq {before cached : FileTime} {stale : Bool} (h : cached.stamp = before.stamp) (hst : stale = false) :
    (if before.ne cached then true else stale) = false := by
  rw [if_neg fun hne => FileTime.ne_iff.mp hne h.symm, hst]

/-- The size is sent, by a write-back or by `truncate`. -/
theorem Amid.attrWb {a : AttrWbAns} (hN : N < 2 ^ 31) (h : Whole (Amid T B N D f (Sizing B N (¬ D.unsent f))) V o)
    (hV : V f = some fc) (hr : (diskService T).back.rely o o₁)
    (hs : (diskService T).back.serve o₁ (.attrWb f fc.attr fc.stale) a o₂) :
    a.err = 0 ∧ Whole (Mounted T B N D) (V.set f { fc with attr := a.attr, stale := a.stale }) o₂ := by
  obtain ⟨w, rfl, h⟩ := h
  cases hr
  obtain ⟨s, l, hws, hl, hR⟩ := h.file hV
  have hn := h.1.name f fc hV
  have hfit := h.1.fits f l hn.2 hl
  have hsize := hR.size
  obtain ⟨resp, w', rfl, rfl, ⟨hserve, -⟩, hlacks⟩ := Call.answered hs ⟨⟨hn.1.1, by omega⟩, hn.1.2, hn.1.names⟩
  have he : (resp : ChangeResp).error = 0 := by
    by_contra hne
    cases hws.symm.trans (hlacks (by rwa [Call.err_ans]))
  obtain ⟨s₁, s', hc, hbe, haf⟩ := hserve.1 he
  cases hws.symm.trans hc.1
  show (doWriteAttr fc.attr fc.stale resp).err = 0 ∧ Whole _ (V.set f { fc with
    attr := (doWriteAttr fc.attr fc.stale resp).attr, stale := (doWriteAttr fc.attr fc.stale resp).stale }) _
  rw [doWriteAttr_ok he, hbe, haf, unmarked_eq hR.stamp hR.fresh]
  exact ⟨rfl, w', rfl, .set h.1 hn (fun g hg => hc.other hg) hc.2.1.2.1 hl (hR.done hc.2.2)⟩

/-- Nothing that is sent is refused. -/
theorem Mounted.flushes (hN : N < 2 ^ 31) (hX : ∀ {V o}, X V o → Whole (Mounted T B N D) V o) (f : Str) :
    Flushes (diskService T).back B (Whole (Mounted T B N D)) X
      (fun p => Whole (Amid T B N D f (During B N (¬ D.unsent f) p))) f := by
  refine ⟨fun _ _ => trivial, ?_, ?_, ?_, ?_, hX⟩
  · intro V o fc h hV _
    obtain ⟨w, rfl, h⟩ := h
    obtain ⟨s, l, hs, hl, hR⟩ := h.file hV
    exact ⟨w, rfl, h.but f, fc, s, l, hV, hs, hl, hR.stands, fun x hx => hx.elim⟩
  · intro V _ _ o S fc off data a h hV hx hr hs
    obtain ⟨w, rfl, h⟩ := h
    cases hr
    obtain ⟨s, l, hws, hl, hst, hS⟩ := h.file hV
    have hn := h.1.name f fc hV
    have hle := hst.extent hx
    have hpos := List.length_pos_of_ne_nil hx.nonempty
    obtain ⟨resp, w', rfl, rfl, ⟨hserve, -⟩, hlacks⟩ := Call.answered hs
      ⟨⟨hn.1.1, ⟨by omega, by omega⟩, hx.nonempty⟩, ⟨hn.1.2, hx.nonempty, by omega⟩, hn.1.names⟩
    have he : (resp : ChangeResp).error = 0 := by
      by_contra hne
      cases hws.symm.trans (hlacks (by rwa [Call.err_ans]))
    obtain ⟨s₁, s', hc, hbe, haf⟩ := hserve.1 he
    cases hws.symm.trans hc.1
    have hans : Call.ans (.contentWb f off data fc.attr.time fc.stale) resp =
        { err := 0, time := s'.time, stale := false } := by
      show doWrite _ _ _ = _
      rw [doWrite_ok he, hbe, haf, unmarked_eq hst.stamp hst.fresh]
    rw [hans]
    obtain ⟨hst', hin⟩ := hst.sent hx hc.2.2
    refine ⟨fun _ => ⟨w', rfl, .set h.1 hn (fun g hg => hc.other hg) hc.2.1.2.1 hl ⟨hst', fun x hx' => ?_⟩⟩,
      fun hne => absurd rfl hne⟩
    by_cases hx'' : off ≤ x ∧ x < off + data.length
    · exact hin x hx''.1 hx''.2
    · rw [hc.2.2, byteAt_pwrite, if_neg hx'']
      exact hS x (hx'.resolve_right hx'')
  · intro V o S fc fc' h hV hall hcl
    obtain ⟨w, rfl, h⟩ := h
    obtain ⟨s, l, hs, hl, hst, hS⟩ := h.file hV
    exact ⟨w, rfl, .set h.1 (h.1.name f fc hV) (fun _ _ => rfl) hs hl
      ((hst.cleaned hS hall hcl).sizing fun _ => hcl.clean)⟩
  · intro V _ _ o fc a h hV hr hs
    obtain ⟨he, h'⟩ := Amid.attrWb hN h hV hr hs
    exact ⟨fun _ => h', fun hne => absurd he hne⟩

theorem Whole.thinned (h : Whole (Mounted T B N D) V o) (hclean : ∀ f fc, V f = some fc → fc.AllClean)
    (ht : V.Thinned V') : Whole (Mounted T B N D) V' o := by
  obtain ⟨w, rfl, h⟩ := h
  exact ⟨w, rfl, h.thinned hclean ht⟩

end

/-! ## What the cache fetches -/

namespace Cache

variable {B N : Nat} {f : Str}

abbrev FetchesWithin {α : Type} (N : Nat) (p : CacheM α) : Prop := p.Asks (Call.Within N)

theorem fileAt_within : FetchesWithin N (fileAt f) := asks_get.bind fun _ => asks_check

theorem putFile_within {fc : FileCache} : FetchesWithin N (putFile f fc) := asks_get.bind fun _ => asks_set

theorem cacheFileAttr_within : FetchesWithin N (cacheFileAttr f) := by
  refine asks_get.bind fun c => ?_
  cases hf : c.file f with
  | none => exact (asks_ask trivial).bind fun _ => .ite (fun _ => asks_throw) fun _ => putFile_within
  | some fc => exact asks_pure

theorem attrWb_within : FetchesWithin N (attrWb f) := by
  refine fileAt_within.bind fun fc => (asks_ask trivial).bind fun _ => putFile_within.bind fun _ => ?_
  exact .ite (fun _ => asks_throw) fun _ => asks_pure

theorem write_within {off : Nat} {buf : Bytes} : FetchesWithin N (write B f off buf) :=
  cacheFileAttr_within.bind fun _ => asks_step

theorem truncate_within {n : Nat} : FetchesWithin N (truncate B f n) := by
  refine cacheFileAttr_within.bind fun _ => fileAt_within.bind fun fc => ?_
  refine .ite (fun _ => asks_step.bind fun _ => asks_step.bind fun _ => attrWb_within) fun _ => ?_
  exact .ite (fun _ => asks_step.bind fun _ => attrWb_within) fun _ => asks_pure

theorem fetchRuns_within (hB : 0 < B) : ∀ rgs : List Range, (∀ rg ∈ rgs, rg.start < rg.stop ∧ rg.stop * B ≤ N) →
    FetchesWithin N (fetchRuns B f rgs)
  | [], _ => asks_pure
  | rg :: rgs, h => by
    obtain ⟨hlt, hle⟩ := h rg (by simp)
    have hsum : rg.start * B + (rg.stop - rg.start) * B = rg.stop * B := by
      rw [← Nat.add_mul]
      congr 1
      omega
    refine (asks_ask ⟨Nat.mul_pos (by omega) hB, by rwa [hsum]⟩).bind fun _ => .ite (fun _ => asks_throw) fun _ => ?_
    exact asks_step.bind fun _ => fetchRuns_within hB rgs fun q hq => h q (by simp [hq])

/-- The last block of what is read ends within the bounds too. -/
theorem endBlock_mul_le (hdvd : B ∣ N) {n : Nat} (h : n ≤ N) : endBlock B n * B ≤ N := by
  obtain ⟨k, rfl⟩ := hdvd
  unfold endBlock
  split
  · simp
  · have hlt : (n - 1) / B < k := Nat.div_lt_of_lt_mul (by omega)
    rw [Nat.mul_comm B k]
    exact Nat.mul_le_mul_right B hlt

theorem read_within (hB : 0 < B) (hdvd : B ∣ N) {off size : Nat} (h : off + size ≤ N) :
    FetchesWithin N (read B f off size) := by
  refine cacheFileAttr_within.bind fun _ => fileAt_within.bind fun fc => .ite (fun _ => asks_pure) fun hz => ?_
  -- `n` is the size after the cut at the end of the file.
  generalize hn : (if off + size > fc.attr.size then fc.attr.size - off else size) = n
  have hn' : off + n ≤ N := by
    rw [← hn]
    split <;> omega
  refine Prog.Asks.bind ?_ fun _ => asks_step
  refine fileAt_within.bind fun fc => .ite (fun _ => asks_pure) fun _ => asks_check_bind fun rgs hrgs => ?_
  refine asks_get.bind fun c => asks_set.bind fun _ => fetchRuns_within hB rgs fun rg hrg => ?_
  obtain ⟨rs, hrs, hg, hcov⟩ := missingBlocks_spec (B := B) fc (endBlock B (off + n) - off / B) (off / B)
    Intervals.Gapped.nil
  cases hrs.symm.trans hrgs
  have hlt := hg.nonempty rg hrg
  obtain hc | ⟨hfirst, hlast, -⟩ := (hcov (rg.stop - 1)).mp ⟨rg, hrg, by omega, by omega⟩
  · simp at hc
  · have hstop : rg.stop ≤ endBlock B (off + n) := by omega
    exact ⟨hlt, (Nat.mul_le_mul_right B hstop).trans (endBlock_mul_le hdvd hn')⟩

end Cache

/-! ## The operations -/

namespace Mounted

section
variable {T : Tree} {N : Nat} {D D' : Disk} {s : NetFS} {w : Server} {f g : Str} {cfg : Config}

/-- How an operation ends that works on `f`. -/
abbrev Ended {α : Type} (cfg : Config) (T : Tree) (N : Nat) (D : Disk) (f : Str) (D' : Disk) (R : α → Prop) :
    NetFS → Option Server → Outcome α → Prop :=
  NetFS.Ends cfg.blockSize (Done T cfg.blockSize N D f D') (Missing T cfg.blockSize N D f) R

theorem readResult {B : Nat} {o : Option Server} {c : Cache} {off n : Nat} {data : Bytes}
    (h : Whole (Mounted T B N D) c.file o) (hr : Cache.ReadResult B f off n c data) :
    ∃ l, D.files f = some l ∧ data = pread l off n := by
  obtain ⟨w, rfl, h⟩ := h
  obtain ⟨fc, hf, hlen, hby⟩ := hr
  obtain ⟨s, l, -, hl, hR⟩ := h.file hf
  exact ⟨l, hl, hR.stands.synced.pread hlen hby⟩

section
variable (hB : 0 < cfg.blockSize) (hN : N < 2 ^ 31)
include hB hN

theorem evict (h : s.cache.Wf cfg.blockSize) {o : Option Server}
    (hM : Whole (Mounted T cfg.blockSize N D) s.files o) :
    ((NetFS.evict cfg) s).wp (diskService T).net
      (NetFS.Ends cfg.blockSize (Whole (Mounted T cfg.blockSize N D)) (fun _ _ => False) fun _ => True) o :=
  NetFS.evict_rule hB (flushes hN False.elim) Whole.thinned h hM

theorem read (hdvd : cfg.blockSize ∣ N) {off n : Nat} (hn : T.Named f ∧ IsFile T f) (hle : off + n ≤ N)
    (h : s.cache.Wf cfg.blockSize) (hM : Mounted T cfg.blockSize N D s.files w) :
    ((NetFS.read cfg f off n) s).wp (diskService T).net
      (Ended cfg T N D f D fun data => ∃ l, D.files f = some l ∧ data = pread l off n) (some w) := by
  refine NetFS.Ends.seq (NetFS.onCache_rule ((Cache.read_within hB hdvd hle s.cache).wp (Cache.read_rule
    (fetches (D := D) hB hN hn) hB h ⟨w, rfl, hM⟩)) fun _ hJ hr => readResult hJ hr) ?_ fun s o e h hX => ⟨h, hX⟩
  intro s o data h hJ hd
  refine NetFS.Ends.seq (evict hB hN h hJ) (fun s o _ h hJ _ => ⟨h, ⟨hJ, ?_⟩, hd⟩) fun s o e h hX => hX.elim
  obtain ⟨l, hl, -⟩ := hd
  rw [hl]
  rfl

theorem write {off : Nat} {buf : Bytes} (hn : T.Named f ∧ IsFile T f) (hne : buf ≠ []) (hle : off + buf.length ≤ N)
    (h : s.cache.Wf cfg.blockSize) (hM : Mounted T cfg.blockSize N D s.files w) :
    ((NetFS.write cfg f off buf) s).wp (diskService T).net
      (Ended cfg T N D f ((D.modify f (pwrite · off buf)).mark f) fun _ => True) (some w) := by
  have hcache : (Cache.write cfg.blockSize f off buf s.cache).wp ((diskService T).back.only (Call.Within N))
      (Cache.Ends cfg.blockSize (Done T cfg.blockSize N D f ((D.modify f (pwrite · off buf)).mark f))
        (Missing T cfg.blockSize N D f) fun _ _ _ => True) (some w) := by
    refine Cache.write_rule (fetches (D := D) hB hN hn) hB (fun h hf hst => ?_) h ⟨w, rfl, hM⟩
    obtain ⟨w, rfl, h⟩ := h
    obtain ⟨s, l, -, hl, -⟩ := h.file hf
    exact ⟨⟨w, rfl, h.stored hne hle hf hst⟩, by rw [hl]; rfl⟩
  refine NetFS.Ends.seq (NetFS.onCache_rule (P := fun _ => True) ((Cache.write_within s.cache).wp hcache)
    fun _ _ _ => trivial) ?_ fun s o e h hX => ⟨h, hX⟩
  intro s o _ h hJ _
  refine NetFS.Ends.seq (evict hB hN h hJ.1) ?_ fun s o e h hX => hX.elim
  intro s o _ h hM _
  exact NetFS.Ends.mono (NetFS.countWrite_rule hB (flushes (X := fun _ _ => False) hN False.elim) h hM)
    (fun h => ⟨h, hJ.2⟩) False.elim fun _ h => h

theorem truncate {n : Nat} (hn : T.Named f ∧ IsFile T f) (hle : n ≤ N)
    (hcut : ∀ l, D.files f = some l → l.length ≤ n ∨ cfg.blockSize ∣ n)
    (h : s.cache.Wf cfg.blockSize) (hM : Mounted T cfg.blockSize N D s.files w) :
    ((NetFS.truncate cfg f n) s).wp (diskService T).net
      (Ended cfg T N D f (D.modify f (ftruncate · n)) fun _ => True) (some w) := by
  have hcache : (Cache.truncate cfg.blockSize f n s.cache).wp ((diskService T).back.only (Call.Within N))
      (Cache.Ends cfg.blockSize (Done T cfg.blockSize N D f (D.modify f (ftruncate · n)))
        (Missing T cfg.blockSize N D f) fun _ _ _ => True) (some w) := by
    refine Cache.truncate_rule (K := fun V o => Whole (Amid T cfg.blockSize N (D.modify f (ftruncate · n)) f
      (Sizing cfg.blockSize N (¬ D.unsent f))) V o ∧ (D.files f).isSome) (fetches (D := D) hB hN hn)
      (fun h hf heq => ?_) (fun h hf _ _ hr => ?_) (fun _ _ => trivial) (fun h hf hr hs => ?_) id h ⟨w, rfl, hM⟩
    · obtain ⟨w, rfl, h⟩ := h
      obtain ⟨s, l, -, hl, hR⟩ := h.file hf
      have hsame : D.modify f (ftruncate · n) = D :=
        Disk.modify_self hl (ftruncate_self (hR.stands.synced.size.trans heq.symm))
      rw [hsame]
      exact ⟨⟨w, rfl, h⟩, by rw [hl]; rfl⟩
    · obtain ⟨w, rfl, h⟩ := h
      obtain ⟨s, l, -, hl, hR⟩ := h.file hf
      refine ⟨⟨w, rfl, h.resized hle hf ?_ hr⟩, by rw [hl]; rfl⟩
      obtain hlen | hdvd := hcut l hl
      · intro hlt
        have hsize := hR.stands.synced.size
        omega
      · exact .of_dvd hB hdvd
    · obtain ⟨he, h'⟩ := Amid.attrWb hN h.1 hf hr hs.2
      exact ⟨fun _ => ⟨h', h.2⟩, fun hne => absurd he hne⟩
  exact NetFS.onCache_rule ((Cache.truncate_within s.cache).wp hcache) fun _ _ _ => trivial

theorem flush (h : s.cache.Wf cfg.blockSize) (hM : Mounted T cfg.blockSize N D s.files w) :
    ((NetFS.flush cfg f) s).wp (diskService T).net (NetFS.Ends cfg.blockSize
      (Whole (Mounted T cfg.blockSize N (D.settle f))) (fun _ _ => False) fun _ => True) (some w) := by
  refine NetFS.onCache_wp.mpr (Cache.Ends.conseq (Cache.flush_rule (flushes hN False.elim f) hB h ⟨w, rfl, hM⟩) ?_
    fun _ _ _ _ hX => hX.elim)
  intro c o _ h hJ _
  obtain ⟨⟨w, rfl, hM⟩, hc⟩ | hX := hJ
  · exact ⟨h, ⟨w, rfl, hM.settled hc⟩, trivial⟩
  · exact hX.elim

end

/-! ### The requests of the client itself -/

section
variable (h : s.cache.Wf cfg.blockSize) (hM : Mounted T cfg.blockSize N D s.files w)
include h hM

theorem access (hn : T.Named f ∧ IsFile T f) :
    ((NetFS.access f) s).wp (diskService T).net (Ended cfg T N D f D fun _ => True) (some w) := by
  refine NetFS.access_rule h trivial fun hr hs => ?_
  cases hr
  obtain ⟨w', rfl, ha⟩ := guard_step hs ⟨hn.1.1, hn.1.2, hn.1.names⟩
  obtain ⟨rfl, hok⟩ := ha.tree.1
  refine ⟨fun he => ?_, fun he => ?_⟩
  · have hnone : w'.files f = none := ha.lacks trivial he
    rw [hM.drop_missing hnone]
    exact ⟨⟨w', rfl, hM⟩, ((hM.held f hn.2 trivial).files_none hnone).1⟩
  · obtain ⟨sf, hsf, ht⟩ := hok he
    rw [ht]
    exact ⟨fun _ => ⟨⟨w', rfl, hM⟩, hM.isSome hn.2 hsf⟩, fun hno => absurd (hM.agrees hsf) hno⟩

/-- `stat`, be it a file or a directory. -/
theorem stat (hn : T.Named f) : ((NetFS.stat f) s).wp (diskService T).net
    (NetFS.Ends cfg.blockSize
      (fun V o => Whole (Mounted T cfg.blockSize N D) V o ∧ (IsFile T f → (D.files f).isSome))
      (fun V o => Whole (Mounted T cfg.blockSize N D) V o ∧ (IsFile T f → D.files f = none))
      fun attr => IsFile T f → ∀ l, D.files f = some l → ¬ D.unsent f → attr.size = l.length) (some w) := by
  refine NetFS.stat_rule h trivial fun hr hs => ?_
  cases hr
  obtain ⟨w', rfl, ha⟩ := guard_step hs ⟨hn.1, hn.2, hn.names⟩
  obtain ⟨rfl, hok⟩ := ha.tree.1
  refine ⟨fun he => ?_, fun he => ?_⟩
  · have hnone : w'.files f = none := ha.lacks trivial he
    rw [hM.drop_missing hnone]
    exact ⟨⟨w', rfl, hM⟩, fun hf => ((hM.held f hf trivial).files_none hnone).1⟩
  · obtain ⟨sf, hsf, hsize, -, ht⟩ := hok he
    rw [ht]
    refine ⟨fun hf l hl hu => ?_, fun _ => ⟨⟨w', rfl, hM⟩, fun hf => hM.isSome hf hsf⟩,
      fun hno => absurd (hM.agrees hsf) hno⟩
    have hsent := (hM.held f hf trivial).sent hu
    rw [hsf, hl] at hsent
    cases hsent
    exact hsize

theorem create (hn : T.Named f ∧ IsFile T f) (hD : D.files f = none) :
    ((NetFS.create f) s).wp (diskService T).net (NetFS.Ends cfg.blockSize
      (Whole (Mounted T cfg.blockSize N ((D.put f (some [])).settle f)))
      (Whole (Mounted T cfg.blockSize N D)) fun _ => True) (some w) := by
  refine NetFS.simply_rule h trivial fun hr hs => ?_
  cases hr
  obtain ⟨w', rfl, ha⟩ := guard_step hs ⟨hn.1.1, hn.1.2, hn.1.names⟩
  refine ⟨fun he => ?_, fun he => ⟨w', rfl, ?_⟩⟩
  · obtain rfl := ha.tree.1.2 he
    exact ⟨w', rfl, hM⟩
  · have hnew := hM.replaced (fun g hg hne => (ha.links he).file hn.2.2 hg hne) (ha.tree.1.1 he).2
      fun l hl => by cases hl; exact Nat.zero_le _
    rwa [Files.drop_none ((hM.held f hn.2 trivial).not_cached hD).2] at hnew

theorem unlink (hn : T.Named f ∧ IsFile T f) : ((NetFS.unlink f) s).wp (diskService T).net
    (Ended cfg T N D f ((D.put f none).settle f) fun _ => True) (some w) := by
  refine NetFS.remove_rule h trivial fun hr hs => ?_
  cases hr
  obtain ⟨w', rfl, ha⟩ := guard_step hs ⟨hn.1.1, hn.1.2, hn.1.names⟩
  refine ⟨fun he => ?_, fun he => ?_⟩
  · obtain rfl := ha.tree.1.2 he
    exact ⟨⟨w', rfl, hM⟩, ((hM.held f hn.2 trivial).files_none (ha.lacks trivial he)).1⟩
  · obtain ⟨hsome, hlink⟩ := ha.links he
    obtain ⟨sf, hsf⟩ := Option.isSome_iff_exists.mp hsome
    have hcont : w'.content f = none := Option.map_eq_none_iff.mpr (ha.tree.1.1 he).2
    exact ⟨⟨w', rfl, hM.replaced (fun g hg hne => hlink.file hn.2.2 hg hne) hcont fun l hl => by cases hl⟩,
      hM.isSome hn.2 hsf⟩

theorem rename {flags : UInt32} (hf : T.Named f ∧ IsFile T f) (hg : T.Named g ∧ IsFile T g) (hu : ¬ D.unsent f) :
    ((NetFS.rename f g flags) s).wp (diskService T).net
      (NetFS.Ends cfg.blockSize (fun V o => ∃ l, D.files f = some l ∧
        Whole (Mounted T cfg.blockSize N (((D.put f none).put g (some l)).settle g)) V o)
        (Missing T cfg.blockSize N D f) fun _ => True) (some w) := by
  refine NetFS.rename_rule h trivial fun hr hs => ?_
  cases hr
  obtain ⟨w', rfl, ha⟩ := guard_step hs
    ⟨⟨hf.1.1, hg.1.1⟩, ⟨hf.1.2, hg.1.2⟩, fun x hx => hx.elim (hf.1.names x) (hg.1.names x)⟩
  refine ⟨fun he => ?_, fun he => ?_⟩
  · obtain rfl := ha.tree.1.2 he
    exact ⟨⟨w', rfl, hM⟩, ((hM.held f hf.2 trivial).files_none (ha.lacks trivial he)).1⟩
  · have hm := ha.links he
    obtain ⟨sf, hsf⟩ := Option.isSome_iff_exists.mp hm.was
    obtain ⟨l, hl⟩ := Option.isSome_iff_exists.mp (hM.isSome hf.2 hsf)
    exact ⟨l, hl, w', rfl, hM.moved hm hf.2 hg.2 hu hl⟩

theorem readdir (hn : T.Named f) : ((NetFS.readdir f) s).wp (diskService T).net (NetFS.Ends cfg.blockSize
    (Whole (Mounted T cfg.blockSize N D)) (Whole (Mounted T cfg.blockSize N D)) fun _ => True) (some w) := by
  refine NetFS.readdir_rule h trivial fun hr hs => ?_
  cases hr
  obtain ⟨w', rfl, ha⟩ := guard_step hs ⟨hn.1, hn.2, hn.names⟩
  exact ⟨fun _ => ⟨w', rfl, hM.peek ha.tree.1⟩, fun _ => ⟨w', rfl, hM.peek ha.tree.1⟩⟩

theorem rmdir (hn : T.Named f ∧ IsDir T f) : ((NetFS.rmdir f) s).wp (diskService T).net (NetFS.Ends cfg.blockSize
    (Whole (Mounted T cfg.blockSize N D)) (Whole (Mounted T cfg.blockSize N D)) fun _ => True) (some w) := by
  refine NetFS.remove_rule h trivial fun hr hs => ?_
  cases hr
  obtain ⟨w', rfl, ha⟩ := guard_step hs ⟨hn.1.1, hn.1.2, hn.1.names⟩
  rw [hM.drop_dir hn.2.1]
  refine ⟨fun he => ?_, fun he => ⟨w', rfl, hM.relinked hn.2 (ha.links he)⟩⟩
  obtain rfl := ha.tree.1.2 he
  exact ⟨w', rfl, hM⟩

theorem mkdir {mode : UInt32} (hn : T.Named f ∧ IsDir T f) : ((NetFS.mkdir f mode) s).wp (diskService T).net
    (NetFS.Ends cfg.blockSize (Whole (Mounted T cfg.blockSize N D)) (Whole (Mounted T cfg.blockSize N D))
      fun _ => True) (some w) := by
  refine NetFS.simply_rule h trivial fun hr hs => ?_
  cases hr
  obtain ⟨w', rfl, ha⟩ := guard_step hs ⟨hn.1.1, hn.1.2, hn.1.names⟩
  refine ⟨fun he => ?_, fun he => ⟨w', rfl, hM.relinked hn.2 (ha.links he)⟩⟩
  obtain rfl := ha.tree.1.2 he
  exact ⟨w', rfl, hM⟩

theorem statfs : (NetFS.statfs s).wp (diskService T).net (NetFS.Ends cfg.blockSize
    (Whole (Mounted T cfg.blockSize N D)) (Whole (Mounted T cfg.blockSize N D)) fun _ => True) (some w) := by
  refine NetFS.statfs_rule h trivial fun hr hs => ?_
  cases hr
  obtain ⟨w', rfl, ha⟩ := guard_step hs ⟨trivial, trivial, fun _ => False.elim⟩
  obtain rfl := ha.tree.1
  exact ⟨fun _ => ⟨w', rfl, hM⟩, fun _ => ⟨w', rfl, hM⟩⟩

end

end

end Mounted

/-! ## The callbacks -/

/-- A client, and the server it is alone with, as a disk. -/
def Shown (cfg : Config) (T : Tree) (N : Nat) (D : Disk) (s : NetFS) (o : Option Server) : Prop :=
  s.cache.Wf cfg.blockSize ∧ Whole (Mounted T cfg.blockSize N D) s.files o

section
variable {T : Tree} {N : Nat} {D D' : Disk} {s : NetFS} {o : Option Server} {f : Str} {cfg : Config}
  {α : Type} {B : Nat} {J X : Files → Option Server → Prop} {quiet : Prop} {R : α → Prop}

/-- What an operation has returned. An error is positive. -/
def Tried (B : Nat) (J X : Files → Option Server → Prop) (R : α → Prop) : Except Int α → NetFS → Option Server → Prop
  | .ok a, s, o => s.cache.Wf B ∧ J s.files o ∧ R a
  | .error e, s, o => s.cache.Wf B ∧ X s.files o ∧ 0 < e

theorem attempt_rule {p : NetFSM α} (hp : p.Stops Req.error quiet) (hX : ∀ {V o}, X V o → o ≠ none)
    (h : (p s).wp (diskService T).net (NetFS.Ends B J X R) o) :
    ((p.attempt) s).wp (diskService T).net (Returns (Tried B J X R)) o := by
  have herr : (p s).wp (diskService T).net
      (fun s o r => NetFS.Ends B J X R s o r ∧ ∀ e, r = .err e → o = none ∨ 0 < e) o := by
    refine Act.Stops.wp (P := fun o e => o = none ∨ 0 < e) (hp s) h fun {o r a o'} hs hne => ?_
    cases o' with
    | none => exact .inl rfl
    | some w' =>
      cases o with
      | none => cases hs
      | some w => exact .inr (hs.2.code.resolve_left hne).1
  refine wp_attempt herr (fun _ _ _ h => h.1) (fun s o e h => ⟨h.1.1, h.1.2, ?_⟩) fun _ _ h => h.1
  exact (h.2 e rfl).resolve_left (hX h.1.2)

theorem code_rule {p : NetFSM Unit} {R : Unit → Prop} (hp : p.Stops Req.error quiet) (hX : ∀ {V o}, X V o → o ≠ none)
    (h : (p s).wp (diskService T).net (NetFS.Ends B J X R) o) :
    ((NetFS.code p) s).wp (diskService T).net (Returns fun err s o =>
      s.cache.Wf B ∧ (err = 0 ∧ J s.files o ∨ 0 < err ∧ X s.files o)) o := by
  refine wp_returns (attempt_rule hp hX h) fun s o x hx => ?_
  cases x with
  | ok a => exact ⟨hx.1, .inl ⟨rfl, hx.2.1⟩⟩
  | error e => exact ⟨hx.1, .inr ⟨hx.2.2, hx.2.1⟩⟩

theorem negated_rule {p : NetFSM Unit} {R : Unit → Prop} (hp : p.Stops Req.error quiet)
    (hX : ∀ {V o}, X V o → o ≠ none) (h : (p s).wp (diskService T).net (NetFS.Ends B J X R) o) :
    ((negated p) s).wp (diskService T).net (Returns fun ret s o =>
      s.cache.Wf B ∧ (ret = 0 ∧ J s.files o ∨ ret < 0 ∧ X s.files o)) o := by
  refine wp_returns (code_rule hp hX h) fun s o err hr => ⟨hr.1, ?_⟩
  obtain ⟨rfl, hJ⟩ | ⟨hlt, hX⟩ := hr.2
  · exact .inl ⟨rfl, hJ⟩
  · exact .inr ⟨by omega, hX⟩

theorem Whole.ne_none {J : Files → Server → Prop} {V : Files} (h : Whole J V o) : o ≠ none := by
  obtain ⟨w, rfl, -⟩ := h
  exact Option.some_ne_none w

theorem Missing.ne_none {V : Files} (h : Missing T B N D f V o) : o ≠ none := h.1.ne_none

/-- A callback that works on `f`. -/
theorem Shown.on {ret : Int} (hw : s.cache.Wf cfg.blockSize)
    (h : ret = 0 ∧ Done T cfg.blockSize N D f D' s.files o ∨ ret < 0 ∧ Missing T cfg.blockSize N D f s.files o) :
    ∃ D'', (D.On f ret D'' fun _ => ret = 0 ∧ D'' = D') ∧ Shown cfg T N D'' s o := by
  obtain ⟨rfl, hM, hsome⟩ | ⟨hlt, hM, hnone⟩ := h
  · obtain ⟨l, hl⟩ := Option.isSome_iff_exists.mp hsome
    exact ⟨D', Disk.on_some hl ⟨rfl, rfl⟩, hw, hM⟩
  · exact ⟨D, Disk.on_none hnone hlt, hw, hM⟩

theorem toInt_of_le {n : Nat} (hN : N < 2 ^ 31) (h : n ≤ N) : toInt n = n :=
  toInt_of_narrow (decide_eq_true (by omega))

section
variable (hB : 0 < cfg.blockSize) (hN : N < 2 ^ 31) (h : Shown cfg T N D s o)
include hB hN h

theorem nfsRead_rule (hdvd : cfg.blockSize ∣ N) {size offset : Nat} (hn : T.Named f ∧ IsFile T f)
    (hle : offset + size ≤ N) : ((nfsRead cfg f size offset) s).wp (diskService T).net
      (Returns fun ret s' o' => ∃ D', D.Serve T (.read f size offset) ret D' ∧ Shown cfg T N D' s' o') o := by
  obtain ⟨hw, w, rfl, hM⟩ := h
  refine wp_returns (attempt_rule (Op.run_stops cfg (.read f offset size)) Missing.ne_none
    (Mounted.read hB hN hdvd hn hle hw hM)) fun s o x hx => ?_
  cases x with
  | ok data =>
    obtain ⟨hw, ⟨hM, -⟩, l, hl, rfl⟩ := hx
    have hlen : (pread l offset size).length ≤ N := by
      rw [length_pread]
      omega
    exact ⟨D, Disk.on_some hl ⟨rfl, rfl, toInt_of_le hN hlen⟩, hw, hM⟩
  | error e =>
    obtain ⟨hw, ⟨hM, hnone⟩, he⟩ := hx
    exact ⟨D, Disk.on_none hnone (Int.neg_neg_of_pos he), hw, hM⟩

theorem nfsWrite_rule {buf : Bytes} {offset : Nat} (hn : T.Named f ∧ IsFile T f) (hne : buf ≠ [])
    (hle : offset + buf.length ≤ N) : ((nfsWrite cfg f buf offset) s).wp (diskService T).net
      (Returns fun ret s' o' => ∃ D', D.Serve T (.write f buf offset) ret D' ∧ Shown cfg T N D' s' o') o := by
  obtain ⟨hw, w, rfl, hM⟩ := h
  refine wp_returns (code_rule (Op.run_stops cfg (.write f offset buf)) Missing.ne_none
    (Mounted.write hB hN hn hne hle hw hM)) fun s o err hr => ?_
  obtain ⟨hw, ⟨rfl, hM, hsome⟩ | ⟨hlt, hM, hnone⟩⟩ := hr
  · obtain ⟨l, hl⟩ := Option.isSome_iff_exists.mp hsome
    exact ⟨_, Disk.on_some hl ⟨toInt_of_le hN (by omega), rfl⟩, hw, hM⟩
  · rw [if_pos hlt.ne']
    exact ⟨D, Disk.on_none hnone (Int.neg_neg_of_pos hlt), hw, hM⟩

theorem nfsOpen_rule {trunc : Bool} (hn : T.Named f ∧ IsFile T f) : ((nfsOpen cfg f trunc) s).wp (diskService T).net
    (Returns fun ret s' o' => ∃ D', D.Serve T (.open_ f trunc) ret D' ∧ Shown cfg T N D' s' o') o := by
  obtain ⟨hw, w, rfl, hM⟩ := h
  refine wp_returns (code_rule (Op.run_stops cfg (.access f)) Missing.ne_none (Mounted.access hw hM hn))
    fun s o err hr => ?_
  obtain ⟨hw, ⟨rfl, ⟨w, rfl, hM⟩, hsome⟩ | ⟨hlt, hM⟩⟩ := hr
  · cases trunc with
    | false => exact Shown.on hw (.inl ⟨rfl, ⟨w, rfl, hM⟩, hsome⟩)
    | true =>
      obtain ⟨l, hl⟩ := Option.isSome_iff_exists.mp hsome
      have hempty : D.modify f (ftruncate · 0) = D.put f (some []) := by
        rw [Disk.modify_eq hl]
        simp [ftruncate]
      have htrunc := Mounted.truncate hB hN hn (Nat.zero_le N) (fun _ _ => .inr (Nat.dvd_zero _)) hw hM
      rw [hempty] at htrunc
      exact (negated_rule (Op.run_stops cfg (.truncate f 0)) Missing.ne_none htrunc).returns
        fun ret s o hr => Shown.on hr.1 hr.2
  · rw [if_neg fun hz => hlt.ne' hz.1]
    exact Shown.on hw (.inr ⟨by omega, hM⟩)

end

/-- **Every callback** does to the disk what it should. -/
theorem Callback.run_rule (hB : 0 < cfg.blockSize) (hdvd : cfg.blockSize ∣ N) (hN : N < 2 ^ 31) (c : Callback)
    (hc : D.Follows T cfg.blockSize N c) (h : Shown cfg T N D s o) :
    (c.run cfg s).wp (diskService T).net
      (Returns fun ret s' o' => ∃ D', D.Serve T c ret D' ∧ Shown cfg T N D' s' o') o := by
  cases c with
  | read f size offset => exact nfsRead_rule hB hN h hdvd ⟨hc.1, hc.2.1⟩ hc.2.2
  | write f buf offset => exact nfsWrite_rule hB hN h ⟨hc.1, hc.2.1⟩ hc.2.2.1 hc.2.2.2
  | open_ f trunc => exact nfsOpen_rule hB hN h hc
  | getattr f =>
    obtain ⟨hw, w, rfl, hM⟩ := h
    refine wp_returns (attempt_rule NetFS.stat_stops (fun hX => hX.1.ne_none) (Mounted.stat hw hM hc))
      fun s o x hx => ?_
    cases x with
    | ok attr =>
      obtain ⟨hw, ⟨hM, hsome⟩, hsize⟩ := hx
      refine ⟨D, ⟨rfl, fun hf => ?_⟩, hw, hM⟩
      obtain ⟨l, hl⟩ := Option.isSome_iff_exists.mp (hsome hf)
      exact Disk.on_some hl ⟨rfl, attr, rfl, hsize hf l hl⟩
    | error e =>
      obtain ⟨hw, ⟨hM, hnone⟩, he⟩ := hx
      exact ⟨D, ⟨rfl, fun hf => Disk.on_none (hnone hf) (Int.neg_neg_of_pos he)⟩, hw, hM⟩
  | readdir f =>
    obtain ⟨hw, w, rfl, hM⟩ := h
    refine wp_returns (attempt_rule (Op.run_stops cfg (.readdir f)) Whole.ne_none (Mounted.readdir hw hM hc))
      fun s o x hx => ?_
    cases x with
    | ok _ => exact ⟨D, rfl, hx.1, hx.2.1⟩
    | error _ => exact ⟨D, rfl, hx.1, hx.2.1⟩
  | statfs =>
    obtain ⟨hw, w, rfl, hM⟩ := h
    refine wp_returns (attempt_rule (Op.run_stops cfg .statfs) Whole.ne_none (Mounted.statfs hw hM)) fun s o x hx => ?_
    cases x with
    | ok _ => exact ⟨D, rfl, hx.1, hx.2.1⟩
    | error _ => exact ⟨D, rfl, hx.1, hx.2.1⟩
  | create f =>
    obtain ⟨hw, w, rfl, hM⟩ := h
    obtain ⟨hn, hf, hD⟩ := hc
    refine (negated_rule (Op.run_stops cfg (.create f)) Whole.ne_none (Mounted.create hw hM ⟨hn, hf⟩ hD)).returns ?_
    intro ret s o hr
    obtain ⟨hw, ⟨rfl, hM⟩ | ⟨hlt, hM⟩⟩ := hr
    · exact ⟨_, .inl ⟨rfl, rfl⟩, hw, hM⟩
    · exact ⟨D, .inr ⟨hlt, rfl⟩, hw, hM⟩
  | truncate f n =>
    obtain ⟨hw, w, rfl, hM⟩ := h
    obtain ⟨hn, hf, hle, hcut⟩ := hc
    exact (negated_rule (Op.run_stops cfg (.truncate f n)) Missing.ne_none
      (Mounted.truncate hB hN ⟨hn, hf⟩ hle hcut hw hM)).returns fun ret s o hr => Shown.on hr.1 hr.2
  | unlink f =>
    obtain ⟨hw, w, rfl, hM⟩ := h
    exact (negated_rule (Op.run_stops cfg (.unlink f)) Missing.ne_none (Mounted.unlink hw hM hc)).returns
      fun ret s o hr => Shown.on hr.1 hr.2
  | rmdir f =>
    obtain ⟨hw, w, rfl, hM⟩ := h
    exact (negated_rule (Op.run_stops cfg (.rmdir f)) Whole.ne_none (Mounted.rmdir hw hM hc)).returns
      fun ret s o hr => ⟨D, rfl, hr.1, hr.2.elim And.right And.right⟩
  | mkdir f =>
    obtain ⟨hw, w, rfl, hM⟩ := h
    exact (negated_rule (Op.run_stops cfg (.mkdir f 511)) Whole.ne_none (Mounted.mkdir hw hM hc)).returns
      fun ret s o hr => ⟨D, rfl, hr.1, hr.2.elim And.right And.right⟩
  | flush f =>
    obtain ⟨hw, w, rfl, hM⟩ := h
    refine (negated_rule (Op.run_stops cfg (.flush f)) False.elim (Mounted.flush hB hN hw hM)).returns ?_
    intro ret s o hr
    obtain ⟨hw, ⟨rfl, hM⟩ | ⟨-, hX⟩⟩ := hr
    · exact ⟨_, ⟨rfl, rfl⟩, hw, hM⟩
    · exact hX.elim
  | chmod => exact ⟨D, ⟨rfl, rfl⟩, h⟩
  | chown => exact ⟨D, ⟨rfl, rfl⟩, h⟩
  | rename f g flags =>
    obtain ⟨hw, w, rfl, hM⟩ := h
    obtain ⟨hn, hf, hn', hg, hu⟩ := hc
    refine (negated_rule (Op.run_stops cfg (.rename f g flags)) Missing.ne_none
      (Mounted.rename hw hM ⟨hn, hf⟩ ⟨hn', hg⟩ hu)).returns ?_
    intro ret s o hr
    obtain ⟨hw, ⟨rfl, l, hl, hM⟩ | ⟨hlt, hM, hnone⟩⟩ := hr
    · exact ⟨_, Disk.on_some hl ⟨rfl, rfl⟩, hw, hM⟩
    · exact ⟨D, Disk.on_none hnone hlt, hw, hM⟩

end

end Nfs
