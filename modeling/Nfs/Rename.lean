/-
What a rename does to the data that is cached.

The server moves a file, or a directory with everything below it. The client
drops what it caches under the two names, and nothing else. So what was
written to the old name and not written back is lost, and of a directory
that is moved the files below it stay cached under names that are gone.
-/
import Nfs.StatSize

namespace Nfs

open PlainFile Resume

/-! ## Moving -/

/-- What follows the name of a path in the names of the paths below it: nothing
for the path itself, and otherwise a slash (47) and more. -/
def Tail (x : Str) : Prop := x = [] ∨ ∃ y, x = 47 :: y

/-- `f` has been moved to `g`, with everything below it. Neither lies below the
other. -/
structure Server.Moved (w : Server) (f g : Str) (w' : Server) : Prop where
  content : ∀ x, Tail x → w'.content (g ++ x) = w.content (f ++ x)
  apart : ∀ x, Tail x → x ≠ [] → g ≠ f ++ x ∧ f ≠ g ++ x

/-- One request to a server whose files form a tree. -/
def Server.ServeTree (w : Server) (r : Req) (a : r.Resp) (w' : Server) : Prop :=
  w.Serve r a w' ∧
    match r, a with
    | .rename f g _, a => a.error = 0 → w.Moved f g w'
    | _, _ => True

/-- What the user of `f`, and of the paths below it, finds at `g` after the
rename: the contents that were shown before, also on the server once they
are flushed, and nothing that is cached under the old names. -/
structure Renamed (cfg : Config) (f g : Str) (s : NetFS) (w : Server) (s' : NetFS) (w' : Server) : Prop where
  shown : ∀ x, Tail x → s'.view cfg w' (g ++ x) = s.view cfg w (f ++ x)
  flushed : ∀ x, Tail x → ∀ s'' o w'', Exec Server.ServeOk (NetFS.flush cfg (g ++ x) s') w' s'' o w'' →
    w''.content (g ++ x) = s.view cfg w (f ++ x)
  dropped : ∀ x, Tail x → s'.files (f ++ x) = none

/-- Nothing of `f` waits to be written back, nothing below it is cached, and
what is cached below `g` is what comes to be there. -/
structure Settled (cfg : Config) (f g : Str) (s : NetFS) (w : Server) : Prop where
  self : s.view cfg w f = w.content f
  below : ∀ x, Tail x → x ≠ [] → s.files (f ++ x) = none
  target : ∀ x, Tail x → x ≠ [] → s.files.view cfg.blockSize (g ++ x) (w.content (f ++ x)) = w.content (f ++ x)

/-! ## Flushing what the server has -/

section
variable {B : Nat} {fc fc' : FileCache} {l : Bytes} {V : Files} {w : Server} {f : Str} {v : Option Bytes}

/-- The cached bytes are those of `l`, as far as it reaches. -/
def FileCache.Agrees (B : Nat) (fc : FileCache) (l : Bytes) : Prop :=
  fc.attr.size = l.length ∧ ∀ x b, fc.byte B x = some b → x < l.length → b = byteAt l x

theorem FileCache.view_eq_self : fc.view B l = l ↔ fc.Agrees B l := by
  constructor
  · intro h
    have hsize : fc.attr.size = l.length := by simpa using congrArg List.length h
    refine ⟨hsize, fun x b hb hx => ?_⟩
    rw [← h, FileCache.byteAt_view, if_pos (by omega), hb, Option.getD_some]
  · rintro ⟨hsize, hby⟩
    refine ext_byteAt (by simp [hsize]) fun x => ?_
    rw [FileCache.byteAt_view]
    split
    · rename_i hx
      cases hb : fc.byte B x with
      | none => rfl
      | some b => exact hby x b hb (by omega)
    · exact (byteAt_of_le (by omega)).symm

/-- The server has what is shown of `f`. -/
def Shared (B : Nat) (f : Str) (v : Option Bytes) (V : Files) (w : Server) : Prop :=
  w.content f = v ∧ V.view B f v = v

/-- While `f` is written back, the server's file may be too long. -/
def Sharing (B : Nat) (f : Str) (v : Option Bytes) (V : Files) (w : Server) : Prop :=
  ∃ fc c l, V f = some fc ∧ w.content f = some c ∧ v = some l ∧ fc.Agrees B l ∧
    ∀ x, x < l.length → byteAt c x = byteAt l x

/-- Sending cached data changes no byte of the content. -/
theorem FileCache.Agrees.byteAt_pwrite {c l data : Bytes} {off x : Nat} (h : fc.Agrees B l)
    (hby : ∀ x, x < l.length → byteAt c x = byteAt l x) (hx : fc.Extent B off data) (k : Nat) (hlt : x < l.length) :
    byteAt (pwrite c off (data.take k)) x = byteAt l x := by
  rw [PlainFile.byteAt_pwrite]
  split
  · rename_i hin
    rw [List.length_take] at hin
    have hb := hx.byte (x - off) (by omega)
    rw [show off + (x - off) = x by omega] at hb
    rw [byteAt_take, if_pos (by omega)]
    exact h.2 x _ hb hlt
  · exact hby x hlt

/-- Cut to the cached size, the server's file is the content. -/
theorem FileCache.Agrees.ftruncate_eq {c l : Bytes} (h : fc.Agrees B l)
    (hby : ∀ x, x < l.length → byteAt c x = byteAt l x) : ftruncate c fc.attr.size = l := by
  have hsize : fc.attr.size = l.length := h.1
  refine ext_byteAt (by rw [length_ftruncate, hsize]) fun x => ?_
  rw [byteAt_ftruncate]
  split
  · exact hby x (by omega)
  · exact (byteAt_of_le (by omega)).symm

theorem Shared.flushes (f : Str) :
    Flushes soloOk.back B (Shared B f v) (fun _ _ => False) (fun _ => Sharing B f v) f := by
  refine ⟨fun _ _ => trivial, ?_, ?_, ?_, ?_, False.elim⟩
  · rintro V w fc ⟨hc, hv⟩ hf -
    rw [Files.view_some hf] at hv
    cases v with
    | none => cases hv
    | some l => exact ⟨fc, l, l, hf, hc, rfl, FileCache.view_eq_self.mp (Option.some.inj hv), fun _ _ => rfl⟩
  · rintro V w _ w₂ S fc off data a ⟨fc₁, c, l, hf₁, hc, hl, hag, hby⟩ hf hx rfl hs
    cases hf₁.symm.trans hf
    have hno := soloOk_ok hs
    obtain ⟨-, k, hk⟩ := soloOk_contents.contentWb hs
    refine ⟨fun _ => ⟨_, _, l, Files.set_self, ?_, hl, hag, fun x hlt => hag.byteAt_pwrite hby hx k hlt⟩,
      fun he => absurd he hno⟩
    rw [hk, hc, Option.map_some]
  · rintro V w S fc fc' ⟨fc₁, c, l, hf₁, hc, hl, hag, hby⟩ hf - hclean
    cases hf₁.symm.trans hf
    refine ⟨fc', c, l, Files.set_self, hc, hl, ⟨by rw [hclean.attr]; exact hag.1, fun x b hb => ?_⟩, hby⟩
    rw [hclean.byte] at hb
    exact hag.2 x b hb
  · rintro V w _ w₂ fc a ⟨fc₁, c, l, hf₁, hc, hl, hag, hby⟩ hf rfl hs
    cases hf₁.symm.trans hf
    have hno := soloOk_ok hs
    obtain ⟨hsize, -, hcont⟩ := soloOk_contents.attrWb hs
    refine ⟨fun he => ?_, fun he => absurd he hno⟩
    have hcut := hcont.resolve_right fun h => h.1 he
    rw [hc, Option.map_some, hag.ftruncate_eq hby, ← hl] at hcut
    refine ⟨hcut, ?_⟩
    rw [Files.view_set_self, hl, Option.getD_some]
    exact congrArg some (FileCache.view_eq_self.mpr ⟨hsize.trans hag.1, hag.2⟩)

end

section
variable {cfg : Config} {s s' s'' : NetFS} {w w' w'' : Server} {f g : Str}

/-- Where the server has what is shown, a flush leaves it so. -/
theorem flush_shared (hB : 0 < cfg.blockSize) (h : s.cache.Wf cfg.blockSize) (hv : s.view cfg w f = w.content f)
    {o : Outcome Unit} (hx : Exec Server.ServeOk (NetFS.flush cfg f s) w s' o w') : w'.content f = w.content f := by
  have hJ : Shared cfg.blockSize f (w.content f) s.files w := ⟨rfl, hv⟩
  have hwp : ((NetFS.flush cfg f) s).wp soloOk.net
      (NetFS.Ends cfg.blockSize (fun _ v => v.content f = w.content f) (fun _ _ => False) fun _ => True) w := by
    exact NetFS.onCache_wp.mpr (Cache.Ends.conseq (Cache.flush_rule (Shared.flushes f) hB h hJ)
      (fun _ _ _ h hJ _ => ⟨h, (hJ.resolve_right id).1.1, trivial⟩) fun _ _ _ _ hX => hX.elim)
  have hend := hwp.exec hx
  cases o with
  | ok _ => exact hend.2.1
  | err _ => exact hend.2.elim
  | fault => exact hend.elim

/-- What `rename` does when it returns 0. -/
theorem rename_spec {flags : UInt32} (h : s.cache.Wf cfg.blockSize)
    (hx : Exec Server.ServeTree ((Op.rename f g flags).run cfg s) w s' (.ok ()) w') :
    s'.cache.Wf cfg.blockSize ∧ w.Moved f g w' ∧ s'.files = (s.files.drop f).drop g := by
  have hwp : (NetFS.rename f g flags s).wp (Service.solo Server.ServeTree).net (NetFS.Ends cfg.blockSize
      (fun V v => w.Moved f g v ∧ V = (s.files.drop f).drop g) (fun _ _ => True) fun _ => True) w := by
    refine NetFS.rename_rule h trivial ?_
    rintro _ w₂ a rfl ⟨-, hm⟩
    exact ⟨fun _ => trivial, fun he => ⟨hm he, rfl⟩⟩
  obtain ⟨hw, ⟨hm, hV⟩, -⟩ := hwp.exec hx
  exact ⟨hw, hm, hV⟩

/-- What is cached after the rename, below the two names. -/
theorem Server.Moved.files (hm : w.Moved f g w') (hV : s'.files = (s.files.drop f).drop g) :
    s'.files f = none ∧ s'.files g = none ∧
      ∀ x, Tail x → x ≠ [] → s'.files (f ++ x) = s.files (f ++ x) ∧ s'.files (g ++ x) = s.files (g ++ x) := by
  have hlonger : ∀ (p x : Str), x ≠ [] → p ++ x ≠ p := fun p x hx h => hx (List.append_right_eq_self.mp h)
  rw [hV]
  refine ⟨?_, Files.drop_self, fun x ht hx => ?_⟩
  · by_cases hfg : f = g
    · rw [hfg, Files.drop_self]
    · rw [Files.drop_other hfg, Files.drop_self]
  · obtain ⟨hg, hf⟩ := hm.apart x ht hx
    rw [Files.drop_other hg.symm, Files.drop_other (hlonger f x hx), Files.drop_other (hlonger g x hx),
      Files.drop_other hf.symm]
    exact ⟨rfl, rfl⟩

/-- **A rename keeps what is shown** just when the cache is settled before. -/
theorem Server.Moved.renamed_iff (hB : 0 < cfg.blockSize) (hw' : s'.cache.Wf cfg.blockSize) (hm : w.Moved f g w')
    (hV : s'.files = (s.files.drop f).drop g) : Renamed cfg f g s w s' w' ↔ Settled cfg f g s w := by
  obtain ⟨hf, hg, hbelow⟩ := hm.files hV
  have hself : s'.view cfg w' g = w.content f := by
    rw [NetFS.view, Files.view_none hg]
    simpa using hm.content [] (.inl rfl)
  have htarget : ∀ x, Tail x → x ≠ [] →
      s'.view cfg w' (g ++ x) = s.files.view cfg.blockSize (g ++ x) (w.content (f ++ x)) := by
    intro x ht hx
    rw [NetFS.view, hm.content x ht, Files.view, (hbelow x ht hx).2, Files.view]
  constructor
  · intro h
    have hnone : ∀ x, Tail x → x ≠ [] → s.files (f ++ x) = none :=
      fun x ht hx => (hbelow x ht hx).1.symm.trans (h.dropped x ht)
    refine ⟨?_, hnone, fun x ht hx => ?_⟩
    · have := h.shown [] (.inl rfl)
      rw [List.append_nil, List.append_nil, hself] at this
      exact this.symm
    · rw [← htarget x ht hx, h.shown x ht, NetFS.view, Files.view_none (hnone x ht hx)]
  · intro h
    have hshown : ∀ x, Tail x → s'.view cfg w' (g ++ x) = s.view cfg w (f ++ x) := by
      intro x ht
      by_cases hx : x = []
      · rw [hx, List.append_nil, List.append_nil, hself, h.self]
      · rw [htarget x ht hx, h.target x ht hx, NetFS.view, Files.view_none (h.below x ht hx)]
    have hserver : ∀ x, Tail x → s'.view cfg w' (g ++ x) = w'.content (g ++ x) := by
      intro x ht
      rw [hm.content x ht]
      by_cases hx : x = []
      · rw [hx, List.append_nil, List.append_nil, hself]
      · rw [htarget x ht hx, h.target x ht hx]
    refine ⟨hshown, fun x ht s'' o w'' hx => ?_, fun x ht => ?_⟩
    · rw [flush_shared hB hw' (hserver x ht) hx, ← hserver x ht, hshown x ht]
    · by_cases hx : x = []
      · rw [hx, List.append_nil, hf]
      · rw [(hbelow x ht hx).1, h.below x ht hx]

end

section
variable {ι : Type} [DecidableEq ι] {cfg : ι → Config} {A : ι} {S : System ι} {s s' : NetFS} {f g : Str} {w' : Server}

/-- **A rename that returns 0** keeps the contents, of the path and of all
paths below it, just when nothing of the path waits to be written back,
nothing below it is cached, and what is cached below the new name is what
comes to be there. -/
theorem rename_keeps_iff (hB : 0 < (cfg A).blockSize) (h : Reach cfg S) (hi : S.threads A = .idle s)
    (hx : Exec Server.ServeTree ((Op.rename f g 0).run (cfg A) s) S.world s' (.ok ()) w') :
    (Renamed (cfg A) f g s S.world s' w' ↔ Settled (cfg A) f g s S.world) ∧
    ∀ x, ReadsShown (cfg A) s S.world (f ++ x) ∧ ReadsShown (cfg A) s' w' (g ++ x) := by
  have hw := h.idle_wf hB hi
  obtain ⟨hw', hm, hV⟩ := rename_spec hw hx
  exact ⟨hm.renamed_iff hB hw' hV, fun x => ⟨.of_wf hB hw, .of_wf hB hw'⟩⟩

end

/-- A change time that `oneFile` has never had. -/
def later : FileTime := { FileTime.epoch with ctime := ⟨1, 0⟩ }

/-- `oneFile` after its file has been moved. -/
def movedFile : Server where
  files f := if f = [103] then some { content := [1, 2, 3], mode := 0, time := later } else none
  had _ t := t = FileTime.epoch.stamp ∨ t = later.stamp
  own {f s} h := by
    split at h
    · cases h
      exact .inr rfl
    · cases h

theorem oneFile_moved : oneFile.ServeTree (.rename [102] [103] 0) { error := 0 } movedFile := by
  refine ⟨⟨fun _ => ⟨fun f => ⟨fun t ht => .inl ht, fun s' hs' ht => ?_⟩, rfl, rfl, fun _ => rfl⟩,
    fun he => absurd rfl he⟩, fun _ => ⟨fun x _ => ?_, fun x _ _ => by simp⟩⟩
  · change (if f = [103] then _ else none) = some s' at hs'
    split at hs'
    · cases hs'
      exact absurd (show later.stamp = FileTime.epoch.stamp from ht) (by decide)
    · cases hs'
  · cases x with
    | nil => rfl
    | cons a y => simp [Server.content, movedFile, oneFile]

theorem invalidate_done {B : Nat} {s : NetFS} (f : Str) (h : s.cache.Wf B) :
    ∃ s', s'.cache.Wf B ∧ NetFS.invalidate f s = .done s' (.ok ()) := by
  obtain ⟨c, hc, hw, -⟩ := Cache.invalidate_spec (f := f) h
  refine ⟨{ s with cache := c }, hw, ?_⟩
  simp [NetFS.invalidate, NetFS.onCache, Cache.local_, Prog.step, hc, Act.lift]

/-- A rename that the server carries out. -/
theorem exec_rename {serve : Server → (r : Req) → r.Resp → Server → Prop} {c : Config} {s : NetFS} {w w' : Server}
    {f g : Str} {flags : UInt32} (h : s.cache.Wf c.blockSize) (hs : serve w (.rename f g flags) { error := 0 } w') :
    ∃ s', Exec serve ((Op.rename f g flags).run c s) w s' (.ok ()) w' := by
  obtain ⟨s₁, h₁, hf⟩ := invalidate_done f h
  obtain ⟨s₂, -, hg⟩ := invalidate_done g h₁
  refine ⟨s₂, Exec.ask (a := ({ error := 0 } : ErrorResp)) s hs ?_⟩
  show Exec serve ((NetFS.invalidate f s).bind fun _ => NetFS.invalidate g) w' s₂ _ w'
  rw [hf]
  show Exec serve (NetFS.invalidate g s₁) w' s₂ _ w'
  rw [hg]
  exact .done ..

/-- A client that has read two bytes of the file. -/
def readClient : NetFS := (readOnlyRun (.read [102] 0 2) (smallCache true) .new oneFile).1

theorem readClient_files {g : Str} (hg : g ≠ [102]) : readClient.files g = none := by
  have hkeys : readClient.cache.fileMap.keys = [[102]] := by decide +kernel
  refine AList.lookup_eq_none.mpr fun hm => hg ?_
  rw [AList.mem_keys, hkeys] at hm
  exact List.mem_singleton.mp hm

/-- The client has the first block of the file, as the server has it. -/
theorem rename_keeps_iff_cached : ∃ (S : System Bool) (s' : NetFS), Reach smallCache S ∧ S.world = oneFile ∧
    S.threads true = .idle readClient ∧ readClient.cache.countCachedBlocks = 1 ∧
    Exec Server.ServeTree ((Op.rename [102] [103] 0).run (smallCache true) readClient) oneFile s' (.ok ()) movedFile ∧
      Settled (smallCache true) [102] [103] readClient oneFile ∧
      Renamed (smallCache true) [102] [103] readClient oneFile s' movedFile := by
  obtain ⟨-, S, -, -, hr, -, hw, hc⟩ := readOnly_steps (.read [102] 0 2) (Reach smallCache) (i := true)
    (S := ⟨oneFile, fun _ => .idle .new⟩) (o := .ok [1, 2]) (by decide +kernel) rfl rfl (.start fun _ => rfl)
    fun h hs _ _ => h.step hs
  have hw : S.world = oneFile := hw
  have hc : S.threads true = .idle readClient := hc
  obtain ⟨s', hx⟩ := exec_rename (c := smallCache true) (hr.idle_wf (by decide) hc) oneFile_moved
  have hset : Settled (smallCache true) [102] [103] readClient oneFile := by
    refine ⟨by decide +kernel, fun x _ hx => readClient_files (by simpa using hx), fun x _ hx => ?_⟩
    exact Files.view_none (readClient_files (by simp))
  refine ⟨S, s', hr, hw, hc, by decide +kernel, hx, hset, ?_⟩
  rw [← hw] at hx hset ⊢
  exact (rename_keeps_iff (by decide) hr hc hx).1.mpr hset

/-- **A write that a rename loses**: the byte has been acknowledged and not
written back. -/
theorem rename_loses_write : ∃ (S : System Bool) (s' : NetFS), Reach smallCache S ∧ S.world = oneFile ∧
    S.threads true = .idle acked ∧ acked.view (smallCache true) oneFile [102] = some [9, 2, 3] ∧
    Exec Server.ServeTree ((Op.rename [102] [103] 0).run (smallCache true) acked) oneFile s' (.ok ()) movedFile ∧
      s'.view (smallCache true) movedFile [103] = some [1, 2, 3] := by
  obtain ⟨-, S, -, -, hr, -, hw, hc⟩ := readOnly_steps (.write [102] 0 [9]) (Reach smallCache) (i := true)
    (S := ⟨oneFile, fun _ => .idle .new⟩) (o := .ok ()) (by decide +kernel) rfl rfl (.start fun _ => rfl)
    fun h hs _ _ => h.step hs
  have hwf := hr.idle_wf (by decide) hc
  obtain ⟨s', hx⟩ := exec_rename (c := smallCache true) hwf oneFile_moved
  obtain ⟨-, hm, hV⟩ := rename_spec hwf hx
  refine ⟨S, s', hr, hw, hc, by decide +kernel, hx, ?_⟩
  rw [NetFS.view, Files.view_none (hm.files hV).2.1]
  rfl

end Nfs
