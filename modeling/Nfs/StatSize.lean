/-
The size that `stat` reports, and the one at which reads stop.

`stat` reports the length of the server's file. Reads stop at the cached
size, which every write moves at once, while the server learns of it when
the file is written back. So for a client that is alone with a server that
does not fail, `stat` is right unless there are bytes past the server's end
of the file that the client still has to send.
-/
import Nfs.Acknowledged
import Nfs.LoneClient
import Nfs.View

namespace Nfs

open PlainFile Resume

/-! ## Runs of one client -/

/-- No request fails. -/
def Server.ServeOk (w : Server) (r : Req) (a : r.Resp) (w' : Server) : Prop := w.Serve r a w' ∧ r.error a = 0

/-- A run of a client that is alone with the server, with its calls. -/
inductive ClientRun (cfg : Config) (allowed : Op → Prop) (w₀ : Server) : List Op → NetFS → Server → Prop
  | start : ClientRun cfg allowed w₀ [] .new w₀
  | call : ClientRun cfg allowed w₀ ops s w → allowed op → Exec Server.ServeOk (op.run cfg s) w s' o w' →
      ClientRun cfg allowed w₀ (ops ++ [op]) s' w'

/-- What the call does to local files. -/
def Op.apply : Op → PlainFiles → PlainFiles
  | .write f offset buf, L => Plain.modify L f (pwrite · offset buf)
  | .truncate f n, L => Plain.modify L f (ftruncate · n)
  | _, L => L

/-- Local files after the calls. -/
def localAfter (w₀ : Server) (ops : List Op) : PlainFiles := ops.foldl (fun L op => op.apply L) w₀.content

@[simp] theorem localAfter_snoc {w₀ : Server} {ops : List Op} {op : Op} :
    localAfter w₀ (ops ++ [op]) = op.apply (localAfter w₀ ops) := by
  simp [localAfter]

/-- The calls of the run: reads, writes that store something, truncates,
flushes and checks. -/
def Op.Sized (op : Op) : Prop := op.Lone ∧ ∀ f off buf, op = .write f off buf → buf ≠ []

/-! ## Sizes -/

/-- The server's file has `n` bytes, and where that is less than the cached
size, the last byte is dirty. -/
def FileCache.Behind (B n : Nat) (fc : FileCache) : Prop :=
  n ≤ fc.attr.size ∧
    (n < fc.attr.size → (fc.byte B (fc.attr.size - 1)).isSome ∧ fc.dirtyAt B (fc.attr.size - 1))

/-- The cached size is the local file's. -/
def SizeAt (B : Nat) (L : PlainFiles) (f : Str) (srv : Option Bytes) : Option FileCache → Prop
  | none => srv.map List.length = (L f).map List.length
  | some fc => ∃ c l, srv = some c ∧ L f = some l ∧ l.length = fc.attr.size ∧ fc.Behind B c.length

def Sizes (B : Nat) (L : PlainFiles) (V : Files) (w : Server) : Prop := ∀ f, SizeAt B L f (w.content f) (V f)

/-- While `f` is written back, nothing is known of the server's size of it. -/
def SizeOwed (B : Nat) (L : PlainFiles) (f : Str) (V : Files) (w : Server) : Prop :=
  (∀ g, g ≠ f → SizeAt B L g (w.content g) (V g)) ∧
    ∃ fc c l, V f = some fc ∧ w.content f = some c ∧ L f = some l ∧ l.length = fc.attr.size

section
variable {B : Nat} {L L' : PlainFiles} {V V' : Files} {w w' : Server} {f : Str} {fc fc' : FileCache}

theorem SizeAt.congr {srv : Option Bytes} {o : Option FileCache} (h : SizeAt B L f srv o) (hL : L' f = L f) :
    SizeAt B L' f srv o := by
  cases o with
  | none => rwa [SizeAt, hL]
  | some fc => rwa [SizeAt, hL]

theorem Sizes.set (h : ∀ g, g ≠ f → SizeAt B L g (w.content g) (V g)) (hL : ∀ g, g ≠ f → L' g = L g)
    (hw : ∀ g, g ≠ f → w'.content g = w.content g) (hf : SizeAt B L' f (w'.content f) (some fc)) :
    Sizes B L' (V.set f fc) w' := by
  refine Files.forall_set hf fun g hg => ?_
  rw [hw g hg]
  exact (h g hg).congr (hL g hg)

theorem FileCache.Behind.of_eq {n : Nat} (h : n = fc.attr.size) : fc.Behind B n :=
  ⟨h.le, fun hlt => absurd hlt (by omega)⟩

abbrev soloOk : Service Server := .solo Server.ServeOk

theorem soloOk_contents : Contents soloOk.back Server.content := Service.solo_contents id fun hs => hs.1

theorem soloOk_ok {r : Call} {a : r.Ans} (hs : soloOk.back.serve w r a w') : ¬ Plain.failed r a := by
  obtain ⟨resp, hs, rfl⟩ := hs
  exact fun h => Call.failed_ans.mp h hs.2

theorem Sizes.fetches (f : Str) : Fetches soloOk.back B (Sizes B L) (fun _ _ => False) f := by
  refine ⟨fun _ _ => trivial, ?_, ?_⟩
  · rintro V w _ w₂ a h hf rfl hs
    have hno := soloOk_ok hs
    obtain ⟨hc, hok⟩ := soloOk_contents.attrFt hs
    refine ⟨fun he => ?_, fun he => absurd he hno⟩
    obtain ⟨c, hcf, hlen⟩ := hok he
    refine .set (fun g _ => h g) (fun _ _ => rfl) (fun g _ => by rw [hc]) ?_
    have hn := h f
    rw [hf, hcf] at hn
    obtain ⟨l, hl, hll⟩ := Option.map_eq_some_iff.mp (Eq.symm hn : (L f).map List.length = some c.length)
    exact ⟨c, l, by rw [hc, hcf], hl, hll.trans hlen, .of_eq hlen⟩
  · rintro V w _ w₂ fc start n a h hf rfl hs
    have hno := soloOk_ok hs
    obtain ⟨hc, hok⟩ := soloOk_contents.contentFt hs
    refine ⟨fun he fc' hfill => ?_, fun he => absurd he hno⟩
    refine .set (fun g _ => h g) (fun _ _ => rfl) (fun g _ => by rw [hc]) ?_
    have hn := h f
    rw [hf] at hn
    obtain ⟨c, l, hcf, hl, hll, hle, hd⟩ := hn
    refine ⟨c, l, by rw [hc, hcf], hl, by rw [hfill.attr]; exact hll, ?_⟩
    rw [FileCache.Behind, hfill.attr]
    refine ⟨hle, fun hlt => ?_⟩
    obtain ⟨hv, hdirty⟩ := hd hlt
    refine ⟨?_, (hfill.dirty _).mpr hdirty⟩
    rw [hfill.byte]
    split
    · rfl
    · exact hv

theorem Sizes.flushes (f : Str) :
    Flushes soloOk.back B (Sizes B L) (fun _ _ => False) (fun _ => SizeOwed B L f) f := by
  refine ⟨fun _ _ => trivial, ?_, ?_, ?_, ?_, False.elim⟩
  · intro V w fc h hf _
    have hn := h f
    rw [hf] at hn
    obtain ⟨c, l, hc, hl, hll, -⟩ := hn
    exact ⟨fun g _ => h g, fc, c, l, hf, hc, hl, hll⟩
  · rintro V w _ w₂ S fc off data a ⟨ho, fc₁, c, l, hf₁, hc, hl, hll⟩ hf - rfl hs
    cases hf₁.symm.trans hf
    have hno := soloOk_ok hs
    obtain ⟨hw, k, hk⟩ := soloOk_contents.contentWb hs
    refine ⟨fun _ => ⟨fun g hg => ?_, _, _, l, Files.set_self, by rw [hk, hc, Option.map_some], hl, hll⟩,
      fun he => absurd he hno⟩
    rw [Files.set_other hg, hw g hg]
    exact ho g hg
  · rintro V w S fc fc' ⟨ho, fc₁, c, l, hf₁, hc, hl, hll⟩ hf - hclean
    cases hf₁.symm.trans hf
    refine ⟨fun g hg => ?_, fc', c, l, Files.set_self, hc, hl, by rw [hclean.attr]; exact hll⟩
    rw [Files.set_other hg]
    exact ho g hg
  · rintro V w _ w₂ fc a ⟨ho, fc₁, c, l, hf₁, hc, hl, hll⟩ hf rfl hs
    cases hf₁.symm.trans hf
    have hno := soloOk_ok hs
    obtain ⟨hsize, hw, hcont⟩ := soloOk_contents.attrWb hs
    refine ⟨fun he => .set ho (fun _ _ => rfl) hw ?_, fun he => absurd he hno⟩
    have hcut := hcont.resolve_right fun h => h.1 he
    rw [hcut, hc, Option.map_some]
    exact ⟨_, l, rfl, hl, hll.trans hsize.symm, .of_eq (by rw [length_ftruncate]; exact hsize.symm)⟩

/-- Without a dirty block the server has the size. -/
theorem Sizes.thinned (h : Sizes B L V w) (hclean : ∀ f fc, V f = some fc → fc.AllClean) (ht : V.Thinned V') :
    Sizes B L V' w := by
  intro f
  have hn := h f
  rcases ht f with ⟨hf, hf'⟩ | ⟨fc, fc', hf, hf', hth⟩
  · rw [hf] at hn
    rw [hf']
    exact hn
  · rw [hf] at hn
    rw [hf']
    obtain ⟨c, l, hc, hl, hll, hle, hd⟩ := hn
    have heq : c.length = fc.attr.size :=
      hle.eq_or_lt.resolve_right fun hlt => (hclean f fc hf).not_dirtyAt (hd hlt).2
    exact ⟨c, l, hc, hl, by rw [hth.attr]; exact hll, .of_eq (by rw [hth.attr]; exact heq)⟩

theorem Sizes.stored {off : Nat} {buf : Bytes} (hne : buf ≠ []) (h : Sizes B L V w) (hf : V f = some fc)
    (hst : fc.Stored B off buf fc') : Sizes B ((Op.write f off buf).apply L) (V.set f fc') w := by
  have hn := h f
  rw [hf] at hn
  obtain ⟨c, l, hc, hl, hll, hle, hd⟩ := hn
  have hpos := List.length_pos_iff.mpr hne
  have hsize : fc'.attr.size = max fc.attr.size (off + buf.length) := by rw [hst.attr]
  refine .set (fun g _ => h g) (fun g hg => Plain.modify_other hg) (fun _ _ => rfl)
    ⟨c, pwrite l off buf, hc, ?_, by rw [length_pwrite hne, hll, hsize], by omega, fun hlt => ?_⟩
  · show Plain.modify L f _ f = _
    rw [Plain.modify_self, hl]
    rfl
  -- The last byte has just been stored, or it was there before.
  · by_cases hext : fc.attr.size < off + buf.length
    · have hlast : off ≤ fc'.attr.size - 1 ∧ fc'.attr.size - 1 < off + buf.length := by omega
      rw [hst.byte, if_pos hlast]
      exact ⟨rfl, (hst.dirty _).mpr (.inr ⟨_, hlast.1, hlast.2, rfl⟩)⟩
    · have hsame : fc'.attr.size = fc.attr.size := by omega
      rw [hsame] at hlt ⊢
      obtain ⟨hv, hdirty⟩ := hd hlt
      refine ⟨?_, (hst.dirty _).mpr (.inl hdirty)⟩
      rw [hst.byte]
      split
      · rfl
      · exact hv

theorem Sizes.truncate {n : Nat} {c : Cache} (hw : c.Wf B) (h : Sizes B L c.file w) :
    (Cache.truncate B f n c).wp soloOk.back
      (Cache.Ends B (Sizes B ((Op.truncate f n).apply L)) (fun _ _ => False) fun _ _ _ => True) w := by
  have hL : ∀ g, g ≠ f → (Op.truncate f n).apply L g = L g := fun g hg => Plain.modify_other hg
  have hself : ∀ {l}, L f = some l → (Op.truncate f n).apply L f = some (ftruncate l n) := by
    intro l hl
    show Plain.modify L f _ f = _
    rw [Plain.modify_self, hl]
    rfl
  refine Cache.truncate_rule (K := SizeOwed B ((Op.truncate f n).apply L) f) (Sizes.fetches f) ?_ ?_
    (fun _ _ => trivial) (Sizes.flushes f).attrWb id hw h
  · intro V w fc hV hf hn g
    by_cases hg : g = f
    · subst hg
      have hat := hV g
      rw [hf] at hat ⊢
      obtain ⟨c, l, hc, hl, -, hbe⟩ := hat
      exact ⟨c, _, hc, hself hl, by rw [length_ftruncate]; exact hn, hbe⟩
    · exact (hV g).congr (hL g hg)
  · intro V w fc fc' hV hf _ _ hre
    have hat := hV f
    rw [hf] at hat
    obtain ⟨c, l, hc, hl, -⟩ := hat
    refine ⟨fun g hg => ?_, fc', c, _, Files.set_self, hc, hself hl, by rw [length_ftruncate, hre.attr]⟩
    rw [Files.set_other hg]
    exact (hV g).congr (hL g hg)

/-- What a check finds agrees with what is cached. -/
theorem Current.kept {t : FileTime} {sf : SFile} (h : Current V w) (hf : w.files f = some sf) (ht : t = sf.time)
    (hV : Sizes B L V w) : (V.Agrees f t → Sizes B L V w) ∧ (¬ V.Agrees f t → Sizes B L (V.drop f) w) :=
  ⟨fun _ => hV, fun hn => absurd (ht ▸ h.agrees hf) hn⟩

/-- **One operation.** -/
theorem Sizes.run {cfg : Config} {s : NetFS} {op : Op} (hB : 0 < cfg.blockSize) (hop : op.Sized)
    (hw : s.cache.Wf cfg.blockSize) (hc : Current s.files w) (h : Sizes cfg.blockSize L s.files w) :
    (op.run cfg s).wp soloOk.net
      (NetFS.Ends cfg.blockSize (Sizes cfg.blockSize (op.apply L)) (fun _ _ => False) fun _ => True) w := by
  cases op with
  | read f off n =>
    exact NetFS.read_rule hB (Sizes.fetches f) Sizes.flushes Sizes.thinned (fun _ _ => trivial) hw h
  | write f off buf =>
    exact NetFS.Ends.mono (NetFS.write_rule hB (Sizes.fetches f) (.stored (hop.2 f off buf rfl)) Sizes.flushes
      Sizes.thinned hw h) id (fun hX => hX.elim id id) fun _ h => h
  | truncate f n => exact NetFS.onCache_rule (Sizes.truncate hw h) fun _ _ _ => trivial
  | flush f => exact NetFS.flush_rule hB Sizes.flushes hw h
  | access f =>
    refine NetFS.access_rule hw trivial ?_
    rintro _ w₂ a rfl ⟨⟨rfl, hok⟩, he⟩
    obtain ⟨sf, hf, ht⟩ := hok he
    exact ⟨fun hne => absurd he hne, fun _ => hc.kept hf ht h⟩
  | stat f =>
    refine NetFS.stat_rule hw trivial ?_
    rintro _ w₂ a rfl ⟨⟨rfl, hok⟩, he⟩
    obtain ⟨sf, hf, -, -, ht⟩ := hok he
    exact ⟨fun hne => absurd he hne, fun _ => ⟨trivial, hc.kept hf ht h⟩⟩
  | _ => exact hop.1.elim

end

/-! ## The run -/

section
variable {cfg : Config} {w₀ w w' : Server} {ops : List Op} {s s' : NetFS} {f : Str}

/-- **A run.** -/
theorem ClientRun.sizes (hB : 0 < cfg.blockSize) (h : ClientRun cfg Op.Sized w₀ ops s w) :
    s.cache.Wf cfg.blockSize ∧ Current s.files w ∧ Sizes cfg.blockSize (localAfter w₀ ops) s.files w := by
  induction h with
  | start => exact ⟨Cache.empty_wf, fun f fc hf => (by cases hf), fun f => rfl⟩
  | @call ops s w op s' o w' _ hop hx ih =>
    obtain ⟨hw, hc, hs⟩ := ih
    obtain ⟨-, ⟨hw', hc'⟩, -⟩ := (Current.run hB hop.1 hw hc).exec_in Server.Still.refl id hx
    have hend := (Sizes.run hB hop hw hc hs).exec hx
    rw [localAfter_snoc]
    cases o with
    | ok _ => exact ⟨hw', hc', hend.2.1⟩
    | err _ => exact hend.2.elim
    | fault => exact hend.elim

/-- What `stat` does. -/
theorem stat_spec {attr : FileAttr} (hw : s.cache.Wf cfg.blockSize) (hc : Current s.files w)
    (hx : Exec Server.ServeOk ((Op.stat f).run cfg s) w s' (.ok attr) w') :
    s'.cache.Wf cfg.blockSize ∧ (w' = w ∧ s'.files = s.files) ∧
      ∃ srv, w.content f = some srv ∧ attr.size = srv.length := by
  have hend : (NetFS.stat f s).wp soloOk.net (NetFS.Ends cfg.blockSize (fun V v => v = w ∧ V = s.files)
      (fun _ _ => False) fun attr => ∃ srv, w.content f = some srv ∧ attr.size = srv.length) w := by
    refine NetFS.stat_rule hw trivial ?_
    rintro _ w₂ a rfl ⟨⟨rfl, hok⟩, he⟩
    obtain ⟨sf, hf, hsize, -, ht⟩ := hok he
    refine ⟨fun hne => absurd he hne, fun _ => ⟨⟨sf.content, by rw [Server.content, hf]; rfl, hsize⟩,
      fun _ => ⟨rfl, rfl⟩, fun hn => absurd (ht ▸ hc.agrees hf) hn⟩⟩
  exact hend.exec hx

/-- **The size `stat` reports** is the length of the local file, at which reads
stop, just when the client holds no byte of the file past the server's end
that is still to be sent. -/
theorem stat_size_iff {attr : FileAttr} (hB : 0 < cfg.blockSize) (h : ClientRun cfg Op.Sized w₀ ops s w)
    (hx : Exec Server.ServeOk ((Op.stat f).run cfg s) w s' (.ok attr) w') :
    ∃ srv l, w.content f = some srv ∧ localAfter w₀ ops f = some l ∧
      (∀ off n s'' data w'', Exec Server.ServeOk (NetFS.read cfg f off n s') w' s'' (.ok data) w'' →
        data.length = min n (l.length - off)) ∧
      (attr.size = l.length ↔ ∀ x v, Held cfg.blockSize f x v s.files → x < l.length → x < srv.length) := by
  obtain ⟨hw, hc, hs⟩ := h.sizes hB
  obtain ⟨hw', ⟨rfl, hV⟩, srv, hsrv, hsize⟩ := stat_spec hw hc hx
  have hat := hs f
  obtain ⟨l, hl, hview, hiff⟩ : ∃ l, localAfter w₀ ops f = some l ∧
      (∀ lv, s.view cfg w' f = some lv → lv.length = l.length) ∧
      (srv.length = l.length ↔ ∀ x v, Held cfg.blockSize f x v s.files → x < l.length → x < srv.length) := by
    cases hf : s.files f with
    | none =>
      rw [hf, hsrv] at hat
      obtain ⟨l, hl, hll⟩ := Option.map_eq_some_iff.mp
        (Eq.symm hat : (localAfter w₀ ops f).map List.length = some srv.length)
      refine ⟨l, hl, fun lv hlv => ?_, fun _ x v ⟨fc, hfc, _⟩ => ?_, fun _ => hll.symm⟩
      · rw [NetFS.view, Files.view_none hf, hsrv] at hlv
        cases hlv
        exact hll.symm
      · cases hf.symm.trans hfc
    | some fc =>
      rw [hf] at hat
      obtain ⟨c, l, hcs, hl, hll, hle, hd⟩ := hat
      cases hsrv.symm.trans hcs
      refine ⟨l, hl, fun lv hlv => ?_, fun heq x v _ hx => heq ▸ hx, fun hheld => ?_⟩
      · rw [NetFS.view, Files.view_some hf] at hlv
        cases hlv
        rw [FileCache.length_view, hll]
      · rw [hll]
        refine hle.eq_or_lt.resolve_right fun hlt => ?_
        obtain ⟨hv, hdirty⟩ := hd hlt
        obtain ⟨v, hv⟩ := Option.isSome_iff_exists.mp hv
        have := hheld _ v ⟨fc, hf, hv, hdirty⟩ (by omega)
        omega
  refine ⟨srv, l, hsrv, hl, fun off n s'' data w'' hr => ?_, by rw [hsize]; exact hiff⟩
  obtain ⟨lv, hlv, rfl⟩ := NetFS.read_view id (fun hs => hs.1) hB hw' hr
  rw [NetFS.view, hV] at hlv
  rw [length_pread, hview lv hlv]

/-- Over a server that lets nothing be changed, and need not refuse anything. -/
theorem exec_unrefused (op : Op) (c : Config) (s : NetFS) (w : Server) {o : Outcome op.Ret}
    (hask : ∀ r ∈ readOnlyAsks op c s w, r.error (w.readOnly r) = 0) (ho : (readOnlyRun op c s w).2.1 = o) :
    Exec Server.ServeOk (op.run c s) w (readOnlyRun op c s w).1 o w := by
  refine (exec_readOnly_asks op c s w hask ho).imp ?_
  rintro v r a v' ⟨⟨rfl, rfl, rfl⟩, he⟩
  exact ⟨v'.serve_readOnly r, he⟩

/-- A client that has written one byte at `off` of the file of three bytes. -/
theorem wrote_run (off : Nat)
    (hask : ∀ r ∈ readOnlyAsks (.write [102] off [9]) (smallCache true) .new oneFile,
      r.error (oneFile.readOnly r) = 0)
    (ho : (readOnlyRun (.write [102] off [9]) (smallCache true) .new oneFile).2.1 = .ok ()) :
    ClientRun (smallCache true) Op.Sized oneFile [.write [102] off [9]]
      (readOnlyRun (.write [102] off [9]) (smallCache true) .new oneFile).1 oneFile := by
  refine ClientRun.start.call ⟨trivial, ?_⟩ (exec_unrefused _ _ _ _ hask ho)
  rintro f o buf ⟨⟩
  exact List.cons_ne_nil _ _

end

/-- A byte is written over another one. -/
theorem stat_size_iff_inside : ∃ s s' attr,
    ClientRun (smallCache true) Op.Sized oneFile [.write [102] 0 [9]] s oneFile ∧
      Exec Server.ServeOk ((Op.stat [102]).run (smallCache true) s) oneFile s' (.ok attr) oneFile ∧ attr.size = 3 ∧
      ∃ srv l, oneFile.content [102] = some srv ∧ localAfter oneFile [.write [102] 0 [9]] [102] = some l ∧
        (attr.size = l.length ↔ ∀ x v, Held 2 [102] x v s.files → x < l.length → x < srv.length) := by
  have hrun := wrote_run 0 (by decide +kernel) (by decide +kernel)
  have hx := exec_unrefused (.stat [102]) (smallCache true) acked oneFile
    (o := .ok { size := 3, mode := 0, time := .epoch }) (by decide +kernel) (by decide +kernel)
  obtain ⟨srv, l, hsrv, hl, -, hiff⟩ := stat_size_iff (by decide) hrun hx
  exact ⟨_, _, _, hrun, hx, rfl, srv, l, hsrv, hl, hiff⟩

/-- **A byte is written past the end**: the local file has six bytes, `stat`
reports three. -/
theorem stat_reports_old_size : ∃ s s' attr,
    ClientRun (smallCache true) Op.Sized oneFile [.write [102] 5 [9]] s oneFile ∧
      Exec Server.ServeOk ((Op.stat [102]).run (smallCache true) s) oneFile s' (.ok attr) oneFile ∧ attr.size = 3 ∧
      localAfter oneFile [.write [102] 5 [9]] [102] = some [1, 2, 3, 0, 0, 9] := by
  have hrun := wrote_run 5 (by decide +kernel) (by decide +kernel)
  have hx := exec_unrefused (.stat [102]) (smallCache true)
    (readOnlyRun (.write [102] 5 [9]) (smallCache true) .new oneFile).1 oneFile
    (o := .ok { size := 3, mode := 0, time := .epoch }) (by decide +kernel) (by decide +kernel)
  exact ⟨_, _, _, hrun, hx, rfl, by decide +kernel⟩

end Nfs
