/-
What a write or a truncate that returns an error leaves behind.

Both change the cache first and ask the server afterwards: a write evicts
blocks when its bytes are in the cache already, a truncate sends the new
size when it has dropped the blocks past it. Neither takes its change back
when the request fails. So the file is as it was only if the attributes
could not be fetched in the first place, or if the change was none.
-/
import Nfs.System
import Nfs.View

namespace Nfs

open PlainFile Resume

/-! ## Failed requests -/

/-- A server, and the replies it has given, the last one first. -/
abbrev Traced := Server × List ((r : Req) × r.Resp)

def Server.ServeTraced (p : Traced) (r : Req) (a : r.Resp) (p' : Traced) : Prop :=
  p.1.Serve r a p'.1 ∧ p'.2 = ⟨r, a⟩ :: p.2

/-- A write-back has failed. -/
def Traced.Refused (p : Traced) : Prop := ∃ q ∈ p.2, q.1.WritesBack ∧ q.1.error q.2 ≠ 0

instance (p : Traced) : Decidable p.Refused :=
  inferInstanceAs (Decidable (∃ q ∈ p.2, q.1.WritesBack ∧ q.1.error q.2 ≠ 0))

/-- The operation leaves a file with content `l` as it is. -/
def Op.Leaves : Op → Bytes → Prop
  | .write _ offset buf, l => offset + buf.length ≤ l.length ∧ pread l offset buf.length = buf
  | .truncate _ n, l => n = l.length
  | _, _ => True

section
variable {B off : Nat} {buf : Bytes} {fc fc' : FileCache} {srv : Bytes} {f : Str}

/-- A write that does not change what is shown stores bytes that are there. -/
theorem FileCache.Stored.view_eq_iff (h : fc.Stored B off buf fc') :
    fc'.view B srv = fc.view B srv ↔ (Op.write f off buf).Leaves (fc.view B srv) := by
  have hin : ∀ x, off ≤ x → x < off + buf.length → byteAt (fc'.view B srv) x = byteAt buf (x - off) := by
    intro x h₁ h₂
    rw [FileCache.byteAt_view, h.attr, if_pos (lt_of_lt_of_le h₂ (le_max_right _ _)), h.byte, if_pos ⟨h₁, h₂⟩]
    rfl
  constructor
  · intro heq
    have hlen : off + buf.length ≤ fc.attr.size := by
      have := congrArg List.length heq
      rw [FileCache.length_view, FileCache.length_view, h.attr] at this
      exact (le_max_right _ _).trans this.le
    refine ⟨by rw [FileCache.length_view]; exact hlen, ?_⟩
    refine ext_byteAt (by rw [length_pread, FileCache.length_view]; omega) fun i => ?_
    rw [byteAt_pread, ← heq]
    split
    · rw [hin _ (by omega) (by omega), Nat.add_sub_cancel_left]
    · exact (byteAt_of_le (by omega)).symm
  · rintro ⟨hlen, hbuf⟩
    rw [FileCache.length_view] at hlen
    have hsize : fc'.attr.size = fc.attr.size := by rw [h.attr]; exact max_eq_left hlen
    refine FileCache.view_congr hsize fun x hx => ?_
    rw [h.byte]
    split
    · rename_i hx'
      rw [Option.getD_some, ← hbuf, byteAt_pread, if_pos (by omega), FileCache.byteAt_view,
        show off + (x - off) = x by omega, if_pos hx]
    · rfl

end

/-! ## The operations -/

section
variable {cfg : Config} {s : NetFS} {f : Str} {op : Op} {v₀ : Option Bytes} {p : Traced}

/-- What is shown after the change: what was shown before, if the operation
leaves that as it is, and otherwise something else. -/
def ChangedBy (op : Op) (v₀ v : Option Bytes) : Prop :=
  ∃ l l', v₀ = some l ∧ v = some l' ∧ (l' = l ↔ op.Leaves l)

/-- How an operation ends that has failed. -/
def LeftBy (B : Nat) (op : Op) (f : Str) (v₀ : Option Bytes) (V : Files) (p : Traced) : Prop :=
  (V.view B f (p.1.content f) = v₀ ∧ ¬ p.Refused) ∨ (ChangedBy op v₀ (V.view B f (p.1.content f)) ∧ p.Refused)

/-- The client of `Server.ServeTraced`. -/
abbrev traced : Service Traced := .solo Server.ServeTraced

theorem traced_contents : Contents traced.back fun p => p.1.content :=
  Service.solo_contents Prod.fst fun hs => hs.1

/-- A fetch is no write-back. -/
theorem Traced.Refused.of_serve {r : Req} {a : r.Resp} {p' : Traced} (hs : Server.ServeTraced p r a p')
    (hr : ¬ r.WritesBack) (h : p'.Refused) : p.Refused := by
  obtain ⟨q, hq, hw, he⟩ := h
  rw [hs.2] at hq
  rcases List.mem_cons.mp hq with rfl | hq
  · exact absurd hw hr
  · exact ⟨q, hq, hw, he⟩

theorem traced_refused {r : Call} {a : r.Ans} {p' : Traced} (hs : traced.back.serve p r a p') (hr : r.req.WritesBack)
    (he : Plain.failed r a) : p'.Refused := by
  obtain ⟨resp, hserve, ha⟩ := hs
  subst ha
  exact ⟨⟨r.req, resp⟩, by rw [hserve.2]; exact List.mem_cons_self .., hr, Call.failed_ans.mp he⟩

theorem unrefused_fetches (hB : 0 < cfg.blockSize) (f : Str) :
    Fetches traced.back cfg.blockSize (fun V p => V.view cfg.blockSize f (p.1.content f) = v₀ ∧ ¬ p.Refused)
      (fun V p => V.view cfg.blockSize f (p.1.content f) = v₀ ∧ ¬ p.Refused) f := by
  have hF := view_fetches (Q := (· = v₀)) traced_contents hB f f
  refine ⟨fun _ _ => trivial, ?_, ?_⟩
  · rintro V w _ w₂ a ⟨hv, hn⟩ hf rfl hs
    obtain ⟨hok, herr⟩ := hF.attrFt hv hf rfl hs
    obtain ⟨resp, hserve, -⟩ := hs
    have hn' : ¬ w₂.Refused := fun h => hn (h.of_serve hserve id)
    exact ⟨fun he => ⟨hok he, hn'⟩, fun he => ⟨herr he, hn'⟩⟩
  · rintro V w _ w₂ fc start n a ⟨hv, hn⟩ hf rfl hs
    obtain ⟨hok, herr⟩ := hF.contentFt hv hf rfl hs
    obtain ⟨resp, hserve, -⟩ := hs
    have hn' : ¬ w₂.Refused := fun h => hn (h.of_serve hserve id)
    exact ⟨fun he fc' hfill => ⟨hok he fc' hfill, hn'⟩, fun he => ⟨herr he, hn'⟩⟩

/-- An assertion that matters only as long as something is dirty. Eviction
keeps it: by then everything is clean. -/
theorem Flushes.whileDirty {W : Type} {E : Env Cache W Call.Ans} {B : Nat} {J X : Files → W → Prop}
    {I : Phase → Files → W → Prop} (h : Flushes E B J X I f) :
    Flushes E B (fun V w => (∃ g fc, V g = some fc ∧ ¬ fc.AllClean) → J V w) X I f where
  seen := h.seen
  start hJ hf hne := h.start (hJ ⟨f, _, hf, hne⟩) hf hne
  contentWb := h.contentWb
  clean := h.clean
  attrWb hI hf hr hs := ⟨fun he _ => (h.attrWb hI hf hr hs).1 he, (h.attrWb hI hf hr hs).2⟩
  recover hX _ := h.recover hX

theorem write_left (hB : 0 < cfg.blockSize) {off : Nat} {buf : Bytes} (h : s.cache.Wf cfg.blockSize)
    (hv : s.files.view cfg.blockSize f (p.1.content f) = v₀) (hn : ¬ p.Refused) :
    ((NetFS.write cfg f off buf) s).wp traced.net (NetFS.Ends cfg.blockSize (fun _ _ => True)
      (LeftBy cfg.blockSize (.write f off buf) f v₀) fun _ => True) p := by
  have hU := fun g => (view_flushes (B := cfg.blockSize) (Q := ChangedBy (.write f off buf) v₀) traced_contents
    Traced.Refused traced_refused f g).whileDirty
  refine NetFS.Ends.mono (NetFS.write_rule hB (unrefused_fetches hB f) (fun hV hf hst _ => ?_) hU ?_ h ⟨hv, hn⟩)
    (fun _ => trivial) id fun _ h => h
  · rw [Files.view_some hf] at hV
    rw [Files.view_set_self]
    exact ⟨_, _, hV.1.symm, rfl, hst.view_eq_iff⟩
  · rintro V V' w - hclean hthin ⟨g, fc', hg, hne⟩
    rcases hthin g with ⟨-, hnone⟩ | ⟨fc, fc₂, hf, hf₂, hth⟩
    · cases hnone.symm.trans hg
    · cases hf₂.symm.trans hg
      exact absurd (fun b e he => hclean g fc hf b e (hth.entries b e he)) hne

theorem truncate_left (hB : 0 < cfg.blockSize) {n : Nat} (h : s.cache.Wf cfg.blockSize)
    (hv : s.files.view cfg.blockSize f (p.1.content f) = v₀) (hn : ¬ p.Refused) :
    ((NetFS.truncate cfg f n) s).wp traced.net (NetFS.Ends cfg.blockSize (fun _ _ => True)
      (LeftBy cfg.blockSize (.truncate f n) f v₀) fun _ => True) p := by
  -- Once the size is set, it is not the size that was shown.
  refine NetFS.onCache_rule (Cache.truncate_rule
    (K := fun V _ => ∃ fc l, V f = some fc ∧ v₀ = some l ∧ fc.attr.size = n ∧ n ≠ l.length)
    (unrefused_fetches hB f) (fun _ _ _ => trivial) ?_ (fun _ _ => trivial) ?_ .inl h ⟨hv, hn⟩) fun _ _ _ => trivial
  · rintro V w fc fc' ⟨hV, -⟩ hf - hne hre
    rw [Files.view_some hf] at hV
    exact ⟨fc', _, Files.set_self, hV.symm, by rw [hre.attr], by rw [FileCache.length_view]; exact hne⟩
  · rintro V w _ w₂ fc a ⟨fc₁, l, hf₁, hl, hsize, hne⟩ hf rfl hs
    cases hf₁.symm.trans hf
    refine ⟨fun _ => trivial, fun he => .inr ⟨⟨l, _, hl, Files.view_set_self, ?_⟩, traced_refused hs trivial he⟩⟩
    have hlen := (traced_contents.attrWb hs).1
    constructor
    · rintro rfl
      rw [FileCache.length_view, hlen] at hne
      exact absurd hsize.symm hne
    · exact fun hl => absurd hl hne

theorem LeftBy.iff {V : Files} (h : LeftBy cfg.blockSize op f v₀ V p) :
    V.view cfg.blockSize f (p.1.content f) = v₀ ↔ ¬ p.Refused ∨ ∃ l, v₀ = some l ∧ op.Leaves l := by
  rcases h with ⟨hv, hn⟩ | ⟨⟨l, l', rfl, hv, hl⟩, hr⟩
  · exact ⟨fun _ => .inl hn, fun _ => hv⟩
  · rw [hv]
    constructor
    · intro heq
      exact .inr ⟨l, rfl, hl.mp (Option.some.inj heq)⟩
    · rintro (hn | ⟨_, ⟨⟩, h⟩)
      · exact absurd hr hn
      · rw [hl.mpr h]

end

section
variable {ι : Type} [DecidableEq ι] {cfg : ι → Config} {A : ι} {S : System ι} {s s' : NetFS} {op : Op} {f : Str}
  {e : Int} {p : Traced}

/-- **A write or a truncate that fails** leaves what is shown of the file, its
size and the bytes that reads return, as it was just when none of its
write-backs has failed, or when it would have changed nothing. -/
theorem failed_change_kept_iff (hB : 0 < (cfg A).blockSize) (h : Reach cfg S) (hi : S.threads A = .idle s)
    (hop : op.Changes f) (hx : Exec Server.ServeTraced (op.run (cfg A) s) (S.world, []) s' (.err e) p) :
    (s'.view (cfg A) p.1 f = s.view (cfg A) S.world f ↔
      ¬ p.Refused ∨ ∃ l, s.view (cfg A) S.world f = some l ∧ op.Leaves l) ∧
    ReadsShown (cfg A) s S.world f ∧ ReadsShown (cfg A) s' p.1 f := by
  have hw := h.idle_wf hB hi
  have hn : ¬ Traced.Refused (S.world, []) := fun ⟨_, hq, _⟩ => by cases hq
  have hend : s'.cache.Wf (cfg A).blockSize ∧
      LeftBy (cfg A).blockSize op f (s.view (cfg A) S.world f) s'.files p := by
    cases op with
    | write g off buf =>
      obtain rfl : g = f := hop
      exact (write_left hB hw rfl hn).exec hx
    | truncate g n =>
      obtain rfl : g = f := hop
      exact (truncate_left hB hw rfl hn).exec hx
    | _ => exact hop.elim
  exact ⟨hend.2.iff, .of_wf hB hw, .of_wf hB hend.1⟩

/-- What an operation does over a server that lets nothing be changed, and the
replies it gets. -/
def tracedRun (op : Op) (c : Config) (s : NetFS) (w : Server) : NetFS × Outcome op.Ret × Traced :=
  (op.run c s).interp (fun (p : Traced) r => (p.1.readOnly r, p.1, ⟨r, p.1.readOnly r⟩ :: p.2)) (w, [])

theorem exec_tracedRun (op : Op) (c : Config) (s : NetFS) (w : Server) {o : Outcome op.Ret}
    (ho : (tracedRun op c s w).2.1 = o) :
    Exec Server.ServeTraced (op.run c s) (w, []) (tracedRun op c s w).1 o (tracedRun op c s w).2.2 :=
  exec_answers (fun p r => ⟨p.1.serve_readOnly r, rfl⟩) _ _ ho

/-- A client that keeps no block. -/
def noRoom : Bool → Config := fun _ =>
  { blockSize := 2, maxCacheEntry := 0, evictCount := 1, flushInterval := 3, order := .inserted }

/-- A write of a byte that is there already, which the server refuses to store. -/
theorem failed_change_kept_iff_same : ∃ s' p,
    Exec Server.ServeTraced ((Op.write [102] 0 [1]).run (noRoom true) .new) (oneFile, []) s' (.err 30) p ∧
      p.Refused ∧ (Op.write [102] 0 [1]).Leaves [1, 2, 3] ∧
      s'.view (noRoom true) p.1 [102] = NetFS.new.view (noRoom true) oneFile [102] := by
  have hr : Reach noRoom ⟨oneFile, fun _ => .idle .new⟩ := .start fun _ => rfl
  have hx := exec_tracedRun (.write [102] 0 [1]) (noRoom true) .new oneFile (o := .err 30) (by decide +kernel)
  have hop : (Op.write [102] 0 [1]).Changes [102] := rfl
  have hleaves : (Op.write [102] 0 [1]).Leaves [1, 2, 3] := ⟨by decide, by decide⟩
  exact ⟨_, _, hx, by decide +kernel, hleaves,
    (failed_change_kept_iff (by decide) hr rfl hop hx).1.mpr (.inr ⟨[1, 2, 3], rfl, hleaves⟩)⟩

/-- **Failed changes that are shown**: the server refuses every change, and
the client shows the byte it was told to write, and the size it was told to
cut the file to. -/
theorem failed_change_shown : Reach noRoom ⟨oneFile, fun _ => .idle .new⟩ ∧
    NetFS.new.view (noRoom true) oneFile [102] = some [1, 2, 3] ∧
    (∃ s' p, Exec Server.ServeTraced ((Op.write [102] 0 [9]).run (noRoom true) .new) (oneFile, []) s' (.err 30) p ∧
      s'.view (noRoom true) p.1 [102] = some [9, 2, 3]) ∧
    ∃ s' p, Exec Server.ServeTraced ((Op.truncate [102] 1).run (noRoom true) .new) (oneFile, []) s' (.err 30) p ∧
      s'.view (noRoom true) p.1 [102] = some [1] := by
  refine ⟨.start fun _ => rfl, by decide +kernel, ⟨_, _, exec_tracedRun _ _ _ _ ?_, ?_⟩,
    _, _, exec_tracedRun _ _ _ _ ?_, ?_⟩
  all_goals decide +kernel

end

end Nfs
