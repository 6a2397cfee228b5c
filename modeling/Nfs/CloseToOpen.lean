/-
Close-to-open coherence between clients: after a check of a file that
returned 0 (`access` or `stat`), reads return what the server holds.

The proof has two parts. In every run, a client's cache is coherent with the
server for the files it may still trust (`History.keeps`): the stale flag
remembers that some request met a foreign change or failed, and otherwise
the cached stamp is that of the version the cached bytes belong to. So a
check that keeps the file has found the current version in the cache.
From there on, and until the file changes, the cache holds nothing but bytes
of that version (`Quiet.keeps`).

The one thing a client can do to its own cache that the stamps do not catch
is a cut inside a block (`Nfs.Truncation`). The history of a run keeps the
files that were cut in this way since they were last cached.
-/
import Nfs.System

namespace Nfs

open PlainFile Resume

variable {ι : Type} [DecidableEq ι]

/-! ## Runs with their history -/

/-- The call cuts `f`, which is cached, to a length inside a block. -/
def Cuts (B : Nat) (cl : Client) (e : Event) (f : Str) : Prop :=
  ∃ s fc n, cl = .idle s ∧ e.op = .truncate f n ∧ s.files f = some fc ∧ n < fc.attr.size ∧ ¬ B ∣ n

/-- The history after a step from `cl` to `cl'`: a file the idle client does
not cache starts anew. -/
def cutAfter (B : Nat) (cl cl' : Client) (e : Event) (cut : Str → Prop) (f : Str) : Prop :=
  (cut f ∨ Cuts B cl e f) ∧ ∀ s, cl' = .idle s → ∃ fc, s.files f = some fc

/-- A run in which client `A` stores something with every write, with the
files `A` has cut inside a block since it cached them. -/
inductive History (cfg : ι → Config) (A : ι) : System ι → (Str → Prop) → Prop
  | start : (∀ i, S.threads i = .idle .new) → History cfg A S fun _ => False
  | own : History cfg A S cut → Step cfg S A e S' → (∀ f off buf, e.op = .write f off buf → buf ≠ []) →
      History cfg A S' (cutAfter (cfg A).blockSize (S.threads A) (S'.threads A) e cut)
  | other : History cfg A S cut → i ≠ A → Step cfg S i e S' → History cfg A S' cut

/-- A stretch of a run in which the server holds `c₀` in `f`, and `A` does not
change `f`. -/
inductive Quiet (cfg : ι → Config) (A : ι) (f : Str) (c₀ : Bytes) : System ι → System ι → Prop
  | refl (S : System ι) : Quiet cfg A f c₀ S S
  | step : Quiet cfg A f c₀ S S' → Step cfg S' i e S'' → S''.world.content f = some c₀ →
      (i = A → ¬ e.op.Changes f) → Quiet cfg A f c₀ S S''

variable {cfg : ι → Config} {A : ι} {S S' : System ι} {e : Event} {B : Nat} {f : Str} {cut : Str → Prop} {V : Files}
  {w w' : Server}

/-! ## The cache is coherent with the server -/

/-- Coherent with the server, for any content. -/
def Good (B : Nat) (cut : Str → Prop) : Files → Server → Prop :=
  Coherent Server.backing B True cut fun _ _ => True

theorem Good.mono {cut' : Str → Prop} (h : Good B cut V w) (hc : ∀ f, cut f → cut' f) : Good B cut' V w :=
  fun f => (h f).mono (fun _ _ => trivial) (hc f)

/-- What is not cached is coherent under any history. -/
theorem Good.reset (h : Good B cut V w) : Good B (fun f => cut f ∧ ∃ fc, V f = some fc) V w := by
  intro f
  have hf := h f
  cases hV : V f with
  | none => exact fun _ _ => trivial
  | some fc =>
    rw [hV] at hf
    exact ⟨hf.1, fun hc => hf.2 fun hcut => hc ⟨hcut, fc, hV⟩⟩

theorem Good.evolves (h : Good B cut V w) (hw : w.Evolves w') : Good B cut V w' :=
  Coherent.still h fun g => hw.still (fun _ _ => trivial) g

theorem Good.drop (f : Str) (h : Good B cut V w) : Good B cut (V.drop f) w := by
  intro g
  by_cases hg : g = f
  · rw [hg, Files.drop_self]
    exact fun _ _ => trivial
  · rw [Files.drop_other hg]
    exact h g

theorem Good.lasting (hB : 0 < B) (cut : Str → Prop) :
    Lasting Server.service B (Good B cut) (fun V w => True ∧ Good B cut V w)
      (Flushing Server.backing B True cut fun _ _ => True) where
  seen _ _ := trivial
  fetches f := Coherent.fetches cut (Server.backs fun _ _ => trivial) hB f
  flushes f := Coherent.flushes B cut (Server.backs fun _ _ => trivial) f
  thinned h hc ht := Coherent.thinned h hc ht
  asks _ h hr hs := (h.evolves hr).evolves hs.evolves
  drop f h := h.drop f

theorem Good.truncate {c : Cache} {n : Nat} (hB : 0 < B) (h : c.Wf B) (hG : Good B cut c.file w)
    (hcut : ∀ fc, c.file f = some fc → n < fc.attr.size → ¬ B ∣ n → cut f) :
    (Cache.truncate B f n c).wp Server.service.back
      (Cache.Ends B (Good B cut) (Good B cut) fun _ _ _ => True) w := by
  refine Cache.truncate_rule (K := Resizing Server.backing B True cut (fun _ _ => True) f)
    ((Good.lasting hB cut).fetches f) (fun hV _ _ => hV) ?_ (fun _ _ => trivial) ?_ (fun hX => hX.2) h hG
  · intro V w fc fc' hV hf ho _ hre
    refine hV.resizing hf hre (fun _ h => h) (fun hc hlt => ?_) (fun _ _ => trivial) fun _ _ _ _ => trivial
    rcases ho with ho | ho
    · exact FileCache.CutClean.of_dvd hB (not_not.mp fun hd => hc (hcut fc ho hlt hd)) hlt
    · intro x v _ _ hx
      rw [FileCache.byte, ho] at hx
      simp at hx
  · intro V w w₁ w₂ fc a hR hf hr hs
    obtain ⟨hok, herr⟩ := hR.attrWb (Server.backs fun _ _ => trivial) hf hr hs
    exact ⟨hok, fun he => (herr he).2 trivial⟩

/-- The server has `f`, and if `f` is cached, its stamp is the current one. -/
def Checked (f : Str) (V : Files) (w : Server) : Prop :=
  (∃ c, w.content f = some c) ∧ ∀ fc, V f = some fc → Server.backing.trusts w f fc.attr.time fc.stale

/-- What is known of an idle client. -/
def Resting (B : Nat) (cut : Str → Prop) (s : NetFS) (w : Server) : Prop := s.cache.Wf B ∧ Good B cut s.files w

/-- How an operation ends. -/
def Rested (B : Nat) (cut : Str → Prop) (op : Op) (s : NetFS) (w : Server) (o : Outcome op.Ret) : Prop :=
  o ≠ .fault ∧ Resting B cut s w ∧ ∀ f, op.Opens f → (∃ a, o = .ok a) → Checked f s.files w

/-- What is known of a client in every state of a run. -/
abbrev Rests (B : Nat) (cut : Str → Prop) : Client → Server → Prop :=
  Thread.Keeps (fun _ _ => Server.service.net) (Resting B cut) fun op _ => Rested B cut op

theorem checked_of_agrees {sf : SFile} {t : FileTime} (hf : w.files f = some sf) (ht : t = sf.time) :
    (V.Agrees f t → Checked f V w) ∧ (¬ V.Agrees f t → Checked f (V.drop f) w) := by
  have hc : ∃ c, w.content f = some c := ⟨sf.content, by rw [Server.content, hf]; rfl⟩
  refine ⟨fun ha => ⟨hc, fun fc hfc => ?_⟩, fun _ => ⟨hc, fun fc hfc => ?_⟩⟩
  · obtain ⟨hs, hst⟩ := ha fc hfc
    exact ⟨hs, sf, hf, by rw [hst, ht]⟩
  · rw [Files.drop_self] at hfc
    cases hfc

/-- A check that returns 0 leaves the client with the current version, or
with none. -/
theorem opens_checked {s : NetFS} {op : Op} {c : Config} (h : s.cache.Wf B) (hop : op.Opens f) :
    (op.run c s).wp Server.service.net (fun s w o => (∃ a, o = .ok a) → Checked f s.files w) w := by
  cases op with
  | access g =>
    obtain rfl : g = f := hop
    refine (NetFS.access_rule (J := Checked g) (X := fun _ _ => True) h trivial ?_).mono fun s w o hQ => ?_
    · rintro w₁ _ a - ⟨rfl, hok⟩
      refine ⟨fun _ => trivial, fun he => ?_⟩
      obtain ⟨sf, hf, ht⟩ := hok he
      exact checked_of_agrees hf ht
    · rintro ⟨a, rfl⟩
      exact hQ.2.1
  | stat g =>
    obtain rfl : g = f := hop
    refine (NetFS.stat_rule (J := Checked g) (X := fun _ _ => True) (R := fun _ => True) h trivial ?_).mono
      fun s w o hQ => ?_
    · rintro w₁ _ a - ⟨rfl, hok⟩
      refine ⟨fun _ => trivial, fun he => ⟨trivial, ?_⟩⟩
      obtain ⟨sf, hf, -, -, ht⟩ := hok he
      exact checked_of_agrees hf ht
    · rintro ⟨a, rfl⟩
      exact hQ.2.1
  | _ => exact hop.elim

/-- **One operation**, the others' requests falling between its own. -/
theorem Resting.run {s : NetFS} {c : Config} (hB : 0 < c.blockSize) {op : Op}
    (hne : ∀ f off buf, op = .write f off buf → buf ≠ [])
    (hcut : ∀ f n fc, op = .truncate f n → s.files f = some fc → n < fc.attr.size → ¬ c.blockSize ∣ n → cut f)
    (h : Resting c.blockSize cut s w) :
    (op.run c s).wp Server.service.net (Rested c.blockSize cut op) w := by
  obtain ⟨hw, hG⟩ := h
  have hkeep := (Good.lasting hB cut).run hB op (s := s)
    (fun ho _ _ _ _ hV hf hst => hV.stored hf (hne _ _ _ ho) hst (fun _ _ => trivial) fun _ _ _ _ => trivial)
    (fun ho => Good.truncate hB hw hG fun fc hf hlt hd => hcut _ _ fc ho hf hlt hd) hw hG
  by_cases hop : ∃ f, op.Opens f
  · obtain ⟨f, hop⟩ := hop
    refine (hkeep.and (opens_checked hw hop)).mono fun s w o hQ => ⟨hQ.1.keeps.1, hQ.1.keeps.2, fun g hg ho => ?_⟩
    have hfg : g = f := by
      cases op with
      | access | stat => exact hg.symm.trans hop
      | _ => exact hop.elim
    rw [hfg]
    exact hQ.2 ho
  · exact hkeep.mono fun s w o hQ => ⟨hQ.keeps.1, hQ.keeps.2, fun g hg => absurd ⟨g, hg⟩ hop⟩

/-- The step of a run: what it keeps, and what an operation that ends with it
leaves. -/
theorem Resting.step (hB : 0 < (cfg A).blockSize) (hs : Step cfg S A e S')
    (hne : ∀ f off buf, e.op = .write f off buf → buf ≠ [])
    (h : Rests (cfg A).blockSize cut (S.threads A) S.world) :
    Rests (cfg A).blockSize (cutAfter (cfg A).blockSize (S.threads A) (S'.threads A) e cut) (S'.threads A) S'.world ∧
      ∀ f, e.op.Opens f → (∃ a, e.ret = some (.ok a)) → ∃ s, S'.threads A = .idle s ∧ Checked f s.files S'.world := by
  have hmono : ∀ {cut₁ cut₂ : Str → Prop}, (∀ f, cut₁ f → cut₂ f) → ∀ {op s w o},
      Rested (cfg A).blockSize cut₁ op s w o → Rested (cfg A).blockSize cut₂ op s w o :=
    fun hc _ _ _ _ hQ => ⟨hQ.1, ⟨hQ.2.1.1, hQ.2.1.2.mono hc⟩, hQ.2.2⟩
  -- During the step the history only grows.
  obtain ⟨hK, hret⟩ := hs.keeps
    (h.mono (fun hP => ⟨hP.1, hP.2.mono fun f hc => Or.inl (b := Cuts (cfg A).blockSize (S.threads A) e f) hc⟩)
      (hmono fun f hc => .inl hc))
    (fun hQ => ⟨hQ.1, hQ.2.1⟩) (fun _ => .refl _) (fun _ hw => hw) (fun _ _ hw => hw)
    fun s hcl hP => hP.run hB hne fun f n fc ho hf hlt hd => .inr ⟨s, fc, n, hcl, ho, hf, hlt, hd⟩
  refine ⟨?_, fun f hop ⟨a, ha⟩ => ?_⟩
  · cases hcl : S'.threads A with
    | idle s' =>
      rw [hcl] at hK
      refine ⟨hK.1, hK.2.reset.mono fun f hc => ⟨hc.1, fun s hs => ?_⟩⟩
      cases hs
      exact hc.2
    | busy op s r k =>
      rw [hcl] at hK
      exact hK.mono (fun hP => ⟨hP.1, hP.2.mono fun f hc => ⟨hc, fun s hs => by cases hs⟩⟩)
        (hmono fun f hc => ⟨hc, fun s hs => by cases hs⟩)
    | down s =>
      rw [hcl] at hK
      exact hK.elim
  · obtain ⟨-, s, hcl, hQ⟩ := hret _ ha
    exact ⟨s, hcl, hQ.2.2 f hop ⟨a, rfl⟩⟩

/-- **A run** keeps `A`'s cache coherent with the server. -/
theorem History.keeps (hB : 0 < (cfg A).blockSize) (h : History cfg A S cut) :
    Rests (cfg A).blockSize cut (S.threads A) S.world := by
  induction h with
  | start hnew =>
    rw [hnew A]
    exact ⟨Cache.empty_wf, fun f _ _ => trivial⟩
  | own _ hs hne ih => exact (Resting.step hB hs hne ih).1
  | other _ hi hs ih =>
    rw [hs.other (Ne.symm hi)]
    have hev := step_evolves hs
    exact ih.rely (fun _ _ => hev) (fun _ _ _ _ _ => .trans) (fun s hP => ⟨hP.1, hP.2.evolves hev⟩)
      fun _ _ _ _ => trivial

/-! ## While the file does not change -/

variable {c₀ : Bytes}

/-- The server while it holds `c₀` in `f`. -/
def holding (f : Str) (c₀ : Bytes) : Service Server where
  serve w r a w' := w.Serve r a w' ∧ w'.content f = some c₀
  rely _ w' := w'.content f = some c₀
  seen _ _ := True

/-- What is cached of `f` is clean, and bytes of `c₀`. -/
def Mirrors (B : Nat) (f : Str) (c₀ : Bytes) (V : Files) (_ : Server) : Prop :=
  ∀ fc, V f = some fc → fc.AllClean ∧ Synced B fc c₀ c₀

theorem Mirrors.other {fc : FileCache} {g : Str} (h : Mirrors B f c₀ V w) (hg : g ≠ f) :
    Mirrors B f c₀ (V.set g fc) w' := fun fc' hf => h fc' (by rwa [Files.set_other (Ne.symm hg)] at hf)

theorem Mirrors.self {fc : FileCache} (hc : fc.AllClean) (hs : Synced B fc c₀ c₀) :
    Mirrors B f c₀ (V.set f fc) w := by
  intro fc' hf
  rw [Files.set_self] at hf
  cases hf
  exact ⟨hc, hs⟩

theorem Mirrors.fetches (hB : 0 < B) (g : Str) :
    Fetches (holding f c₀).back B (Mirrors B f c₀) (Mirrors B f c₀) g := by
  refine ⟨fun _ _ => trivial, ?_, ?_⟩
  · rintro V w w₁ w₂ _ h - hr ⟨resp, ⟨hs, -⟩, rfl⟩
    refine ⟨fun he => ?_, fun _ => h⟩
    by_cases hg : g = f
    · subst hg
      obtain ⟨c, hc, hlen⟩ := hs.stat_content he
      cases hc.symm.trans hr
      exact .self (fun b e he => by simp [FileCache.ofAttr] at he) (.ofAttr hlen)
    · exact h.other hg
  · rintro V w w₁ w₂ fc start n _ h hf hr ⟨resp, ⟨hs, -⟩, rfl⟩
    refine ⟨fun he fc' hfill => ?_, fun _ => h⟩
    by_cases hg : g = f
    · subst hg
      obtain ⟨hclean, hsync⟩ := h fc hf
      refine .self ?_ (hsync.filled hfill fun x h₁ h₂ => ?_)
      · exact (FileCache.allClean_iff hB).mpr fun x hd => hclean.not_dirtyAt ((hfill.dirty x).mp hd)
      · obtain ⟨c, hc, hd⟩ := hs.read_content he
        cases hc.symm.trans hr
        obtain ⟨hle, hlt⟩ := Cache.run_offset hB h₁ h₂
        refine (hd _ hlt).trans ?_
        congr 1; omega
    · exact h.other hg

/-- `f` has nothing to write back, and the other files do not matter. -/
theorem Mirrors.flushes (g : Str) : Flushes (holding f c₀).back B (Mirrors B f c₀) (Mirrors B f c₀)
    (fun _ V w => g ≠ f ∧ Mirrors B f c₀ V w) g := by
  refine ⟨fun _ _ => trivial, ?_, ?_, ?_, ?_, id⟩
  · intro V w fc h hf hd
    exact ⟨fun hg => hd (h fc (hg ▸ hf)).1, h⟩
  · rintro V w w₁ w₂ S fc off data a ⟨hg, h⟩ - - - -
    exact ⟨fun _ => ⟨hg, h.other hg⟩, fun _ => h.other hg⟩
  · rintro V w S fc fc' ⟨hg, h⟩ - - -
    exact ⟨hg, h.other hg⟩
  · rintro V w w₁ w₂ fc a ⟨hg, h⟩ - - -
    exact ⟨fun _ => h.other hg, fun _ => h.other hg⟩

theorem Mirrors.lasting (hB : 0 < B) : Lasting (holding f c₀) B (Mirrors B f c₀) (Mirrors B f c₀)
    (fun g _ V w => g ≠ f ∧ Mirrors B f c₀ V w) where
  seen _ _ := trivial
  fetches := Mirrors.fetches hB
  flushes := Mirrors.flushes
  thinned {V V' w} h _ ht := by
    intro fc' hf'
    obtain ⟨fc, hf, hth⟩ := ht.file hf'
    obtain ⟨hc, hs⟩ := h fc hf
    exact ⟨hth.allClean hc, hs.thinned hc hth⟩
  asks _ h _ _ := h
  drop {V w} g h := by
    intro fc hf
    by_cases hg : f = g
    · rw [hg, Files.drop_self] at hf
      cases hf
    · rw [Files.drop_other hg] at hf
      exact h fc hf

/-- A read of `f` has returned bytes of `c₀`. -/
def ReadsBack (f : Str) (c₀ : Bytes) : (op : Op) → Outcome op.Ret → Prop
  | .read g off n, .ok data => g = f → data = pread c₀ off n
  | _, _ => True

def Mirroring (B : Nat) (f : Str) (c₀ : Bytes) (s : NetFS) (w : Server) : Prop :=
  s.cache.Wf B ∧ Mirrors B f c₀ s.files w

def Mirrored (B : Nat) (f : Str) (c₀ : Bytes) (op : Op) (s : NetFS) (w : Server) (o : Outcome op.Ret) : Prop :=
  o ≠ .fault ∧ Mirroring B f c₀ s w ∧ ReadsBack f c₀ op o

abbrev Reflects (B : Nat) (f : Str) (c₀ : Bytes) : Client → Server → Prop :=
  Thread.Keeps (fun _ _ => (holding f c₀).net) (Mirroring B f c₀) fun op _ => Mirrored B f c₀ op

/-- **One operation** that does not change `f`, while the server's `f` does
not change. -/
theorem Mirroring.run {s : NetFS} {c : Config} (hB : 0 < c.blockSize) {op : Op} (hop : ¬ op.Changes f)
    (h : Mirroring c.blockSize f c₀ s w) :
    (op.run c s).wp (holding f c₀).net (Mirrored c.blockSize f c₀ op) w := by
  obtain ⟨hw, hM⟩ := h
  have hL : Lasting (holding f c₀) c.blockSize (Mirrors c.blockSize f c₀) (Mirrors c.blockSize f c₀) _ :=
    Mirrors.lasting hB
  have hkeep := hL.run hB op (s := s)
    (by
      rintro g off buf rfl V w fc fc' hV - -
      exact hV.other hop)
    (by
      rintro g n rfl
      refine Cache.truncate_rule (K := Mirrors c.blockSize f c₀) (hL.fetches g) (fun hV _ _ => hV) ?_
        (fun _ _ => trivial) ?_ id hw hM
      · intro V w fc fc' hV _ _ _ _
        exact hV.other hop
      · intro V w w₁ w₂ fc a hV _ _ _
        exact ⟨fun _ => hV.other hop, fun _ => hV.other hop⟩) hw hM
  cases op with
  | read g off n =>
    have hres : ((NetFS.read c g off n) s).wp (holding f c₀).net (NetFS.Ends c.blockSize (Mirrors c.blockSize f c₀)
        (Mirrors c.blockSize f c₀) fun data => g = f → data = pread c₀ off n) w := by
      refine NetFS.read_rule hB (hL.fetches g) hL.flushes hL.thinned (fun {c' w' data} hM hr hg => ?_) hw hM
      obtain ⟨fc, hf, hlen, hby⟩ := hr
      exact (hM fc (hg ▸ hf)).2.pread hlen hby
    refine (hkeep.and hres).mono fun s w o hQ => ⟨hQ.1.keeps.1, hQ.1.keeps.2, ?_⟩
    cases o with
    | ok data => exact hQ.2.2.2
    | err e => trivial
    | fault => trivial
  | _ => exact hkeep.mono fun s w o hQ => ⟨hQ.keeps.1, hQ.keeps.2, by cases o <;> trivial⟩

/-- **While the file does not change**, the cache mirrors it. -/
theorem Quiet.keeps (hB : 0 < (cfg A).blockSize) (hq : Quiet cfg A f c₀ S S') (hc : S.world.content f = some c₀)
    (h : Reflects (cfg A).blockSize f c₀ (S.threads A) S.world) :
    S'.world.content f = some c₀ ∧ Reflects (cfg A).blockSize f c₀ (S'.threads A) S'.world := by
  induction hq with
  | refl => exact ⟨hc, h⟩
  | @step S' i e S'' _ hs hc' hop ih =>
    obtain ⟨hcur, hK⟩ := ih
    refine ⟨hc', ?_⟩
    by_cases hi : i = A
    · subst hi
      exact (hs.keeps hK (fun hQ => ⟨hQ.1, hQ.2.1⟩) (fun _ => hcur) (fun _ hw => hw)
        (fun _ _ hw => ⟨hw, hc'⟩) fun s _ hP => hP.run hB (hop rfl)).1
    · rw [hs.other (Ne.symm hi)]
      exact hK.rely (fun _ _ => hc') (fun _ _ _ _ _ _ h => h) (fun s hP => hP) fun _ _ _ _ => trivial

/-- What a check leaves of a clean file that was not cut: the server's
content. -/
theorem Good.mirrors (hG : Good B cut V w) (hch : Checked f V w) (hcut : ∀ fc, V f = some fc → ¬ cut f)
    (hclean : ∀ fc, V f = some fc → fc.AllClean) (hc : w.content f = some c₀) : Mirrors B f c₀ V w := by
  intro fc hf
  have hv := hG f
  rw [hf] at hv
  obtain ⟨srv, l, hsrv, -, hsync, hrest⟩ := hv.2 (hcut fc hf) (hch.2 fc hf)
  obtain rfl : c₀ = srv := Option.some.inj (hc.symm.trans hsrv)
  have hl : c₀ = l := ext_byteAt (hrest trivial (hclean fc hf)) fun x =>
    hsync.rest x (.inr (hclean fc hf).not_dirtyAt)
  rw [← hl] at hsync
  exact ⟨hclean fc hf, hsync⟩

/-- **Close-to-open coherence.** In any interleaving of any clients' requests,
failing or not: when `access f` or `stat f` returns 0 at `A`, whose writes
all stored something, and `A` then has no dirty block of `f` and has not cut
`f` inside a block since it was cached, then `A`'s reads of `f` return what
the server holds in `f`, as long as it holds it and `A` does not change `f`
itself. -/
theorem close_to_open (hB : 0 < (cfg A).blockSize) (h : History cfg A S cut) (hs : Step cfg S A e S')
    (hop : e.op.Opens f) (hret : ∃ a, e.ret = some (.ok a))
    (hclean : ∀ fc, (S'.threads A).state.files f = some fc → fc.AllClean)
    (hcut : ¬ cutAfter (cfg A).blockSize (S.threads A) (S'.threads A) e cut f) :
    ∃ c₀, S'.world.content f = some c₀ ∧ ∀ S₁ S₂ reply off n data, Quiet cfg A f c₀ S' S₁ →
      Step cfg S₁ A ⟨.read f off n, reply, some (.ok data)⟩ S₂ → S₂.world.content f = some c₀ →
      data = pread c₀ off n := by
  have hne : ∀ f off buf, e.op = .write f off buf → buf ≠ [] := fun g off buf ho => by rw [ho] at hop; exact hop.elim
  obtain ⟨hK, hch⟩ := Resting.step hB hs hne (h.keeps hB)
  obtain ⟨s, hcl, hch⟩ := hch f hop hret
  rw [hcl] at hK hclean hcut
  obtain ⟨c₀, hc⟩ := hch.1
  refine ⟨c₀, hc, fun S₁ S₂ reply off n data hq hread hc' => ?_⟩
  have hM : Mirrors (cfg A).blockSize f c₀ s.files S'.world := hK.2.mirrors hch (fun _ _ => hcut) hclean hc
  have hK₁ : Reflects (cfg A).blockSize f c₀ (S'.threads A) S'.world := by
    rw [hcl]
    exact ⟨hK.1, hM⟩
  obtain ⟨hcur, hK₂⟩ := hq.keeps hB hc hK₁
  obtain ⟨-, hend⟩ := hread.keeps hK₂ (fun hQ => ⟨hQ.1, hQ.2.1⟩) (fun _ => hcur) (fun _ hw => hw)
        (fun _ _ hw => ⟨hw, hc'⟩)
    fun s _ hP => hP.run hB id
  obtain ⟨-, _, -, hQ⟩ := hend _ rfl
  exact hQ.2.2 rfl

/-- A state of a run in which `A` has cut no file inside a block. -/
def Uncut (cfg : ι → Config) (A : ι) (S : System ι) : Prop := ∃ cut, History cfg A S cut ∧ ∀ f, ¬ cut f

theorem not_cutAfter {cl cl' : Client} (hcut : ¬ cut f) (ht : ∀ n, e.op ≠ .truncate f n) :
    ¬ cutAfter B cl cl' e cut f := by
  intro h
  rcases h.1 with hc | ⟨_, _, n, -, hop, -⟩
  · exact hcut hc
  · exact ht n hop

theorem Uncut.step {op : Op} (h : Uncut cfg A S) (hs : Step cfg S A e S') (ho : e.op = op)
    (hne : ∀ f off buf, op = .write f off buf → buf ≠ []) (ht : ∀ f n, op ≠ .truncate f n) : Uncut cfg A S' := by
  subst ho
  obtain ⟨cut, h, hcut⟩ := h
  exact ⟨_, h.own hs hne, fun f => not_cutAfter (hcut f) (ht f)⟩

theorem uncut_start : Uncut smallCache true ⟨oneFile, fun _ => .idle .new⟩ := ⟨_, .start fun _ => rfl, fun _ h => h⟩

/-- A client that has written a byte of the file and has then flushed it, and
the server. -/
def flushedClient : NetFS × Server :=
  let a := answeredRun (.write [102] 0 [9]) (smallCache true) .new oneFile
  let b := answeredRun (.flush [102]) (smallCache true) a.1 a.2.2
  (b.1, b.2.2)

theorem exists_flushed : ∃ S : System Bool, Uncut smallCache true S ∧ S.world = flushedClient.2 ∧
    S.threads true = .idle flushedClient.1 := by
  obtain ⟨S₁, h₁, hw₁, ht₁, hc₁⟩ := answered_steps (.write [102] 0 [9]) (Uncut smallCache true) (i := true)
    (o := .ok ()) (by decide +kernel) rfl oneFile_ticking rfl uncut_start
    fun h hs ho => h.step hs ho (fun f off buf he => by cases he; decide) (by simp)
  obtain ⟨S₂, h₂, hw₂, -, hc₂⟩ := answered_steps (.flush [102]) (Uncut smallCache true) (i := true)
    (o := .ok ()) (by decide +kernel) hw₁ (hw₁ ▸ ht₁) hc₁ h₁
    fun h hs ho => h.step hs ho (by simp) (by simp)
  exact ⟨S₂, h₂, hw₂, hc₂⟩

/-- The client checks the file, of which it has a clean block, and reads it. -/
theorem close_to_open_flushed : ∃ (S S₁ S₂ : System Bool) (fc : FileCache) (reply : Option ((r : Req) × r.Resp)),
    (S.threads true).state.files [102] = some fc ∧ fc.entries.keys = [0] ∧ fc.AllClean ∧
      S.world.content [102] = some [9, 2, 3] ∧ Quiet smallCache true [102] [9, 2, 3] S S₁ ∧
      Step smallCache S₁ true ⟨.read [102] 0 3, reply, some (.ok [9, 2, 3])⟩ S₂ ∧
      [9, 2, 3] = pread [9, 2, 3] 0 3 := by
  obtain ⟨S₀, h₀, hw₀, hc₀⟩ := exists_flushed
  obtain ⟨S₁, S, rep, ⟨cut, hist, hcut⟩, -, hopen, hw, hidle⟩ := readOnly_steps (.access [102]) (Uncut smallCache true)
    (i := true) (o := .ok ()) (by decide +kernel) hw₀ hc₀ h₀
    fun h hs ho _ => h.step hs ho (by simp) (by simp)
  have hcached : ((readOnlyRun (.access [102]) (smallCache true) flushedClient.1 flushedClient.2).1.files [102]).any
      (fun fc => decide (fc.entries.keys = [0] ∧ ∀ p ∈ fc.entries.entries, p.2.state = .clean)) = true := by
    decide +kernel
  obtain ⟨fc, hfc, hfacts⟩ := Option.any_eq_true _ _ |>.mp hcached
  obtain ⟨hkeys, hstates⟩ := of_decide_eq_true hfacts
  have hfile : (S.threads true).state.files [102] = some fc := by
    rw [hidle]
    exact hfc
  have hclean : fc.AllClean := fun b e he => hstates _ (AList.mem_lookup_iff.mp he)
  obtain ⟨c₀, hcont, hreads⟩ := close_to_open (by decide) hist hopen rfl ⟨(), rfl⟩
    (fun fc' hf => Option.some.inj (hfile.symm.trans hf) ▸ hclean) (not_cutAfter (hcut _) (by simp))
  have hserver : flushedClient.2.content [102] = some [9, 2, 3] := by decide +kernel
  rw [hw] at hcont
  obtain rfl : c₀ = [9, 2, 3] := Option.some.inj (hcont.symm.trans hserver)
  obtain ⟨S₂, S₃, rep', hq, -, hstep, hw₃, -⟩ := readOnly_steps (.read [102] 0 3)
    (fun S₂ => Quiet smallCache true [102] [9, 2, 3] S S₂) (o := .ok [9, 2, 3]) (by decide +kernel) hw hidle (.refl S)
    (fun h hs ho hw₂ => h.step hs (by rw [hw₂]; exact hserver) fun _ hch => by rw [ho] at hch; exact hch)
  exact ⟨S, S₂, S₃, fc, rep', hfile, hkeys, hclean, by rw [hw]; exact hserver, hq, hstep,
    hreads S₂ S₃ rep' 0 3 _ hq hstep (by rw [hw₃]; exact hserver)⟩

/-- **A read of bytes the server does not hold**: the client checks the file,
writes a byte, which stays in its cache, and reads it back. Nobody else
changes anything. -/
theorem own_write_read_back : ∃ (S S' S₁ S₂ : System Bool) (cut : Str → Prop) (rep rep' : Option ((r : Req) × r.Resp)),
    History smallCache true S cut ∧ Step smallCache S true ⟨.access [102], rep, some (.ok ())⟩ S' ∧
      (∀ fc, (S'.threads true).state.files [102] = some fc → fc.AllClean) ∧
      ¬ cutAfter 2 (S.threads true) (S'.threads true) ⟨.access [102], rep, some (.ok ())⟩ cut [102] ∧
      Relation.ReflTransGen (fun T T' => ∃ i e, Step smallCache T i e T' ∧ T'.world = oneFile) S' S₁ ∧
      Step smallCache S₁ true ⟨.read [102] 0 3, rep', some (.ok [9, 2, 3])⟩ S₂ ∧ S₂.world = oneFile ∧
      S'.world.content [102] = some [1, 2, 3] ∧ pread [1, 2, 3] 0 3 ≠ [9, 2, 3] := by
  obtain ⟨S, S', rep, ⟨cut, hist, hcut⟩, -, hopen, hw, hidle⟩ := readOnly_steps (.access [102]) (Uncut smallCache true)
    (i := true) (o := .ok ()) (by decide +kernel) rfl rfl uncut_start
    fun h hs ho _ => h.step hs ho (by simp) (by simp)
  have hidle : S'.threads true = .idle (readOnlyRun (.access [102]) (smallCache true) .new oneFile).1 := hidle
  have hnone : (readOnlyRun (.access [102]) (smallCache true) .new oneFile).1.files [102] = none := rfl
  obtain ⟨-, T, -, -, hT, -, hwT, hcT⟩ := readOnly_steps (.write [102] 0 [9])
    (Relation.ReflTransGen (fun T T' => ∃ i e, Step smallCache T i e T' ∧ T'.world = oneFile) S') (i := true)
    (o := .ok ()) (by decide +kernel) hw hidle .refl fun h hs _ hw => h.tail ⟨_, _, hs, hw⟩
  obtain ⟨S₁, S₂, rep', hS₁, -, hread, hw₂, -⟩ := readOnly_steps (.read [102] 0 3)
    (Relation.ReflTransGen (fun T T' => ∃ i e, Step smallCache T i e T' ∧ T'.world = oneFile) S') (i := true)
    (o := .ok [9, 2, 3]) (by decide +kernel) hwT hcT hT fun h hs _ hw => h.tail ⟨_, _, hs, hw⟩
  refine ⟨S, S', S₁, S₂, cut, rep, rep', hist, hopen, fun fc hf => ?_, not_cutAfter (hcut _) (by simp), hS₁, hread,
    hw₂, by rw [hw]; rfl, by decide⟩
  rw [hidle] at hf
  cases hnone.symm.trans hf

end Nfs
