/-
A client whose files nobody else changes never mistrusts its cache.

Every answer to a write or a truncate carries the stamp the file had before
and the one it has now. As long as nobody else changes the files and no
request fails, the first is the cached one, so the file is not marked stale,
and the second becomes the cached one. So in every state of a run, also
between two requests of one operation, the cached stamps are the server's
(`Current`), and a check (`access`, `stat`) keeps what is cached.
-/
import Nfs.System

namespace Nfs

open PlainFile Resume

section
variable {ι : Type} [DecidableEq ι]

/-- The operations of the run. -/
def Op.Lone : Op → Prop
  | .read .. => True
  | .write .. => True
  | .truncate .. => True
  | .flush _ => True
  | .stat _ => True
  | .access _ => True
  | _ => False

/-- The files of the server keep their stamps. -/
def Server.Still (w w' : Server) : Prop :=
  ∀ f s, w.files f = some s → ∃ s', w'.files f = some s' ∧ s'.time.eq s.time = true

/-- A run in which no request of client `A` fails, and the others change no
file. -/
inductive Alone (cfg : ι → Config) (A : ι) : System ι → Prop
  | start : S.threads A = .idle .new → Alone cfg A S
  | step : Alone cfg A S → Step cfg S A e S' → e.op.Lone → (∀ r a, e.reply = some ⟨r, a⟩ → r.error a = 0) →
      Alone cfg A S'
  | other : Alone cfg A S → Step cfg S i e S' → i ≠ A → S.world.Still S'.world → Alone cfg A S'

end

/-- No cached file is marked stale, and its time compares equal to the
server's. -/
def Current (V : Files) (w : Server) : Prop :=
  ∀ f fc, V f = some fc → fc.stale = false ∧ ∃ s, w.files f = some s ∧ fc.attr.time.eq s.time = true

section
variable {V : Files} {w w' : Server} {f : Str} {fc fc' : FileCache} {B : Nat}

theorem Server.Still.refl (w : Server) : w.Still w := fun _ s h => ⟨s, h, FileTime.eq_iff.mpr rfl⟩

theorem Server.Still.trans {w'' : Server} (h : w.Still w') (h' : w'.Still w'') : w.Still w'' := by
  intro f s hf
  obtain ⟨s', hf', ht⟩ := h f s hf
  obtain ⟨s'', hf'', ht'⟩ := h' f s' hf'
  exact ⟨s'', hf'', FileTime.eq_iff.mpr ((FileTime.eq_iff.mp ht').trans (FileTime.eq_iff.mp ht))⟩

theorem Server.Peek.still (h : w.Peek f w') : w.Still w' := by
  intro g s hg
  obtain ⟨-, ho, t, hf⟩ := h
  by_cases hgf : g = f
  · subst hgf
    rw [hg] at hf
    exact ⟨_, hf, FileTime.eq_iff.mpr rfl⟩
  · exact ⟨s, (ho g hgf).trans hg, FileTime.eq_iff.mpr rfl⟩

theorem Current.still (h : Current V w) (hw : w.Still w') : Current V w' := by
  intro g fc hg
  obtain ⟨hs, s, hf, ht⟩ := h g fc hg
  obtain ⟨s', hf', hst⟩ := hw g s hf
  exact ⟨hs, s', hf', FileTime.eq_iff.mpr ((FileTime.eq_iff.mp ht).trans (FileTime.eq_iff.mp hst).symm)⟩

/-- A file whose stamp is the current one. -/
theorem Current.set {s : SFile} (h : ∀ g, g ≠ f → ∀ fc, V g = some fc → fc.stale = false ∧
      ∃ s, w.files g = some s ∧ fc.attr.time.eq s.time = true) (hs : fc.stale = false) (hf : w.files f = some s)
    (ht : fc.attr.time.stamp = s.time.stamp) : Current (V.set f fc) w := by
  unfold Current
  exact Files.forall_set_some ⟨hs, s, hf, FileTime.eq_iff.mpr ht⟩ h

/-- A cached file that keeps its stamp and its mark. -/
theorem Current.reset (h : Current V w) (hf : V f = some fc) (hs : fc'.stale = fc.stale)
    (ht : fc'.attr.time = fc.attr.time) : Current (V.set f fc') w := by
  obtain ⟨hst, s, hw, heq⟩ := h f fc hf
  exact .set (fun g _ => h g) (hs.trans hst) hw (by rw [ht]; exact FileTime.eq_iff.mp heq)

/-- A change of `f`, answered with the two stamps: the mark stays off, and the
second stamp is the server's. -/
theorem Current.changed {u : Bytes → Bytes} {s s' : SFile} {before after : FileTime} (h : Current V w)
    (hf : V f = some fc) (hc : w.Change f u s s' w') (hb : before = s.time) (ha : after = s'.time)
    (hs : fc'.stale = if before.ne fc.attr.time then true else fc.stale) (ht : fc'.attr.time = after) :
    Current (V.set f fc') w' := by
  obtain ⟨hst, s₁, hw, heq⟩ := h f fc hf
  cases hw.symm.trans hc.1
  have hne : ¬ before.ne fc.attr.time = true := by
    rw [FileTime.ne_iff, hb, not_not]
    exact (FileTime.eq_iff.mp heq).symm
  refine .set (fun g hg gc hV => ?_) (by rw [hs, if_neg hne, hst]) hc.2.1.2.1 (by rw [ht, ha])
  obtain ⟨h₁, s₂, h₂, h₃⟩ := h g gc hV
  exact ⟨h₁, s₂, (hc.other hg).trans h₂, h₃⟩

theorem Current.agrees {s : SFile} (h : Current V w) (hf : w.files f = some s) : V.Agrees f s.time := by
  intro fc hV
  obtain ⟨hs, s', hf', ht⟩ := h f fc hV
  cases hf.symm.trans hf'
  exact ⟨hs, FileTime.eq_iff.mp ht⟩

/-- The operation is a check. -/
def Op.Checks (op : Op) : Prop := ∃ f, op.Opens f

theorem Op.lone_of_checks {op : Op} (h : op.Checks) : op.Lone := by
  obtain ⟨f, hf⟩ := h
  cases op <;> first | exact trivial | exact hf.elim

/-- The server as client `A` meets it: a check finds the cache as it was at the
call. -/
def lone (op : Op) (V₀ : Files) : Service Server where
  serve w r a w' := w.Serve r a w' ∧ r.error a = 0
  rely := Server.Still
  seen c w := Current c.file w ∧ (op.Checks → c.file = V₀)

variable {op : Op} {V₀ : Files}

theorem Current.fetches (hop : ¬ op.Checks) (f : Str) :
    Fetches (lone op V₀).back B Current (fun _ _ => False) f := by
  refine ⟨fun _ h => ⟨h, fun hc => absurd hc hop⟩, ?_, ?_⟩
  · rintro V w w₁ w₂ _ h - hr ⟨resp, ⟨⟨hw, hok⟩, he⟩, rfl⟩
    obtain ⟨s, hf, -, -, ht⟩ := hok he
    have h := h.still hr
    rw [hw]
    exact ⟨fun _ => .set (fun g _ => h g) rfl hf (congrArg FileTime.stamp ht), fun hne => absurd he hne⟩
  · rintro V w w₁ w₂ fc start n a h hf hr ⟨resp, ⟨⟨hp, -⟩, he⟩, ha⟩
    obtain rfl : a = _ := ha.trans (doRead_ok he)
    have h := (h.still hr).still hp.still
    exact ⟨fun _ fc' hfill => h.reset hf hfill.stale (by rw [hfill.attr]), fun hne => absurd rfl hne⟩

theorem Current.flushes (hop : ¬ op.Checks) (f : Str) :
    Flushes (lone op V₀).back B Current (fun _ _ => False) (fun _ => Current) f := by
  refine ⟨fun _ h => ⟨h, fun hc => absurd hc hop⟩, fun h _ _ => h, ?_, ?_, ?_, False.elim⟩
  · rintro V w w₁ w₂ S fc off data a h hf - hr ⟨resp, ⟨hs, he⟩, ha⟩
    obtain ⟨s, s', hc, hb, haf⟩ := hs.1 he
    obtain rfl : a = _ := ha.trans (doWrite_ok he)
    exact ⟨fun _ => (h.still hr).changed hf hc hb haf rfl rfl, fun hne => absurd rfl hne⟩
  · intro V w S fc fc' h hf _ hclean
    exact h.reset hf hclean.stale (by rw [hclean.attr])
  · rintro V w w₁ w₂ fc a h hf hr ⟨resp, ⟨hs, he⟩, ha⟩
    obtain ⟨s, s', hc, hb, haf⟩ := hs.1 he
    obtain rfl : a = _ := ha.trans (doWriteAttr_ok he)
    exact ⟨fun _ => (h.still hr).changed hf hc hb haf rfl rfl, fun hne => absurd rfl hne⟩

theorem Current.thinned {V' : Files} (h : Current V w) (ht : V.Thinned V') : Current V' w := by
  intro f fc' hf'
  obtain ⟨fc, hf, hth⟩ := ht.file hf'
  rw [hth.stale, hth.attr]
  exact h f fc hf

theorem Current.truncate {n : Nat} {c : Cache} (hop : ¬ op.Checks) (hw : c.Wf B) (h : Current c.file w) :
    (Cache.truncate B f n c).wp (lone op V₀).back (Cache.Ends B Current (fun _ _ => False) fun _ _ _ => True) w := by
  refine Cache.truncate_rule (K := Current) (Current.fetches hop f) (fun hV _ _ => hV) ?_
    (fun _ hK => ⟨hK, fun hc => absurd hc hop⟩) ((Current.flushes (B := B) hop f).attrWb) id hw h
  intro V w fc fc' hV hf _ _ hre
  exact hV.reset hf hre.stale (by rw [hre.attr])

/-! ## Runs -/

/-- What holds when an operation has ended. -/
def Trusted (B : Nat) (op : Op) (s₀ s : NetFS) (w : Server) (o : Outcome op.Ret) : Prop :=
  o ≠ .fault ∧ (s.cache.Wf B ∧ Current s.files w) ∧ (op.Checks → s.files = s₀.files)

theorem Trusted.of_ends {s s₀ : NetFS} {R : op.Ret → Prop} {o : Outcome op.Ret} (hop : ¬ op.Checks)
    (h : NetFS.Ends B Current (fun _ _ => False) R s w o) : Trusted B op s₀ s w o := by
  cases o with
  | ok a => exact ⟨nofun, ⟨h.1, h.2.1⟩, fun hc => absurd hc hop⟩
  | err e => exact h.2.elim
  | fault => exact h.elim

theorem Trusted.of_check {s s₀ : NetFS} {R : op.Ret → Prop} {o : Outcome op.Ret}
    (h : NetFS.Ends B (fun V w => Current V w ∧ V = s₀.files) (fun _ _ => False) R s w o) :
    Trusted B op s₀ s w o := by
  cases o with
  | ok a => exact ⟨nofun, ⟨h.1, h.2.1.1⟩, fun _ => h.2.1.2⟩
  | err e => exact h.2.elim
  | fault => exact h.elim

/-- **One operation.** -/
theorem Current.run {s : NetFS} {c : Config} (hB : 0 < c.blockSize) (hop : op.Lone) (hw : s.cache.Wf c.blockSize)
    (h : Current s.files w) : (op.run c s).wp (lone op s.files).net (Trusted c.blockSize op s) w := by
  cases op with
  | read f off n =>
    have hop : ¬ (Op.read f off n).Checks := fun ⟨_, hc⟩ => hc
    exact Act.wp.mono (NetFS.read_rule (P := fun _ => True) hB (Current.fetches hop f) (Current.flushes hop)
      (fun h _ ht => h.thinned ht) (fun _ _ => trivial) hw h) fun s w o hQ => .of_ends hop hQ
  | write f off buf =>
    have hop : ¬ (Op.write f off buf).Checks := fun ⟨_, hc⟩ => hc
    refine Act.wp.mono (NetFS.Ends.mono (NetFS.write_rule hB (Current.fetches hop f) ?_ (Current.flushes hop)
      (fun h _ ht => h.thinned ht) hw h) id (fun hX => hX.elim id id) fun _ _ => trivial)
      fun s w o hQ => .of_ends (R := fun _ => True) hop hQ
    intro V w fc fc' hV hf hst
    exact hV.reset hf hst.stale (by rw [hst.attr])
  | truncate f n =>
    have hop : ¬ (Op.truncate f n).Checks := fun ⟨_, hc⟩ => hc
    exact Act.wp.mono (NetFS.onCache_rule (P := fun _ => True) (Current.truncate hop hw h) fun _ _ _ => trivial)
      fun s w o hQ => .of_ends hop hQ
  | flush f =>
    have hop : ¬ (Op.flush f).Checks := fun ⟨_, hc⟩ => hc
    exact Act.wp.mono (NetFS.flush_rule hB (Current.flushes hop) hw h) fun s w o hQ => .of_ends hop hQ
  | access f =>
    refine Act.wp.mono (NetFS.access_rule (J := fun V w => Current V w ∧ V = s.files) (X := fun _ _ => False) hw
      ⟨h, fun _ => rfl⟩ ?_) fun s w o hQ => .of_check hQ
    rintro w₁ w₂ a hr ⟨⟨rfl, hok⟩, he⟩
    obtain ⟨sf, hf, ht⟩ := hok he
    have h := h.still hr
    exact ⟨fun hne => absurd he hne, fun _ => ⟨fun _ => ⟨h, rfl⟩, fun hn => absurd (ht ▸ h.agrees hf) hn⟩⟩
  | stat f =>
    refine Act.wp.mono (NetFS.stat_rule (J := fun V w => Current V w ∧ V = s.files) (X := fun _ _ => False)
      (R := fun _ => True) hw ⟨h, fun _ => rfl⟩ ?_) fun s w o hQ => .of_check hQ
    rintro w₁ w₂ a hr ⟨⟨rfl, hok⟩, he⟩
    obtain ⟨sf, hf, -, -, ht⟩ := hok he
    have h := h.still hr
    exact ⟨fun hne => absurd he hne,
      fun _ => ⟨trivial, fun _ => ⟨h, rfl⟩, fun hn => absurd (ht ▸ h.agrees hf) hn⟩⟩
  | _ => exact hop.elim

end

section
variable {ι : Type} [DecidableEq ι] {cfg : ι → Config} {A : ι} {S S' : System ι} {e : Event}

/-- The client's cache is current, also while an operation is under way. -/
abbrev Trusts (B : Nat) : Client → Server → Prop :=
  Thread.Keeps (fun op s₀ => (lone op s₀.files).net) (fun s w => s.cache.Wf B ∧ Current s.files w) (Trusted B)

theorem Trusts.step (hB : 0 < (cfg A).blockSize) (h : Trusts (cfg A).blockSize (S.threads A) S.world)
    (hs : Step cfg S A e S') (hop : e.op.Lone) (hok : ∀ r a, e.reply = some ⟨r, a⟩ → r.error a = 0) :
    Trusts (cfg A).blockSize (S'.threads A) S'.world ∧
      (e.op.Checks → (S'.threads A).state.files = (S.threads A).state.files) := by
  obtain ⟨s₀, p, hp, ht, -, hwas⟩ := hs.continues h (fun _ => .refl _) (fun _ hw => hw)
    (fun _ he hserve => ⟨hserve, hok _ _ he⟩) fun s _ hP => hP.2.run hB hop hP.1
  refine ⟨ht ▸ (Thread.Keeps.after hp fun hQ => ⟨hQ.1, hQ.2.1⟩).1, fun hc => ?_⟩
  have hbefore : (S.threads A).state.files = s₀.files := by
    rcases hwas with hi | hseen
    · rw [hi]
      rfl
    · exact hseen.2 hc
  rw [ht, hbefore]
  exact Thread.after_state (R := fun s => s.files = s₀.files) hp (fun hQ => hQ.2.2 hc) fun hseen => hseen.2 hc

/-- **A run.** -/
theorem Alone.trusts (hB : 0 < (cfg A).blockSize) (h : Alone cfg A S) :
    Trusts (cfg A).blockSize (S.threads A) S.world := by
  induction h with
  | start hnew =>
    rw [hnew]
    exact ⟨Cache.empty_wf, fun f fc hf => by cases hf⟩
  | step _ hs hop hok ih => exact (ih.step hB hs hop hok).1
  | other _ hs hi hst ih =>
    rw [hs.other (Ne.symm hi)]
    exact ih.rely (fun _ _ => hst) (fun _ _ _ _ _ h₁ h₂ => h₁.trans h₂) (fun _ hP => ⟨hP.1, hP.2.still hst⟩)
      fun _ _ _ hseen => ⟨hseen.1.still hst, hseen.2⟩

/-- **A client never mistrusts its own cache.** In every state of a run in
which no request of the client fails and the others change no file, no cached
file is marked stale and the cached times compare equal to the server's, so
no step of an `access` or a `stat` changes anything that is cached. -/
theorem own_changes_trusted (hB : 0 < (cfg A).blockSize) (h : Alone cfg A S) :
    Current (S.threads A).state.files S.world ∧
      ∀ e S', Step cfg S A e S' → (∃ f, e.op.Opens f) → (∀ r a, e.reply = some ⟨r, a⟩ → r.error a = 0) →
        (S'.threads A).state.files = (S.threads A).state.files := by
  have hK := h.trusts hB
  refine ⟨hK.state (R := fun s => Current s.files S.world) (·.2) (·.1), fun e S' hs hc hok => ?_⟩
  exact (hK.step hB hs (Op.lone_of_checks hc) hok).2 hc

/-- A client writes a byte and checks the file: the byte is still cached. -/
theorem own_changes_trusted_oneFile : ∃ (S S' : System Bool) (e : Event), Alone smallCache true S ∧
    Step smallCache S true e S' ∧ e.op = .access [102] ∧
      ((S.threads true).state.files [102]).any (fun fc => fc.entries.entries.any fun b => b.2.state = .dirty) = true ∧
      (S'.threads true).state.files = (S.threads true).state.files := by
  have h₀ : Alone smallCache true ⟨oneFile, fun _ => .idle .new⟩ := .start rfl
  obtain ⟨S₁, hs₁, hw₁, hc₁⟩ := Threads.exists_call Server.Serve
    (fun i (op : Op) => op.run (smallCache i)) (i := true) (.write [102] 0 [9])
    (rfl : (⟨oneFile, fun _ => .idle .new⟩ : System Bool).threads true = .idle .new)
  have h₁ := h₀.step hs₁ trivial fun _ _ he => by cases he
  -- The write asks for the attributes of the file, and for nothing else.
  obtain ⟨S₂, hs₂, hw₂, hc₂⟩ := Threads.exists_reply (fun i (op : Op) => op.run (smallCache i)) hc₁
    (S₁.world.serve_readOnly _)
  rw [hw₁] at hs₂ hw₂ hc₂
  have h₂ := h₁.step hs₂ trivial fun _ _ he => by
    cases he
    rfl
  obtain ⟨S₃, hs₃, hw₃, hc₃⟩ := Threads.exists_call Server.Serve (fun i (op : Op) => op.run (smallCache i))
    (.access [102]) (hc₂.trans (Thread.after_ok (a := ()) (by decide +kernel)))
  have h₃ := h₂.step hs₃ trivial fun _ _ he => by cases he
  obtain ⟨S₄, hs₄, -, -⟩ := Threads.exists_reply (fun i (op : Op) => op.run (smallCache i)) hc₃
    (S₃.world.serve_readOnly _)
  rw [hw₃, hw₂] at hs₄
  refine ⟨S₃, S₄, _, h₃, hs₄, rfl, ?_, (own_changes_trusted (by decide) h₃).2 _ _ hs₄ ⟨[102], rfl⟩ fun _ _ he => ?_⟩
  · rw [hc₃]
    decide +kernel
  · cases he
    rfl

end

end Nfs
