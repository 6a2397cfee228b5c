/-
Any number of clients and one server: the clients are threads that run the
operations of `NetFS`, and the server answers one request at a time, so the
requests of different clients interleave in every way.
-/
import Nfs.Lib.Threads
import Nfs.FileOp

namespace Nfs

open PlainFile Resume

abbrev Client := Thread NetFS Req.Resp Op.Ret

abbrev System (ι : Type) := Threads ι Server NetFS Req.Resp Op.Ret

abbrev Event := Threads.Event Req.Resp Op.Ret

variable {ι : Type} [DecidableEq ι]

/-- A step of client `i`, which is configured by `cfg i`. -/
abbrev Step (cfg : ι → Config) : System ι → ι → Event → System ι → Prop :=
  Threads.Step Server.Serve fun i op => op.run (cfg i)

/-- A state of a run. -/
inductive Reach (cfg : ι → Config) : System ι → Prop
  | start : (∀ i, S.threads i = .idle .new) → Reach cfg S
  | step : Reach cfg S → Step cfg S i e S' → Reach cfg S'

variable {cfg : ι → Config} {S S' : System ι} {i : ι} {e : Event}

theorem step_evolves (h : Step cfg S i e S') : S.world.Evolves S'.world :=
  h.moves Server.Evolves.refl fun hs => hs.evolves

/-- The operations that check whether a cached file is current. -/
def Op.Opens : Op → Str → Prop
  | .access f, g => f = g
  | .stat f, g => f = g
  | _, _ => False

/-- The operations that change `f` at the client. -/
def Op.Changes : Op → Str → Prop
  | .write f _ _, g => f = g
  | .truncate f _, g => f = g
  | _, _ => False

/-! ## Whatever the server answers -/

/-- Any answer to any request. -/
def anyAnswer : Service Unit where
  serve _ _ _ _ := True
  rely _ _ := True
  seen _ _ := True

theorem Lasting.anyAnswer (B : Nat) :
    Lasting anyAnswer B (fun _ _ => True) (fun _ _ => True) fun _ _ _ _ => True where
  seen _ _ := trivial
  fetches := .nothing fun _ => trivial
  flushes := .nothing fun _ => trivial
  thinned _ _ _ := trivial
  asks _ _ _ _ := trivial
  drop _ _ := trivial

/-- An operation never fails a check, and keeps the cache well formed. -/
theorem Op.run_wf {c : Config} (hB : 0 < c.blockSize) (op : Op) {s : NetFS} (h : s.cache.Wf c.blockSize) :
    (op.run c s).wp Nfs.anyAnswer.net (fun s _ o => o ≠ .fault ∧ s.cache.Wf c.blockSize) () := by
  have hL := Lasting.anyAnswer c.blockSize
  refine (hL.run hB op (fun _ _ _ _ _ _ _ _ => trivial) (fun _ => ?_) h trivial).mono fun s w o hQ =>
    ⟨hQ.keeps.1, hQ.keeps.2.1⟩
  exact Cache.truncate_rule (K := fun _ _ => True) (hL.fetches _) (fun _ _ _ => trivial) (fun _ _ _ _ _ => trivial)
    (fun _ _ => trivial) (fun _ _ _ _ => ⟨fun _ => trivial, fun _ => trivial⟩) id h trivial

/-- **Every state of a run**: the caches are well formed, and no client is
down. -/
theorem Reach.wf (hB : 0 < (cfg i).blockSize) (h : Reach cfg S) :
    (S.threads i).Keeps (fun _ _ => anyAnswer.net) (fun s _ => s.cache.Wf (cfg i).blockSize)
      (fun _ _ s _ o => o ≠ .fault ∧ s.cache.Wf (cfg i).blockSize) () := by
  induction h with
  | start hnew =>
    rw [hnew i]
    exact Cache.empty_wf
  | @step S j e S' _ hs ih =>
    by_cases hi : i = j
    · subst hi
      exact (hs.keeps ih id (fun _ => trivial) (fun _ _ => rfl) (fun _ _ _ => trivial)
        fun s _ h => e.op.run_wf hB h).1
    · rw [hs.other hi]
      exact ih

theorem Reach.idle_wf {s : NetFS} (hB : 0 < (cfg i).blockSize) (h : Reach cfg S) (hi : S.threads i = .idle s) :
    s.cache.Wf (cfg i).blockSize := by
  have hw := h.wf hB
  rwa [hi] at hw

/-! ## Operations that find nothing to change -/

/-- What an operation does over a server that lets nothing be changed. -/
def readOnlyRun (op : Op) (c : Config) (s : NetFS) (w : Server) : NetFS × Outcome op.Ret × Server :=
  (op.run c s).interp (fun w r => (w.readOnly r, w)) w

/-- What it asks for. -/
def readOnlyAsks (op : Op) (c : Config) (s : NetFS) (w : Server) : List Req :=
  (op.run c s).asked (fun w r => (w.readOnly r, w)) w

theorem exec_readOnly_asks (op : Op) (c : Config) (s : NetFS) (w : Server) {o : Outcome op.Ret} {R : Req → Prop}
    (hR : ∀ r ∈ readOnlyAsks op c s w, R r) (ho : (readOnlyRun op c s w).2.1 = o) :
    Exec (fun v r a v' => (a = w.readOnly r ∧ v = w ∧ v' = w) ∧ R r) (op.run c s) w (readOnlyRun op c s w).1 o w := by
  have h : Exec (fun v r a v' => (a = w.readOnly r ∧ v = w ∧ v' = w) ∧ R r) (op.run c s) w (readOnlyRun op c s w).1
      (readOnlyRun op c s w).2.1 (readOnlyRun op c s w).2.2 ∧ (readOnlyRun op c s w).2.2 = w :=
    exec_interp (P := fun v => v = w) (fun v r hr hv => ⟨⟨⟨by rw [hv], hv, hv⟩, hr⟩, hv⟩) (op.run c s) w hR rfl
  rw [h.2, ho] at h
  exact h.1

theorem exec_readOnly (op : Op) (c : Config) (s : NetFS) (w : Server) {o : Outcome op.Ret}
    (ho : (readOnlyRun op c s w).2.1 = o) :
    Exec (fun v r a v' => a = w.readOnly r ∧ v = w ∧ v' = w) (op.run c s) w (readOnlyRun op c s w).1 o w :=
  (exec_readOnly_asks op c s w (R := fun _ => True) (fun _ _ => trivial) ho).map id And.left

/-- The operation as steps of a run: `I` holds before and after the last one. -/
theorem readOnly_steps (op : Op) (I : System ι → Prop) {s : NetFS} {w : Server} {o : Outcome op.Ret}
    (ho : (readOnlyRun op (cfg i) s w).2.1 = o) (hw : S.world = w) (hc : S.threads i = .idle s) (h : I S)
    (hI : ∀ {S₁ S₂ e}, I S₁ → Step cfg S₁ i e S₂ → e.op = op → S₂.world = w → I S₂) :
    ∃ S₁ S₂ rep, I S₁ ∧ I S₂ ∧ Step cfg S₁ i ⟨op, rep, some o⟩ S₂ ∧ S₂.world = w ∧
      S₂.threads i = .after op (.done (readOnlyRun op (cfg i) s w).1 o) := by
  have hserve : ∀ {v r a v'}, (a = w.readOnly r ∧ v = w ∧ v' = w) → Server.Serve v r a v' := by
    rintro v r a v' ⟨rfl, rfl, rfl⟩
    exact v'.serve_readOnly r
  have hstep : ∀ {S₁ S₂ e}, (I S₁ ∧ S₁.world = w) → Step cfg S₁ i e S₂ → e.op = op →
      (∀ r a, e.reply = some ⟨r, a⟩ → a = w.readOnly r ∧ S₁.world = w ∧ S₂.world = w) → I S₂ ∧ S₂.world = w := by
    rintro S₁ S₂ e ⟨h₁, hw₁⟩ hs hop hrep
    have hw₂ : S₂.world = w := by
      rcases hs.own with ⟨_, _, hw₂, _⟩ | ⟨_, r, _, a, _, _, he, _⟩
      · rw [hw₂, hw₁]
      · exact (hrep r a he).2.2
    exact ⟨hI h₁ hs hop hw₂, hw₂⟩
  obtain ⟨S₁, S₂, rep, h₁, h₂, hs, hw₂, hc₂⟩ := Threads.steps Server.Serve
    (fun i (op : Op) => op.run (cfg i)) i op (fun S => I S ∧ S.world = w) (exec_readOnly op (cfg i) s w ho) hw hc
    ⟨h, hw⟩ hserve hstep
  exact ⟨S₁, S₂, rep, h₁.1, h₂.1, hs, hw₂, hc₂⟩

/-! ## Operations over a server that carries every change out -/

/-- A change of `f`, with the times before it and after it. -/
def Server.changed (w : Server) (f : Str) (u : Bytes → Bytes) : ChangeResp × Server :=
  match w.files f, Kernel.modify w f u with
  | some s, some w' => ({ error := 0, beforeChange := s.time, afterChange := ((w'.files f).getD s).time }, w')
  | _, _ => ({ error := 5, beforeChange := .epoch, afterChange := .epoch }, w)

/-- How a server answers that carries out the changes of its files; nothing is
created or removed. -/
def Server.answer (w : Server) : (r : Req) → r.Resp × Server
  | .write f offset data => w.changed f (pwrite · offset data)
  | .truncate f offset => w.changed f (ftruncate · offset)
  | r => (w.readOnly r, w)

def Server.Ticking (w : Server) : Prop := Kernel.Ticking { fs := w, fds := fun _ => none }

/-- Nothing has been changed yet. -/
theorem Server.Ticking.of_unchanged {w : Server} (h : ∀ p t t', w.had p t → w.had p t' → t = t') : w.Ticking := by
  intro p s t hs ht
  rw [h p t _ ht (w.own hs)]
  exact Int64.le_refl _

theorem Server.changed_spec {w : Server} {f : Str} {u : Bytes → Bytes} (hw : w.Ticking) :
    ((w.changed f u).1.error = 0 → ∃ s s', w.Change f u s s' (w.changed f u).2 ∧
      (w.changed f u).1.beforeChange = s.time ∧ (w.changed f u).1.afterChange = s'.time) ∧
    ((w.changed f u).1.error ≠ 0 → (w.changed f u).2 = w) ∧ (w.changed f u).2.Ticking := by
  rw [changed]
  split
  · rename_i s w' hs hm
    obtain ⟨⟨s₀, s', hc, -⟩, ht⟩ := Kernel.modify_spec hw hm
    cases hs.symm.trans hc.1
    refine ⟨fun _ => ⟨s, s', hc, rfl, ?_⟩, fun he => absurd rfl he, ht _⟩
    rw [hc.2.1.2.1]
    rfl
  · exact ⟨fun he => absurd he (show (5 : Int) ≠ 0 by decide), fun _ => rfl, hw⟩

theorem Server.serve_answer {w : Server} (hw : w.Ticking) (r : Req) :
    w.Serve r (w.answer r).1 (w.answer r).2 ∧ (w.answer r).2.Ticking := by
  cases r with
  | write f off data =>
    obtain ⟨hok, herr, ht⟩ := changed_spec (f := f) (u := (pwrite · off data)) hw
    exact ⟨⟨hok, fun he => .inl (herr he)⟩, ht⟩
  | truncate f n =>
    obtain ⟨hok, herr, ht⟩ := changed_spec (f := f) (u := (ftruncate · n)) hw
    exact ⟨⟨hok, fun he => .inl (herr he)⟩, ht⟩
  | _ => exact ⟨w.serve_readOnly _, hw⟩

def answeredRun (op : Op) (c : Config) (s : NetFS) (w : Server) : NetFS × Outcome op.Ret × Server :=
  (op.run c s).interp Server.answer w

/-- The operation as steps of a run, which keep `I`. -/
theorem answered_steps (op : Op) (I : System ι → Prop) {s : NetFS} {w : Server} {o : Outcome op.Ret}
    (ho : (answeredRun op (cfg i) s w).2.1 = o) (hw : S.world = w) (ht : w.Ticking) (hc : S.threads i = .idle s)
    (h : I S) (hI : ∀ {S₁ S₂ e}, I S₁ → Step cfg S₁ i e S₂ → e.op = op → I S₂) :
    ∃ S', I S' ∧ S'.world = (answeredRun op (cfg i) s w).2.2 ∧ S'.world.Ticking ∧
      S'.threads i = .after op (.done (answeredRun op (cfg i) s w).1 o) := by
  subst ho
  have hx : Exec Server.Serve (op.run (cfg i) s) w _ _ _ ∧ _ := exec_interp (h := Server.answer) (P := Server.Ticking)
    (R := fun _ => True) (fun w r _ hw => Server.serve_answer hw r) (op.run (cfg i) s) w (fun _ _ => trivial) ht
  obtain ⟨hx, ht'⟩ := hx
  obtain ⟨-, S', -, -, h', -, hw', hc'⟩ := Threads.steps Server.Serve (fun i (op : Op) => op.run (cfg i)) i op I
    hx hw hc h id fun h hs hop _ => hI h hs hop
  exact ⟨S', h', hw', by rw [hw']; exact ht', hc'⟩

/-- Two clients of a server with one file of three bytes. -/
def oneFile : Server where
  files f := if f = [102] then some { content := [1, 2, 3], mode := 0, time := .epoch } else none
  had _ t := t = FileTime.epoch.stamp
  own {f s} h := by
    split at h
    · cases h
      rfl
    · cases h

theorem oneFile_ticking : oneFile.Ticking := .of_unchanged fun _ _ _ h h' => Eq.trans h (Eq.symm h')

def smallCache : Bool → Config := fun _ =>
  { blockSize := 2, maxCacheEntry := 4, evictCount := 1, flushInterval := 3, order := .inserted }

end Nfs
