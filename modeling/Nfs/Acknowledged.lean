/-
What becomes of a write that has returned 0.

The bytes are in the client's cache, in a dirty block, and there they stay
until a write request that carries them has succeeded. `Unsent` is a run
from the call of such a write in which that has not happened, followed for
one byte: the client has not destroyed it either, by another write, by a
truncate, by removing the file or by renaming it.

One thing more is needed. A check of the file (`access`, `stat`) drops
everything that is cached of it if the request fails, if the file is marked
stale, or if the stamps differ; so does a request that removes the path or
puts another file there. What is dirty goes with it. `Kept` excludes these
answers.
-/
import Nfs.System

namespace Nfs

open PlainFile Resume

/-! ## Runs after a write -/

/-- A write request that carries byte `x` of `f` has succeeded. -/
def Carried (f : Str) (x : Nat) : (r : Req) → r.Resp → Prop
  | .write g off data, a => g = f ∧ off ≤ x ∧ x < off + data.length ∧ a.error = 0
  | _, _ => False

/-- The answer makes the client drop what it caches of `f`: a check of `f`
has failed or found another version, or the path has been removed or
overwritten. -/
def Drops (V : Files) (f : Str) : (r : Req) → r.Resp → Prop
  | .access g, a => g = f ∧ (a.error ≠ 0 ∨ ¬ V.Agrees f a.time)
  | .stat g, a => g = f ∧ (a.error ≠ 0 ∨ ¬ V.Agrees f a.time)
  | .rmdir g, a => g = f ∧ a.error = 0
  | .rename _ g _, a => g = f ∧ a.error = 0
  | _, _ => False

/-- The operation is meant to change or remove byte `x` of `f`. -/
def Op.Destroys : Op → Str → Nat → Prop
  | .write g off buf, f, x => g = f ∧ off ≤ x ∧ x < off + buf.length
  | .truncate g n, f, x => g = f ∧ n ≤ x
  | .unlink g, f, _ => g = f
  | .rename g _ _, f, _ => g = f
  | _, _, _ => False

/-- Byte `x` of `f` is cached with value `v`, in a dirty block. -/
def Held (B : Nat) (f : Str) (x : Nat) (v : UInt8) (V : Files) : Prop :=
  ∃ fc, V f = some fc ∧ fc.byte B x = some v ∧ fc.dirtyAt B x

section
variable {ι : Type} [DecidableEq ι]

/-- A run from the call of `write f off buf` at client `A`, with what the
write has returned. No request that carries byte `x` has succeeded since
the call, and since the return `A` has not destroyed the byte; every answer
to `A` was `ok`, given the cache it found. -/
inductive Unsent (cfg : ι → Config) (ok : Files → (r : Req) → r.Resp → Prop) (A : ι) (f : Str) (off : Nat)
    (buf : Bytes) (x : Nat) : Option (Outcome Unit) → System ι → Prop
  | call : Reach cfg S → Step cfg S A ⟨.write f off buf, none, ret⟩ S' → Unsent cfg ok A f off buf x ret S'
  | writing : Unsent cfg ok A f off buf x none S → Step cfg S A ⟨.write f off buf, some ⟨r, a⟩, ret⟩ S' →
      ¬ Carried f x r a → Unsent cfg ok A f off buf x ret S'
  | later : Unsent cfg ok A f off buf x (some (.ok ())) S → Step cfg S A e S' → ¬ e.op.Destroys f x →
      (∀ r a, e.reply = some ⟨r, a⟩ → ¬ Carried f x r a ∧ ok (S.threads A).state.files r a) →
      Unsent cfg ok A f off buf x (some (.ok ())) S'
  | other : Unsent cfg ok A f off buf x ret S → i ≠ A → Step cfg S i e S' → Unsent cfg ok A f off buf x ret S'

end

/-! ## What a dirty byte survives -/

section
variable {B : Nat} {f g : Str} {x : Nat} {v : UInt8} {V : Files} {fc fc' : FileCache}

theorem Held.other (h : Held B f x v V) (hg : g ≠ f) : Held B f x v (V.set g fc) := by
  obtain ⟨fc', hf, h'⟩ := h
  exact ⟨fc', by rw [Files.set_other (Ne.symm hg)]; exact hf, h'⟩

theorem Held.drop (h : Held B f x v V) (hg : g ≠ f) : Held B f x v (V.drop g) := by
  obtain ⟨fc', hf, h'⟩ := h
  exact ⟨fc', by rw [Files.drop_other (Ne.symm hg)]; exact hf, h'⟩

/-- A change of one file that keeps its bytes and its dirty blocks. -/
theorem Held.set (h : Held B f x v V) (hV : V g = some fc) (hby : fc.byte B x = some v → fc'.byte B x = some v)
    (hd : fc.dirtyAt B x → fc'.dirtyAt B x) : Held B f x v (V.set g fc') := by
  by_cases hg : g = f
  · subst hg
    obtain ⟨fc₁, hf, hb, hd₁⟩ := h
    cases hV.symm.trans hf
    exact ⟨fc', Files.set_self, hby hb, hd hd₁⟩
  · exact h.other hg

variable {S : Service Unit}

theorem Held.fetches (hseen : ∀ {c : Cache} {w}, Held B f x v c.file → S.seen c w) (g : Str) :
    Fetches S.back B (fun V _ => Held B f x v V) (fun V _ => Held B f x v V) g := by
  refine ⟨fun _ hJ => hseen hJ, ?_, ?_⟩
  · intro V w w₁ w₂ a h hg _ _
    have hne : g ≠ f := by
      rintro rfl
      obtain ⟨fc, hf, -⟩ := h
      cases hg.symm.trans hf
    exact ⟨fun _ => h.other hne, fun _ => h⟩
  · intro V w w₁ w₂ fc start n a h hg _ _
    refine ⟨fun _ fc' hfill => h.set hg (fun hb => ?_) (hfill.dirty x).mpr, fun _ => h⟩
    rw [hfill.byte, hb]
    split <;> rfl

/-- How far the write-back of a file has come: the byte has not been sent. -/
def Sending (B : Nat) (f : Str) (x : Nat) (v : UInt8) (g : Str) : Phase → Files → Unit → Prop
  | .sending sent, V, _ => Held B f x v V ∧ (g = f → ¬ sent x)
  | .owing, V, _ => Held B f x v V ∧ g ≠ f

/-- Writing back: without the byte on the server the file's blocks do not
become clean. -/
theorem Held.flushes (hseen : ∀ {c : Cache} {w}, Held B f x v c.file → S.seen c w)
    (hserve : ∀ {w r a w'}, S.serve w r a w' → ¬ Carried f x r a) (g : Str) :
    Flushes S.back B (fun V _ => Held B f x v V) (fun V _ => Held B f x v V) (Sending B f x v g) g := by
  refine ⟨fun {c w p} _ hI => ?_, fun h _ _ => ⟨h, fun _ => id⟩, ?_, ?_, ?_, id⟩
  · cases p <;> exact hseen hI.1
  · rintro V w w₁ w₂ sent fc off data a ⟨h, hns⟩ hg - - ⟨resp, hs, ha⟩
    have h' : Held B f x v (V.set g (fc.restamp a.time a.stale)) := h.set hg id id
    refine ⟨fun he => ⟨h', fun hgf hsent => hsent.elim (hns hgf) fun hx => ?_⟩, fun _ => h'⟩
    refine hserve hs ⟨hgf, hx.1, hx.2, not_not.mp fun hne => ?_⟩
    obtain rfl : a = _ := ha.trans (doWrite_err hne)
    exact hne he
  · rintro V w sent fc fc' ⟨h, hns⟩ hg hall hclean
    have hne : g ≠ f := by
      intro hgf
      obtain ⟨fc₁, hf, hb, hd⟩ := h
      rw [← hgf, hg] at hf
      cases hf
      exact hns hgf (hall x hd (by rw [hb]; rfl))
    exact ⟨h.other hne, hne⟩
  · rintro V w w₁ w₂ fc a ⟨h, hne⟩ - - -
    exact ⟨fun _ => h.other hne, fun _ => h.other hne⟩

theorem Held.not_clean (h : Held B f x v V) (hc : ∀ f fc, V f = some fc → fc.AllClean) : False := by
  obtain ⟨fc, hf, -, hd⟩ := h
  exact (hc f fc hf).not_dirtyAt hd

theorem lt_endBlock {n : Nat} (h : x < n) : x / B < Cache.endBlock B n := by
  rw [Cache.endBlock, if_neg (by omega)]
  exact Nat.lt_succ_of_le (Nat.div_le_div_right (by omega))

theorem Held.truncate {n : Nat} {c : Cache} (hseen : ∀ {c : Cache} {w}, Held B f x v c.file → S.seen c w)
    (hn : g = f → x < n) (hw : c.Wf B) (h : Held B f x v c.file) :
    (Cache.truncate B g n c).wp S.back (Cache.Ends B (fun V _ => Held B f x v V) (fun V _ => Held B f x v V)
      fun _ _ _ => True) () := by
  refine Cache.truncate_rule (K := fun V _ => Held B f x v V) (Held.fetches hseen g) (fun hV _ _ => hV) ?_
    (fun _ hK => hseen hK) (fun hV hg _ _ => ⟨fun _ => hV.set hg id id, fun _ => hV.set hg id id⟩) id hw h
  intro V w fc fc' hV hg _ _ hre
  by_cases hgf : g = f
  · -- The block of `x` lies before the new end.
    have hkeep : fc'.entries.lookup (x / B) = fc.entries.lookup (x / B) := by
      rw [hre.entries, if_neg fun hd => absurd (lt_endBlock (hn hgf)) (not_lt.mpr hd.2)]
    refine hV.set hg (fun hb => ?_) fun hd => ?_
    · rw [FileCache.byte, hkeep]
      exact hb
    · rw [FileCache.dirtyAt, hkeep]
      exact hd
  · exact hV.other hgf

/-- What an operation meets that was called with the files `V₀` cached, while
the byte is held: a check finds the cache as it was at the call. -/
def keeping (B : Nat) (f : Str) (x : Nat) (v : UInt8) (op : Op) (V₀ : Files) : Service Unit where
  serve _ r a _ := ¬ Carried f x r a ∧ ∃ V, ¬ Drops V f r a ∧ (op.Opens f → V = V₀)
  rely _ _ := True
  seen c _ := Held B f x v c.file ∧ (op.Opens f → c.file = V₀)

/-- How an operation ends that does not let go of the byte. -/
abbrev Holds (B : Nat) (f : Str) (x : Nat) (v : UInt8) {α : Type} : NetFS → Unit → Outcome α → Prop :=
  NetFS.Ends B (fun V _ => Held B f x v V) (fun V _ => Held B f x v V) fun _ => True

/-- A check of `f` that fails or finds another version would drop it. -/
theorem Held.opens {c : Config} {op : Op} {s : NetFS} (hop : op.Opens f) (hw : s.cache.Wf B)
    (h : Held B f x v s.files) : (op.run c s).wp (keeping B f x v op s.files).net (Holds B f x v) () := by
  have hseen : (keeping B f x v op s.files).seen s.cache () := ⟨h, fun _ => rfl⟩
  cases op with
  | access g =>
    obtain rfl : g = f := hop
    refine NetFS.access_rule hw hseen fun {_ _ a} _ hs => ?_
    obtain ⟨-, V, hkeep, hV⟩ := hs
    obtain rfl := hV rfl
    obtain ⟨he, hag⟩ := not_or.mp fun hd => hkeep ⟨rfl, hd⟩
    exact ⟨fun hne => absurd hne he, fun _ => ⟨fun _ => h, fun hna => absurd hna hag⟩⟩
  | stat g =>
    obtain rfl : g = f := hop
    refine NetFS.stat_rule hw hseen fun {_ _ a} _ hs => ?_
    obtain ⟨-, V, hkeep, hV⟩ := hs
    obtain rfl := hV rfl
    obtain ⟨he, hag⟩ := not_or.mp fun hd => hkeep ⟨rfl, hd⟩
    exact ⟨fun hne => absurd hne he, fun _ => ⟨trivial, fun _ => h, fun hna => absurd hna hag⟩⟩
  | _ => exact hop.elim

/-- **Any operation** that is not meant to destroy the byte holds it, until it
is sent or an answer makes the client drop the file. -/
theorem Held.run {c : Config} (hB : 0 < c.blockSize) {op : Op} (hop : ¬ op.Destroys f x) {s : NetFS}
    (hw : s.cache.Wf c.blockSize) (h : Held c.blockSize f x v s.files) :
    (op.run c s).wp (keeping c.blockSize f x v op s.files).net (Holds c.blockSize f x v) () := by
  by_cases hopen : op.Opens f
  · exact h.opens hopen hw
  have hseen : ∀ {c' : Cache} {w}, Held c.blockSize f x v c'.file →
      (keeping c.blockSize f x v op s.files).seen c' w := fun h => ⟨h, fun ho => absurd ho hopen⟩
  have hserve : ∀ {w r a w'}, (keeping c.blockSize f x v op s.files).serve w r a w' → ¬ Carried f x r a :=
    fun hs => hs.1
  have hF := fun g => Held.fetches (S := keeping c.blockSize f x v op s.files) hseen g
  have hU := fun g => Held.flushes (S := keeping c.blockSize f x v op s.files) hseen hserve g
  have hthin : ∀ {V V' : Files}, Held c.blockSize f x v V → (∀ f fc, V f = some fc → fc.AllClean) →
      V.Thinned V' → Held c.blockSize f x v V' := fun h hc _ => (h.not_clean hc).elim
  have hask : ∀ r : Req, NetFS.Asks (keeping c.blockSize f x v op s.files) (fun V _ => Held c.blockSize f x v V)
      (fun V _ => Held c.blockSize f x v V) s.files s.files () r := fun _ _ _ _ _ _ => ⟨fun _ => h, fun _ => h⟩
  cases op with
  | access g =>
    exact NetFS.access_rule hw (hseen h) fun _ _ =>
      ⟨fun _ => h.drop hopen, fun _ => ⟨fun _ => h, fun _ => h.drop hopen⟩⟩
  | stat g =>
    exact NetFS.stat_rule hw (hseen h) fun _ _ =>
      ⟨fun _ => h.drop hopen, fun _ => ⟨trivial, fun _ => h, fun _ => h.drop hopen⟩⟩
  | create g => exact NetFS.simply_rule hw (hseen h) (hask _)
  | statfs => exact NetFS.statfs_rule hw (hseen h) (hask _)
  | readdir g => exact NetFS.readdir_rule hw (hseen h) (hask _)
  | mkdir g mode => exact NetFS.simply_rule hw (hseen h) (hask _)
  | read g off n => exact NetFS.read_rule hB (hF g) hU hthin (fun _ _ => trivial) hw h
  | write g off buf =>
    refine NetFS.Ends.mono (NetFS.write_rule hB (hF g) (fun hV hg hst => ?_) hU hthin hw h) id (·.elim id id)
      fun _ h => h
    by_cases hgf : g = f
    · refine hV.set hg (fun hb => ?_) fun hd => (hst.dirty x).mpr (.inl hd)
      rw [hst.byte, if_neg fun hx => hop ⟨hgf, hx⟩]
      exact hb
    · exact hV.other hgf
  | truncate g n =>
    have hn : g = f → x < n := fun hg => not_le.mp fun hn => hop ⟨hg, hn⟩
    exact NetFS.onCache_rule (Held.truncate hseen hn hw h) fun _ _ _ => trivial
  | unlink g => exact NetFS.remove_rule hw (hseen h) fun _ _ => ⟨fun _ => h, fun _ => h.drop hop⟩
  | rmdir g =>
    refine NetFS.remove_rule hw (hseen h) fun _ hs => ⟨fun _ => h, fun he => h.drop ?_⟩
    obtain ⟨-, V, hkeep, -⟩ := hs
    exact fun hg => hkeep ⟨hg, he⟩
  | flush g => exact NetFS.Ends.mono (NetFS.flush_rule hB hU hw h) id False.elim fun _ h => h
  | rename g g' flags =>
    refine NetFS.rename_rule hw (hseen h) fun _ hs => ⟨fun _ => h, fun he => (h.drop hop).drop ?_⟩
    obtain ⟨-, V, hkeep, -⟩ := hs
    exact fun hg => hkeep ⟨hg, he⟩

end

/-! ## Runs -/

section
variable {B off : Nat} {f : Str} {x : Nat} {v : UInt8} {buf : Bytes}

/-- The client holds the byte, and goes on holding it. -/
abbrev Safe (B : Nat) (f : Str) (x : Nat) (v : UInt8) : Client → Unit → Prop :=
  Thread.Keeps (fun op s₀ => (keeping B f x v op s₀.files).net) (fun s _ => s.cache.Wf B ∧ Held B f x v s.files)
    fun _ _ => Holds B f x v

theorem safe_held {t : Client} (h : Safe B f x v t ()) : Held B f x v t.state.files :=
  h.state (R := fun s => Held B f x v s.files) (·.2) (·.1)

/-- While the write itself runs, nothing that carries the byte succeeds. -/
def uncarried (f : Str) (x : Nat) : Service Unit where
  serve _ r a _ := ¬ Carried f x r a
  rely _ _ := True
  seen _ _ := True

/-- How the write ends: if it returns 0, the byte is held. -/
abbrev Written (B : Nat) (f : Str) (x : Nat) (v : UInt8) : NetFS → Unit → Outcome Unit → Prop :=
  NetFS.Ends B (fun V _ => Held B f x v V) (fun _ _ => True) fun _ => True

/-- **The write**: once the byte is in the cache, only a request that carries
it could make its block clean. -/
theorem write_written {c : Config} (hB : 0 < c.blockSize) {s : NetFS} (hx : off ≤ x ∧ x < off + buf.length)
    (hw : s.cache.Wf c.blockSize) :
    ((Op.write f off buf).run c s).wp (uncarried f x).net (Written c.blockSize f x (byteAt buf (x - off))) () := by
  have hF : Fetches (uncarried f x).back c.blockSize (fun _ _ => True) (fun _ _ => True) f :=
    .nothing (fun _ => trivial) f
  have hU := fun g => Held.flushes (B := c.blockSize) (f := f) (x := x) (v := byteAt buf (x - off))
    (S := uncarried f x) (fun _ => trivial) id g
  refine NetFS.Ends.mono (NetFS.write_rule hB hF (fun _ _ hst => ?_) hU
    (fun h hc _ => (h.not_clean hc).elim) hw trivial) id (fun _ => trivial) fun _ h => h
  exact ⟨_, Files.set_self, by rw [hst.byte, if_pos hx], (hst.dirty x).mpr (.inr ⟨x, hx.1, hx.2, rfl⟩)⟩

/-- How far the write has come. -/
def InWrite (B : Nat) (f : Str) (off : Nat) (buf : Bytes) (x : Nat) (v : UInt8) (t : Client) :
    Option (Outcome Unit) → Prop
  | none => t.Within (uncarried f x).net (.write f off buf) (Written B f x v) () none
  | some (.ok _) => Safe B f x v t ()
  | some _ => True

theorem InWrite.after {p : Act NetFS Req.Resp Unit} (h : p.wp (uncarried f x).net (Written B f x v) ()) :
    InWrite B f off buf x v (Thread.after (.write f off buf) p) p.result := by
  cases p with
  | ask s r k => exact ⟨s, r, k, rfl, h⟩
  | done s o =>
    cases o with
    | ok a => exact ⟨h.1, h.2.1⟩
    | err e => trivial
    | fault => trivial

variable {ι : Type} [DecidableEq ι] {cfg : ι → Config} {A : ι} {S S' : System ι} {e : Event}

/-- **A step** of the client that holds the byte. -/
theorem Safe.step (hB : 0 < (cfg A).blockSize) (h : Safe (cfg A).blockSize f x v (S.threads A) ())
    (hs : Step cfg S A e S') (hop : ¬ e.op.Destroys f x)
    (hrep : ∀ r a, e.reply = some ⟨r, a⟩ → ¬ Carried f x r a ∧ ¬ Drops (S.threads A).state.files f r a) :
    Safe (cfg A).blockSize f x v (S'.threads A) () := by
  refine (hs.keeps h (·.keeps) (fun _ => trivial) (fun _ _ => rfl) (fun {s₀ r a} hseen he _ => ?_)
    fun s _ hP => hP.2.run hB hop hP.1).1
  obtain ⟨hcar, hdrop⟩ := hrep r a he
  exact ⟨hcar, _, hdrop, hseen.2⟩

/-- **A run**: the client is in the middle of the write, or it holds the
byte. -/
theorem Unsent.inWrite {ret : Option (Outcome Unit)} (hB : 0 < (cfg A).blockSize)
    (hx : off ≤ x ∧ x < off + buf.length)
    (h : Unsent cfg (fun V r a => ¬ Drops V f r a) A f off buf x ret S) :
    InWrite (cfg A).blockSize f off buf x (byteAt buf (x - off)) (S.threads A) ret := by
  induction h with
  | call hr hs =>
    obtain ⟨s, hi, hi', hret⟩ := hs.called
    rw [hi', hret]
    exact InWrite.after (write_written hB hx (hr.idle_wf hB hi))
  | writing _ hs hcar ih =>
    obtain ⟨s, r, k, hi₀, hwp⟩ := ih
    obtain ⟨_, _, hi, hi', hret⟩ := hs.replied
    cases hi₀.symm.trans hi
    rw [hi', hret]
    exact InWrite.after (hwp.2 () trivial _ () hcar)
  | later _ hs hop hrep ih => exact Safe.step hB ih hs hop hrep
  | other _ hi hs ih =>
    rw [hs.other (Ne.symm hi)]
    exact ih

/-- A write over a server that lets nothing be changed, as it goes on. -/
theorem Unsent.replies {ok : Files → (r : Req) → r.Resp → Prop} {w : Server} {p : Act NetFS Req.Resp Unit}
    {s' : NetFS} {o : Outcome Unit} {v v' : Server}
    (hx : Exec (fun v r a v' => a = w.readOnly r ∧ v = w ∧ v' = w) p v s' o v') :
    ∀ {S : System ι}, Unsent cfg ok A f off buf x p.result S → S.world = w →
      S.threads A = .after (.write f off buf) p →
      ∃ S', Unsent cfg ok A f off buf x (some o) S' ∧ S'.world = w ∧
        S'.threads A = .after (.write f off buf) (.done s' o) := by
  induction hx with
  | done s o v => exact fun h hw hc => ⟨_, h, hw, hc⟩
  | @ask r a v₁ k s' o v' s v hr _ ih =>
    intro S h hw hc
    obtain ⟨rfl, -, -⟩ := hr
    have hserve : S.world.Serve r (w.readOnly r) w := by
      rw [hw]
      exact w.serve_readOnly r
    obtain ⟨S', hstep, hw', hc'⟩ := Threads.exists_reply (fun i (op : Op) => op.run (cfg i)) hc hserve
    refine ih (.writing h hstep ?_) hw' hc'
    cases r with
    | write g o data => exact fun hcar => absurd hcar.2.2.2 (by decide : (30 : Int) ≠ 0)
    | _ => exact id

end

/-- A client that has written one byte. -/
def acked : NetFS := (readOnlyRun (.write [102] 0 [9]) (smallCache true) .new oneFile).1

theorem acked_unsent (ok : Files → (r : Req) → r.Resp → Prop) : ∃ S : System Bool,
    Unsent smallCache ok true [102] 0 [9] 0 (some (.ok ())) S ∧ S.world = oneFile ∧ S.threads true = .idle acked := by
  have hx := exec_readOnly (.write [102] 0 [9]) (smallCache true) .new oneFile (o := .ok ()) (by decide +kernel)
  have hr : Reach smallCache ⟨oneFile, fun _ => .idle .new⟩ := .start fun _ => rfl
  obtain ⟨S, hcall, hw, hc⟩ := Threads.exists_call Server.Serve (fun i (op : Op) => op.run (smallCache i)) (i := true)
    (.write [102] 0 [9]) (rfl : (⟨oneFile, fun _ => .idle .new⟩ : System Bool).threads true = .idle .new)
  exact Unsent.replies hx (.call hr hcall) hw hc

end Nfs
