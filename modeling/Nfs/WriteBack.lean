/-
What a write-back may change on the server.

Whatever the server's file holds by then, a write-back whose requests all
succeed changes it in two ways only. The valid bytes of the dirty blocks
get the cached values, and the length becomes the cached size. The first
part is about blocks and not about the bytes the client wrote: a dirty
block is sent with all its valid bytes, those that were fetched into it
included.

That a block is dirty means that the client itself has written to it and
that it has not been written back since. `touched` reads this off the
record of the calls, and `OwnRun.dirty_touched` proves it of every cache
the client can reach, whatever its requests were answered.
-/
import Nfs.Transparency

namespace Nfs

open PlainFile Resume

/-! ## The blocks a client has written to -/

/-- The call stored something in block `b` of `g`. -/
def CacheOp.Wrote (B : Nat) (g : Str) (b : Nat) : CacheOp → Outcome Bytes → Prop
  | .write f off buf, .ok _ => g = f ∧ ∃ y, off ≤ y ∧ y < off + buf.length ∧ y / B = b
  | _, _ => False

/-- A call, its outcome, and whether all its requests succeeded. -/
abbrev OwnRecord := List (CacheOp × Outcome Bytes × Bool)

/-- One call: what it wrote to is marked; a write-back whose requests all
succeed takes the marks of its files away. -/
def touch (B : Nat) (op : CacheOp) (o : Outcome Bytes) (allOk : Bool) (T : Str → Nat → Prop) (g : Str) (b : Nat) :
    Prop :=
  (T g b ∨ op.Wrote B g b o) ∧ ¬ (allOk = true ∧ op.WritesBack g)

/-- The client has written to block `b` of `g`, and `g` has not been written
back since. -/
def touched (B : Nat) (rec : OwnRecord) : Str → Nat → Prop :=
  rec.foldl (fun T p => touch B p.1 p.2.1 p.2.2 T) fun _ _ => False

/-- Any answer; none that reports a failure if `allOk`. -/
def AnyAnswer (allOk : Bool) (_ : Unit) (r : Call) (a : r.Ans) (_ : Unit) : Prop := allOk = true → ¬ Plain.failed r a

/-- The caches a client can reach, its requests being answered in any way. -/
inductive OwnRun (B : Nat) (order : HashOrder) : OwnRecord → Cache → Prop
  | start : OwnRun B order [] Cache.empty
  | call : OwnRun B order rec c → Exec (AnyAnswer allOk) (op.run B order c) () c' o () →
      OwnRun B order (rec ++ [(op, o, allOk)]) c'
  | invalidate : OwnRun B order rec c → c.invalidate f = some c' → OwnRun B order rec c'

/-- A run over plain files is one of these. -/
theorem CacheRun.ownRun {B : Nat} {order : HashOrder} {allowed : Record → Cache → CacheOp → Outcome Bytes → Prop}
    {w₀ w : PlainFiles} {rec : Record} {c : Cache} (h : CacheRun Plain.ServeOk B order allowed w₀ rec c w) :
    OwnRun B order (rec.map fun p => (p.1, p.2, true)) c := by
  induction h with
  | start => exact .start
  | call _ _ hx ih =>
    rw [List.map_append]
    exact ih.call (hx.map (fun _ => ()) fun hs _ => hs.2)

/-- Every dirty block is marked. -/
def Marked (B : Nat) (T : Str → Nat → Prop) (V : Files) (_ : Unit) : Prop :=
  ∀ f fc, V f = some fc → ∀ x, fc.dirtyAt B x → T f (x / B)

variable {B : Nat} {order : HashOrder} {T : Str → Nat → Prop} {V : Files} {u : Unit} {f : Str} {fc : FileCache}
  {allOk : Bool}

theorem Marked.set (h : Marked B T V u) (hd : ∀ x, fc.dirtyAt B x → T f (x / B)) : Marked B T (V.set f fc) u := by
  unfold Marked
  exact Files.forall_set_some hd fun g _ => h g

theorem Marked.mono {T' : Str → Nat → Prop} (h : Marked B T V u) (hT : ∀ g b, T g b → T' g b) : Marked B T' V u :=
  fun f fc hf x hx => hT _ _ (h f fc hf x hx)

/-- The marks survive a failed request too. -/
def Unmoved (B : Nat) (T : Str → Nat → Prop) (allOk : Bool) (V : Files) (u : Unit) : Prop :=
  allOk = false ∧ Marked B T V u

theorem AnyAnswer.failed {r : Call} {a : r.Ans} (h : AnyAnswer allOk () r a ()) (hf : Plain.failed r a) :
    allOk = false := by
  cases allOk with
  | true => exact absurd hf (h rfl)
  | false => rfl

/-- What a failed request leaves, of marks that it does not touch. -/
structure MarksFail (E : Env Cache Unit Call.Ans) (B : Nat) (T : Str → Nat → Prop) (X : Files → Unit → Prop) :
    Prop where
  seen : ∀ c u, E.seen c u
  failed : ∀ {V : Files} {u u' : Unit} {r : Call} {a : r.Ans}, E.serve u r a u' → Plain.failed r a →
    Marked B T V u' → X V u'
  recover : ∀ {V : Files} {u : Unit}, X V u → Marked B T V u

theorem anyAnswer_fail : MarksFail (Env.solo (AnyAnswer allOk)) B T (Unmoved B T allOk) :=
  ⟨fun _ _ => trivial, fun hs hf h => ⟨AnyAnswer.failed hs hf, h⟩, fun h => h.2⟩

section
variable {E : Env Cache Unit Call.Ans} {X : Files → Unit → Prop} (hE : MarksFail E B T X)
include hE

theorem Marked.fetches (f : Str) : Fetches E B (Marked B T) X f := by
  refine ⟨fun _ _ => hE.seen _ _, ?_, ?_⟩
  · intro V _ _ _ a h _ _ hs
    refine ⟨fun _ => h.set fun x hd => ?_, fun he => hE.failed hs he h⟩
    obtain ⟨e, he, -⟩ := hd
    cases he
  · intro V _ _ _ fc start n a h hf _ hs
    exact ⟨fun _ fc' hfill => h.set fun x hx => h f fc hf x ((hfill.dirty x).mp hx), fun he => hE.failed hs he h⟩

theorem Marked.flushes (f : Str) : Flushes E B (Marked B T) X (fun _ => Marked B T) f := by
  refine ⟨fun _ _ => hE.seen _ _, fun h _ _ => h, ?_, ?_, ?_, hE.recover⟩
  · intro V _ _ _ S fc off data a h hf _ _ hs
    have h' : Marked B T (V.set f (fc.restamp a.time a.stale)) () := h.set fun x hx => h f fc hf x hx
    exact ⟨fun _ => h', fun he => hE.failed hs he h'⟩
  · intro V _ S fc fc' h _ _ hc
    exact h.set fun x hx => absurd hx hc.clean.not_dirtyAt
  · intro V _ _ _ fc a h hf _ hs
    have h' : Marked B T (V.set f { fc with attr := a.attr, stale := a.stale }) () := h.set fun x hx => h f fc hf x hx
    exact ⟨fun _ => h', fun he => hE.failed hs he h'⟩

/-- Resizing a file drops blocks, and its attributes are no block. -/
theorem Marked.truncate {c : Cache} {n : Nat} (h : c.Wf B) (hJ : Marked B T c.file u) :
    (Cache.truncate B f n c).wp E (Cache.Ends B (Marked B T) X fun _ _ _ => True) u := by
  refine Cache.truncate_rule (K := Marked B T) (Marked.fetches hE f) (fun hm _ _ => hm) ?_ (fun _ _ => hE.seen _ _) ?_
    id h hJ
  · intro V u fc fc' hm hf _ _ hre
    refine hm.set fun x hd => hm f fc hf x ?_
    obtain ⟨e, he, hd⟩ := hd
    rw [hre.entries] at he
    split at he
    · cases he
    · exact ⟨e, he, hd⟩
  · intro V _ _ _ fc a hm hf _ hs
    have h' : Marked B T (V.set f { fc with attr := a.attr, stale := a.stale }) () :=
      hm.set fun x hx => hm f fc hf x hx
    exact ⟨fun _ => h', fun he => hE.failed hs he h'⟩

end

theorem Marked.thinned {V' : Files} (h : Marked B T V u) (ht : V.Thinned V') : Marked B T V' u := by
  intro f fc' hf x ⟨e, he, hd⟩
  obtain ⟨fc, hf₁, hth⟩ := ht.file hf
  exact h f fc hf₁ x ⟨e, hth.entries _ e he, hd⟩

/-- One call moves the marks as `touch` says. -/
theorem Marked.run (hB : 0 < B) {c c' : Cache} {op : CacheOp} {o : Outcome Bytes} (h : c.Wf B)
    (hJ : Marked B T c.file u) (hx : Exec (AnyAnswer allOk) (op.run B order c) u c' o u) :
    c'.Wf B ∧ Marked B (touch B op o allOk T) c'.file u := by
  refine (Act.wp.exec (Q := fun c' u o => c'.Wf B ∧ Marked B (touch B op o allOk T) c'.file u) ?_ hx)
  -- Calls that are no write-back keep the marks; a failed request does too.
  have hkeep : ∀ {V : Files} {o}, (∀ g, ¬ op.WritesBack g) → Marked B T V u → Marked B (touch B op o allOk T) V u :=
    fun hop hm => hm.mono fun g b hT => ⟨.inl hT, fun hw => hop g hw.2⟩
  have hfail : ∀ {V : Files} {o}, Unmoved B T allOk V u → Marked B (touch B op o allOk T) V u := by
    intro V o ⟨hn, hm⟩
    exact hm.mono fun g b hT => ⟨.inl hT, fun hw => by rw [hn] at hw; cases hw.1⟩
  have hclean : ∀ {V : Files} {o}, Marked B T V u → (∀ g fc, op.WritesBack g → V g = some fc → fc.AllClean) →
      Marked B (touch B op o allOk T) V u := fun hm hc f fc hf x hx =>
    ⟨.inl (hm f fc hf x hx), fun hw => (hc f fc hw.2 hf).not_dirtyAt hx⟩
  cases op with
  | write f off buf =>
    refine Cache.Ends.seq (J := Marked B (touch B (.write f off buf) (.ok []) allOk T))
      (Cache.write_rule (Marked.fetches anyAnswer_fail f) hB ?_ h hJ) (fun c _ _ h hJ _ => ⟨h, hJ⟩)
      fun c _ e h hX => ⟨h, hfail hX⟩
    intro V u fc fc' hm hf hst
    refine (hkeep (fun _ => id) hm).set fun x hx => ?_
    rcases (hst.dirty x).mp hx with hd | ⟨y, h₁, h₂, hy⟩
    · exact ⟨.inl (hm f fc hf x hd), fun hw => hw.2⟩
    · exact ⟨.inr ⟨rfl, y, h₁, h₂, hy⟩, fun hw => hw.2⟩
  | read f off size =>
    exact Cache.Ends.conseq (Cache.read_rule (Marked.fetches anyAnswer_fail f) hB h hJ)
      (fun c _ _ h hJ _ => ⟨h, hkeep (fun _ => id) hJ⟩) fun c _ e h hX => ⟨h, hfail hX⟩
  | flush f =>
    refine Cache.Ends.seq (Cache.flush_rule (Marked.flushes anyAnswer_fail f) hB h hJ) ?_ fun c _ e _ hX => hX.elim
    intro c _ _ h hJ _
    refine ⟨h, ?_⟩
    rcases hJ with ⟨hm, hc⟩ | hX
    · exact hclean hm fun g fc hg hf => hc fc (by rw [show f = g from hg]; exact hf)
    · exact hfail hX
  | flushDirtyBlocks =>
    refine Cache.Ends.seq (Cache.flushDirtyBlocks_rule (Marked.flushes anyAnswer_fail) hB order h hJ) ?_
      fun c _ e h hX => ⟨h, hfail hX⟩
    exact fun c _ _ h hJ hr => ⟨h, hclean hJ fun g fc _ hf => hr.2 g fc hf⟩
  | evictBlocks n =>
    refine Cache.Ends.seq (Cache.evictBlocks_rule (Marked.flushes anyAnswer_fail) hB order
      (fun hV _ ht => hV.thinned ht) h hJ) ?_ fun c _ e h hX => ⟨h, hfail hX⟩
    exact fun c _ _ h hJ hr => ⟨h, hclean hJ fun g fc _ hf => hr g fc hf⟩
  | truncate f n =>
    exact Cache.Ends.seq (Marked.truncate anyAnswer_fail h hJ) (fun c _ _ h hJ _ => ⟨h, hkeep (fun _ => id) hJ⟩)
      fun c _ e h hX => ⟨h, hfail hX⟩

/-- **A dirty block has been written to** by the client, and not written back
since. -/
theorem OwnRun.dirty_touched (hB : 0 < B) {rec : OwnRecord} {c : Cache} (h : OwnRun B order rec c) :
    c.Wf B ∧ Marked B (touched B rec) c.file () := by
  induction h with
  | start => exact ⟨Cache.empty_wf, fun f fc hf => by cases hf⟩
  | @call rec c allOk op c' o _ hx ih =>
    have := ih.2.run hB ih.1 hx
    rwa [touched, List.foldl_append]
  | @invalidate rec c f c' _ hi ih =>
    obtain ⟨c₁, h₁, hw, hfr, hn⟩ := Cache.invalidate_spec (f := f) ih.1
    obtain rfl : c' = c₁ := Option.some.inj (hi.symm.trans h₁)
    refine ⟨hw, fun g gc hg => ?_⟩
    by_cases hgf : g = f
    · rw [hgf, hn] at hg
      cases hg
    · rw [hfr g hgf] at hg
      exact ih.2 g gc hg

/-! ## What is sent -/

/-- The bytes of `S` are the cached ones of dirty blocks, the others the
server's. -/
def Sent (B : Nat) (fc : FileCache) (s₀ : Bytes) (S : Nat → Prop) (s : Bytes) : Prop :=
  ∀ x, (S x → fc.dirtyAt B x ∧ fc.byte B x = some (byteAt s x)) ∧ (¬ S x → byteAt s x = byteAt s₀ x)

/-- The server's file `s₀` after the write-back of `fc`: it has the cached
size, and where it differs it has the cached byte of a dirty block. -/
structure Merged (B : Nat) (fc : FileCache) (s₀ s : Bytes) : Prop where
  length : s.length = fc.attr.size
  byte : ∀ x, x < s.length → byteAt s x ≠ byteAt s₀ x → fc.dirtyAt B x ∧ fc.byte B x = some (byteAt s x)

theorem Sent.start {s₀ : Bytes} : Sent B fc s₀ (fun _ => False) s₀ := fun _ => ⟨False.elim, fun _ => rfl⟩

theorem Sent.next {s₀ s data : Bytes} {S : Nat → Prop} {off : Nat} (h : Sent B fc s₀ S s)
    (hx : fc.Extent B off data) :
    Sent B fc s₀ (fun x => S x ∨ (off ≤ x ∧ x < off + data.length)) (pwrite s off data) := by
  intro x
  rw [byteAt_pwrite]
  split
  · rename_i hin
    refine ⟨fun _ => ?_, fun hn => absurd (.inr hin) hn⟩
    have hby := hx.byte (x - off) (by omega)
    have hd := hx.dirty (x - off) (by omega)
    rw [show off + (x - off) = x by omega] at hby hd
    exact ⟨hd, hby⟩
  · rename_i hin
    exact ⟨fun hs => (h x).1 (hs.resolve_right hin), fun hn => (h x).2 fun hs => hn (.inl hs)⟩

theorem Sent.merged {s₀ s : Bytes} {S : Nat → Prop} (h : Sent B fc s₀ S s) :
    Merged B fc s₀ (ftruncate s fc.attr.size) := by
  refine ⟨length_ftruncate, fun x hx hne => ?_⟩
  rw [length_ftruncate] at hx
  rw [byteAt_ftruncate, if_pos hx] at hne ⊢
  exact (h x).1 (not_not.mp fun hn => hne ((h x).2 hn))

section
variable (B : Nat) (f : Str) (c₀ : Cache) (s₀ : Bytes)

/-- File `f` between the write-backs of files: not yet written back, or clean
and with the server's file merged. -/
def Left (V : Files) (w : PlainFiles) : Prop :=
  (V f = c₀.file f ∧ w f = some s₀) ∨ ((∀ fc, V f = some fc → fc.AllClean) ∧ ∃ s, w f = some s ∧
    (s = s₀ ∨ ∃ fc, c₀.file f = some fc ∧ ¬ fc.AllClean ∧ Merged B fc s₀ s))

/-- File `f` in the course of its own write-back. -/
def Leaving (p : Phase) (V : Files) (w : PlainFiles) : Prop :=
  ∃ fc s, c₀.file f = some fc ∧ ¬ fc.AllClean ∧ w f = some s ∧
    match p with
    | .sending S => (∃ t b, V f = some (fc.restamp t b)) ∧ Sent B fc s₀ S s
    | .owing => (∃ fc', V f = some fc' ∧ fc'.AllClean ∧ fc'.attr.size = fc.attr.size) ∧ ∃ S, Sent B fc s₀ S s

end

variable {c₀ : Cache} {s₀ : Bytes} {w w' : PlainFiles}

/-- A request about `g` leaves the other files alone. -/
theorem Plain.ServeOk.contentWb {g : Str} {off : Nat} {data : Bytes} {t : FileTime} {b : Bool} {a : ContentWbAns}
    (h : Plain.ServeOk w (.contentWb g off data t b) a w') :
    a.err = 0 ∧ w' = Plain.modify w g (pwrite · off data) := by
  have he : a.err = 0 := not_not.mp h.2
  exact ⟨he, (h.1.1 he).2⟩

theorem Plain.ServeOk.attrWb {g : Str} {attr : FileAttr} {b : Bool} {a : AttrWbAns}
    (h : Plain.ServeOk w (.attrWb g attr b) a w') :
    a.err = 0 ∧ a.attr.size = attr.size ∧ w' = Plain.modify w g (ftruncate · attr.size) := by
  have he : a.err = 0 := not_not.mp h.2
  exact ⟨he, h.1.1, (h.1.2.1 he).2⟩

/-- Writing back `f` itself. -/
theorem Left.flushes_self :
    Flushes (Env.solo Plain.ServeOk) B (Left B f c₀ s₀) (fun _ _ => False) (Leaving B f c₀ s₀) f := by
  refine ⟨fun _ _ => trivial, ?_, ?_, ?_, ?_, False.elim⟩
  · intro V w fc h hf hd
    rcases h with ⟨hV, hw⟩ | ⟨hc, -⟩
    · exact ⟨fc, s₀, hV ▸ hf, hd, hw, ⟨fc.attr.time, fc.stale, hf⟩, Sent.start⟩
    · exact absurd (hc fc hf) hd
  · rintro V w w₁ w₂ S fc off data a ⟨fc₀, s, hf₀, hd, hw, ⟨t, b, hV⟩, hS⟩ hf hx rfl hs
    obtain ⟨he, rfl⟩ := Plain.ServeOk.contentWb hs
    rw [hf] at hV
    cases hV
    refine ⟨fun _ => ⟨fc₀, pwrite s off data, hf₀, hd, ?_, ⟨a.time, a.stale, Files.set_self⟩,
        hS.next ⟨hx.nonempty, hx.byte, hx.dirty⟩⟩,
      fun hne => absurd he hne⟩
    rw [Plain.modify_self, hw]
    rfl
  · rintro V w S fc fc' ⟨fc₀, s, hf₀, hd, hw, ⟨t, b, hV⟩, hS⟩ hf - hc
    rw [hf] at hV
    cases hV
    exact ⟨fc₀, s, hf₀, hd, hw, ⟨fc', Files.set_self, hc.clean, by rw [hc.attr]; rfl⟩, S, hS⟩
  · rintro V w w₁ w₂ fc a ⟨fc₀, s, hf₀, hd, hw, ⟨fc', hV, hc, hsize⟩, S, hS⟩ hf rfl hs
    obtain ⟨he, -, rfl⟩ := Plain.ServeOk.attrWb hs
    rw [hf] at hV
    cases hV
    refine ⟨fun _ => .inr ⟨fun fc₁ h₁ => ?_, ftruncate s fc.attr.size, ?_, .inr ⟨fc₀, hf₀, hd, ?_⟩⟩,
      fun hne => absurd he hne⟩
    · rw [Files.set_self] at h₁
      cases h₁
      exact hc
    · rw [Plain.modify_self, hw]
      rfl
    · rw [hsize]
      exact hS.merged

/-- What keeps `f` as it is survives writing back another file. -/
theorem flushes_other {J : Files → PlainFiles → Prop} {g : Str}
    (hJ : ∀ {V V' w w'}, V' f = V f → w' f = w f → J V w → J V' w') (hg : f ≠ g) :
    Flushes (Env.solo Plain.ServeOk) B J (fun _ _ => False) (fun _ => J) g := by
  refine ⟨fun _ _ => trivial, fun h _ _ => h, ?_, ?_, ?_, False.elim⟩
  · rintro V w w₁ w₂ S fc off data a h hf hx rfl hs
    obtain ⟨he, rfl⟩ := Plain.ServeOk.contentWb hs
    exact ⟨fun _ => hJ (Files.set_other hg) (Plain.modify_other hg) h, fun hne => absurd he hne⟩
  · intro V w S fc fc' h _ _ _
    exact hJ (Files.set_other hg) rfl h
  · rintro V w w₁ w₂ fc a h hf rfl hs
    obtain ⟨he, -, rfl⟩ := Plain.ServeOk.attrWb hs
    exact ⟨fun _ => hJ (Files.set_other hg) (Plain.modify_other hg) h, fun hne => absurd he hne⟩

/-- Writing back any file. -/
theorem Left.flushes (B : Nat) (f : Str) (c₀ : Cache) (s₀ : Bytes) (g : Str) :
    Flushes (Env.solo Plain.ServeOk) B (Left B f c₀ s₀) (fun _ _ => False)
      (if f = g then Leaving B f c₀ s₀ else fun _ => Left B f c₀ s₀) g := by
  by_cases hg : f = g
  · subst hg
    rw [if_pos rfl]
    exact Left.flushes_self
  · rw [if_neg hg]
    refine flushes_other (fun hV hw h => ?_) hg
    rwa [Left, hV, hw]

theorem Left.thinned {V' : Files} (h : Left B f c₀ s₀ V w) (hc : ∀ f fc, V f = some fc → fc.AllClean)
    (ht : V.Thinned V') : Left B f c₀ s₀ V' w := by
  refine .inr ⟨ht.allClean hc f, ?_⟩
  rcases h with ⟨-, hw⟩ | ⟨-, h⟩
  · exact ⟨s₀, hw, .inl rfl⟩
  · exact h

/-- A file that is not the flushed one stays as it is; any other is left as
`Left` says. -/
theorem writeBack_left (hB : 0 < B) {c c' : Cache} {op : CacheOp} {o : Outcome Bytes} (hop : ∃ g, op.WritesBack g)
    (h : c.Wf B) (hw : w f = some s₀) (hx : Exec Plain.ServeOk (op.run B order c) w c' o w') :
    (¬ op.WritesBack f ∧ w' f = some s₀) ∨ (op.WritesBack f ∧ Left B f c s₀ c'.file w') := by
  have hJ : Left B f c s₀ c.file w := .inl ⟨rfl, hw⟩
  have hU := Left.flushes B f c s₀
  refine (Act.wp.exec (Q := fun c' w' _ => (¬ op.WritesBack f ∧ w' f = some s₀) ∨
    (op.WritesBack f ∧ Left B f c s₀ c'.file w')) ?_ hx)
  cases op with
  | write | read | truncate => exact hop.elim fun _ => False.elim
  | flush g =>
    by_cases hg : f = g
    · subst hg
      refine Cache.Ends.seq (Cache.flush_rule (hU f) hB h hJ) ?_ fun _ _ _ _ hX => hX.elim
      rintro c w _ h (⟨hJ, -⟩ | hX) _
      · exact .inr ⟨rfl, hJ⟩
      · exact hX.elim
    · refine Cache.Ends.seq (Cache.flush_rule (J := fun _ w => w f = some s₀)
        (flushes_other (fun _ hw h => hw.trans h) hg) hB h hw) ?_ fun _ _ _ _ hX => hX.elim
      rintro c w _ h (⟨hJ, -⟩ | hX) _
      · exact .inl ⟨fun h => hg h.symm, hJ⟩
      · exact hX.elim
  | flushDirtyBlocks =>
    refine Cache.Ends.seq (Cache.flushDirtyBlocks_rule hU hB order h hJ) ?_ fun _ _ _ _ hX => hX.elim
    exact fun c w _ _ hJ _ => .inr ⟨trivial, hJ⟩
  | evictBlocks n =>
    refine Cache.Ends.seq (Cache.evictBlocks_rule hU hB order (fun hV hc ht => hV.thinned hc ht) h hJ) ?_
      fun _ _ _ _ hX => hX.elim
    exact fun c w _ _ hJ _ => .inr ⟨trivial, hJ⟩

/-- A block of four bytes is fetched, and its first byte written. -/
def overlaid : Record × Cache × PlainFiles :=
  Plain.calls 4 .inserted (fun _ => some [97, 98, 99, 100]) [.read [102] 0 4, .write [102] 0 [88]]

/-- The file on the server has changed in the meantime, and the flush succeeds. -/
theorem overlaid_flush : overlaid.1 = [(.read [102] 0 4, .ok [97, 98, 99, 100]), (.write [102] 0 [88], .ok [])] ∧
    OwnRun 4 .inserted (overlaid.1.map fun p => (p.1, p.2, true)) overlaid.2.1 ∧
    ∃ c' w', Exec Plain.ServeOk ((CacheOp.flush [102]).run 4 .inserted overlaid.2.1)
        (fun _ => some [97, 98, 90, 100, 101]) c' (.ok []) w' ∧ w' [102] = some [88, 98, 99, 100] := by
  obtain ⟨hrun, -⟩ := Plain.calls_run (fun _ _ _ _ => True) 4 .inserted (fun _ => some [97, 98, 99, 100])
    (fun _ => rfl) [.read [102] 0 4, .write [102] 0 [88]] (fun _ _ _ _ _ => trivial)
  obtain ⟨hflush, -⟩ := Plain.exec_answer (w := fun _ => some [97, 98, 90, 100, 101])
    (p := (CacheOp.flush [102]).run 4 .inserted overlaid.2.1) (o := .ok []) (fun _ => rfl) (by decide +kernel)
  exact ⟨by decide +kernel, hrun.ownRun, _, _, hflush, by decide +kernel⟩

end Nfs
