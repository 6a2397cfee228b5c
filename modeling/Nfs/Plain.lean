/-
The cache over plain files that nobody else touches, and its runs.

A request may fail at any time; a content write that fails may have stored
a prefix of its bytes, any other failed request has done nothing
(`Plain.Serve`). `Plain.ServeOk` is the same without failures.

`CacheRun` runs the operations of the cache over such files and records the
calls. `localFiles` carries the successful writes and truncates of a record
out on local files directly: the reference the cache is compared with.
-/
import Mathlib.Data.List.Induction
import Nfs.Coherence

namespace Nfs

open PlainFile Resume

/-- Plain files by name. -/
abbrev PlainFiles := Str → Option Bytes

namespace Plain

/-- The content of `f` changed, if there is such a file. -/
def modify (w : PlainFiles) (f : Str) (u : Bytes → Bytes) : PlainFiles :=
  fun g => if g = f then (w g).map u else w g

variable {w w' : PlainFiles} {f g : Str} {u : Bytes → Bytes}

@[simp] theorem modify_self : modify w f u f = (w f).map u := by simp [modify]

@[simp] theorem modify_other (h : g ≠ f) : modify w f u g = w g := by simp [modify, h]

/-- How the callbacks are answered. -/
def Serve (w : PlainFiles) : (r : Call) → r.Ans → PlainFiles → Prop
  | .attrFt f, a, w' => w' = w ∧ (a.err = 0 → ∃ c, w f = some c ∧ a.attr.size = c.length)
  | .contentFt f offset size, a, w' => w' = w ∧ (a.err = 0 → ∃ c, w f = some c ∧ a.data = pread c offset size)
  | .contentWb f offset data _ _, a, w' =>
    (a.err = 0 → (w f).isSome ∧ w' = modify w f (pwrite · offset data)) ∧
    (a.err ≠ 0 → ∃ k, k ≤ data.length ∧ w' = modify w f (pwrite · offset (data.take k)))
  | .attrWb f attr _, a, w' => a.attr.size = attr.size ∧
    (a.err = 0 → (w f).isSome ∧ w' = modify w f (ftruncate · attr.size)) ∧ (a.err ≠ 0 → w' = w)

/-- The code a callback returned. -/
def failed : (r : Call) → r.Ans → Prop
  | .attrFt _, a => a.err ≠ 0
  | .contentFt .., a => a.err ≠ 0
  | .contentWb .., a => a.err ≠ 0
  | .attrWb .., a => a.err ≠ 0

instance : (r : Call) → (a : r.Ans) → Decidable (failed r a)
  | .attrFt _, a => inferInstanceAs (Decidable (a.err ≠ 0))
  | .contentFt .., a => inferInstanceAs (Decidable (a.err ≠ 0))
  | .contentWb .., a => inferInstanceAs (Decidable (a.err ≠ 0))
  | .attrWb .., a => inferInstanceAs (Decidable (a.err ≠ 0))

/-- The same, no request failing. -/
def ServeOk (w : PlainFiles) (r : Call) (a : r.Ans) (w' : PlainFiles) : Prop := Serve w r a w' ∧ ¬ failed r a

/-- The files themselves; every stamp vouches. -/
def backing : Backing PlainFiles where
  content w f := w f
  known _ _ _ := True
  trusts _ _ _ _ := True

theorem still {Spec : Str → Bytes → Prop} (h : w' f = w f) : backing.Still Spec w w' f :=
  ⟨fun _ => trivial, fun _ _ => ⟨trivial, h⟩, fun hs c hc => hs c (h.symm.trans hc)⟩

/-- Plain files answer as a file server does. -/
theorem backs (Spec : Str → Bytes → Prop) : Backs (Env.solo Serve) backing Spec False True := by
  refine ⟨fun _ _ => trivial, ?_, ?_, ?_, ?_, ?_⟩
  · intro w w' hr g
    subst hr
    exact still rfl
  · intro w w' f a hs
    obtain ⟨rfl, hok⟩ := hs
    refine ⟨fun g => still rfl, fun _ => trivial, fun he => ⟨trivial, ?_⟩⟩
    obtain ⟨c, hc, hlen⟩ := hok he
    exact ⟨c, hc, hlen.symm⟩
  · intro w w' f off n a hs
    obtain ⟨rfl, hok⟩ := hs
    refine ⟨fun g => still rfl, fun _ => trivial, fun he => ?_⟩
    obtain ⟨c, hc, hd⟩ := hok he
    refine ⟨c, hc, fun i hi => ?_⟩
    rw [hd, byteAt_pread, if_pos hi]
  · intro w w' f off data t s a hs _
    obtain ⟨hok, herr⟩ := hs
    obtain ⟨k, hk, hfull, rfl⟩ : ∃ k, k ≤ data.length ∧ (a.err = 0 → k = data.length) ∧
        w' = modify w f (pwrite · off (data.take k)) := by
      by_cases he : a.err = 0
      · exact ⟨data.length, le_refl _, fun _ => rfl, by rw [List.take_length]; exact (hok he).2⟩
      · obtain ⟨k, hk, h⟩ := herr he
        exact ⟨k, hk, fun h => absurd h he, h⟩
    refine ⟨fun g hg => still (modify_other hg), fun _ => trivial, trivial, fun _ => ⟨trivial, False.elim, ?_⟩⟩
    intro c hc
    refine ⟨k, hk, hfull, ?_⟩
    show modify w f _ f = _
    rw [modify_self, show w f = some c from hc]
    rfl
  · intro w w' f attr s a hs _
    obtain ⟨hsize, hok, herr⟩ := hs
    by_cases he : a.err = 0
    · obtain ⟨-, rfl⟩ := hok he
      refine ⟨fun g hg => still (modify_other hg), fun _ => trivial, hsize, trivial,
        fun _ => ⟨trivial, False.elim, ?_⟩⟩
      intro c hc
      show modify w f _ f = _
      rw [modify_self, if_pos he, show w f = some c from hc]
      rfl
    · obtain rfl := herr he
      refine ⟨fun g _ => still rfl, fun _ => trivial, hsize, trivial, fun _ => ⟨trivial, False.elim, ?_⟩⟩
      intro c hc
      rw [if_neg he]
      exact hc

/-- Without failures a clean file has the server's length. -/
theorem backs_ok (Spec : Str → Bytes → Prop) : Backs (Env.solo ServeOk) backing Spec True False := by
  have h := backs Spec
  refine ⟨h.seen, h.rely, ?_, ?_, ?_, ?_⟩
  · intro w w' f a ⟨hs, hf⟩
    exact ⟨(h.attrFt hs).1, fun he => hf he, (h.attrFt hs).2.2⟩
  · intro w w' f off n a ⟨hs, hf⟩
    exact ⟨(h.contentFt hs).1, fun he => hf he, (h.contentFt hs).2.2⟩
  · intro w w' f off data t s a ⟨hs, hf⟩ hk
    obtain ⟨h₁, -, h₃, h₄⟩ := h.contentWb hs hk
    exact ⟨h₁, fun he => hf he, h₃, fun ht => ⟨(h₄ ht).1, fun _ => not_not.mp hf, (h₄ ht).2.2⟩⟩
  · intro w w' f attr s a ⟨hs, hf⟩ hk
    obtain ⟨h₁, -, h₃, h₄, h₅⟩ := h.attrWb hs hk
    exact ⟨h₁, fun he => hf he, h₃, h₄, fun ht => ⟨(h₅ ht).1, fun _ => not_not.mp hf, (h₅ ht).2.2⟩⟩

/-- No request makes or removes a file. -/
theorem Serve.isSome {r : Call} {a : r.Ans} (h : Serve w r a w') (g : Str) : (w' g).isSome = (w g).isSome := by
  have hmod : ∀ {f u}, (modify w f u g).isSome = (w g).isSome := by
    intro f u
    unfold modify
    split
    · exact Option.isSome_map
    · rfl
  cases r with
  | attrFt f => rw [h.1]
  | contentFt f off n => rw [h.1]
  | contentWb f off data t s =>
    by_cases he : (a : ContentWbAns).err = 0
    · rw [(h.1 he).2, hmod]
    · obtain ⟨k, -, h'⟩ := h.2 he
      rw [h', hmod]
  | attrWb f attr s =>
    by_cases he : (a : AttrWbAns).err = 0
    · rw [(h.2.1 he).2, hmod]
    · rw [h.2.2 he]

/-- Files that answer without a failure of their own. -/
def answer (w : PlainFiles) : (r : Call) → r.Ans × PlainFiles
  | .attrFt f =>
    match w f with
    | some c => ({ err := 0, attr := { size := c.length, mode := 0, time := .epoch } }, w)
    | none => ({ err := 2, attr := { size := 0, mode := 0, time := .epoch } }, w)
  | .contentFt f offset size =>
    match w f with
    | some c => ({ err := 0, data := pread c offset size }, w)
    | none => ({ err := 2, data := [] }, w)
  | .contentWb f offset data time stale =>
    match w f with
    | some _ => ({ err := 0, time := time, stale := stale }, modify w f (pwrite · offset data))
    | none => ({ err := 2, time := time, stale := true }, w)
  | .attrWb f attr stale =>
    match w f with
    | some _ => ({ err := 0, attr := attr, stale := stale }, modify w f (ftruncate · attr.size))
    | none => ({ err := 2, attr := attr, stale := true }, w)

/-- When every file exists, no request fails. -/
theorem serveOk_answer (w : PlainFiles) (r : Call) (h : ∀ f, (w f).isSome) :
    ServeOk w r (answer w r).1 (answer w r).2 ∧ ∀ f, ((answer w r).2 f).isSome := by
  have hs : ServeOk w r (answer w r).1 (answer w r).2 := by
    cases r with
    | attrFt f =>
      obtain ⟨c, hc⟩ := Option.isSome_iff_exists.mp (h f)
      simp only [answer, hc]
      exact ⟨⟨rfl, fun _ => ⟨c, hc, rfl⟩⟩, fun he => he rfl⟩
    | contentFt f off n =>
      obtain ⟨c, hc⟩ := Option.isSome_iff_exists.mp (h f)
      simp only [answer, hc]
      exact ⟨⟨rfl, fun _ => ⟨c, hc, rfl⟩⟩, fun he => he rfl⟩
    | contentWb f off data t s =>
      obtain ⟨c, hc⟩ := Option.isSome_iff_exists.mp (h f)
      simp only [answer, hc]
      exact ⟨⟨fun _ => ⟨h f, rfl⟩, fun he => absurd rfl he⟩, fun he => he rfl⟩
    | attrWb f attr s =>
      obtain ⟨c, hc⟩ := Option.isSome_iff_exists.mp (h f)
      simp only [answer, hc]
      exact ⟨⟨rfl, fun _ => ⟨h f, rfl⟩, fun he => absurd rfl he⟩, fun he => he rfl⟩
  exact ⟨hs, fun f => by rw [hs.1.isSome]; exact h f⟩

/-- The execution of a computation that these answers give. -/
theorem exec_answer {α : Type} {p : Act Cache Call.Ans α} {o : Outcome α} (h : ∀ f, (w f).isSome)
    (ho : (p.interp answer w).2.1 = o) :
    Exec ServeOk p w (p.interp answer w).1 o (p.interp answer w).2.2 ∧ ∀ f, ((p.interp answer w).2.2 f).isSome := by
  subst ho
  exact exec_interp (R := fun _ => True) (fun w r _ => serveOk_answer w r) p w (fun _ _ => trivial) h

end Plain

/-! ## Runs -/

/-- The public operations of the cache. -/
inductive CacheOp
  | write (f : Str) (offset : Nat) (buf : Bytes)
  | read (f : Str) (offset size : Nat)
  | flush (f : Str)
  | flushDirtyBlocks
  | evictBlocks (count : Nat)
  | truncate (f : Str) (fsize : Nat)
deriving DecidableEq

namespace CacheOp

/-- The call; only `read` returns bytes. -/
def run (B : Nat) (order : HashOrder) : CacheOp → CacheM Bytes
  | .write f offset buf => do Cache.write B f offset buf; pure []
  | .read f offset size => Cache.read B f offset size
  | .flush f => do Cache.flush B f; pure []
  | .flushDirtyBlocks => do Cache.flushDirtyBlocks B order; pure []
  | .evictBlocks count => do Cache.evictBlocks B order count; pure []
  | .truncate f fsize => do Cache.truncate B f fsize; pure []

/-- What the call does to local files: a successful write or truncate is
carried out on the file, everything else leaves them alone. -/
def apply : CacheOp → Outcome Bytes → PlainFiles → PlainFiles
  | .write f offset buf, .ok _, L => Plain.modify L f (pwrite · offset buf)
  | .truncate f fsize, .ok _, L => Plain.modify L f (ftruncate · fsize)
  | _, _, L => L

end CacheOp

/-- Calls with their outcomes, in order. -/
abbrev Record := List (CacheOp × Outcome Bytes)

/-- Local files after the recorded calls. -/
def localFiles (w₀ : PlainFiles) (rec : Record) : PlainFiles := rec.foldl (fun L p => p.1.apply p.2 L) w₀

@[simp] theorem localFiles_snoc {w₀ : PlainFiles} {rec : Record} {op : CacheOp} {o : Outcome Bytes} :
    localFiles w₀ (rec ++ [(op, o)]) = op.apply o (localFiles w₀ rec) := by
  simp [localFiles]

/-- A run of the cache from nothing cached, with its record. `allowed`
restricts the calls, given the record and the cache before the call. -/
inductive CacheRun (serve : PlainFiles → (r : Call) → r.Ans → PlainFiles → Prop) (B : Nat) (order : HashOrder)
    (allowed : Record → Cache → CacheOp → Outcome Bytes → Prop) (w₀ : PlainFiles) : Record → Cache → PlainFiles → Prop
  | start : CacheRun serve B order allowed w₀ [] Cache.empty w₀
  | call : CacheRun serve B order allowed w₀ rec c w → allowed rec c op o →
      Exec serve (op.run B order c) w c' o w' → CacheRun serve B order allowed w₀ (rec ++ [(op, o)]) c' w'

theorem CacheRun.imp {serve serve' : PlainFiles → (r : Call) → r.Ans → PlainFiles → Prop} {B : Nat}
    {order : HashOrder} {allowed : Record → Cache → CacheOp → Outcome Bytes → Prop} {w₀ w : PlainFiles}
    {rec : Record} {c : Cache} (hs : ∀ w r a w', serve w r a w' → serve' w r a w')
    (h : CacheRun serve B order allowed w₀ rec c w) : CacheRun serve' B order allowed w₀ rec c w := by
  induction h with
  | start => exact .start
  | call _ ha hx ih => exact ih.call ha (hx.imp fun h => hs _ _ _ _ h)

/-- The calls made one after the other, answered by `Plain.answer`. -/
def Plain.calls (B : Nat) (order : HashOrder) (w₀ : PlainFiles) (ops : List CacheOp) : Record × Cache × PlainFiles :=
  ops.foldl (fun s op =>
    let r := (op.run B order s.2.1).interp Plain.answer s.2.2
    (s.1 ++ [(op, r.2.1)], r.1, r.2.2)) ([], Cache.empty, w₀)

theorem Plain.calls_run (allowed : Record → Cache → CacheOp → Outcome Bytes → Prop) (B : Nat) (order : HashOrder)
    (w₀ : PlainFiles) (hw : ∀ f, (w₀ f).isSome) (ops : List CacheOp)
    (hops : ∀ op ∈ ops, ∀ rec c o, allowed rec c op o) :
    CacheRun Plain.ServeOk B order allowed w₀ (Plain.calls B order w₀ ops).1 (Plain.calls B order w₀ ops).2.1
        (Plain.calls B order w₀ ops).2.2 ∧
      ∀ f, ((Plain.calls B order w₀ ops).2.2 f).isSome := by
  induction ops using List.reverseRecOn with
  | nil => exact ⟨.start, hw⟩
  | append_singleton ops op ih =>
    obtain ⟨hr, hf⟩ := ih fun op' h => hops op' (List.mem_append_left _ h)
    obtain ⟨hx, hf'⟩ := exec_answer (p := op.run B order (Plain.calls B order w₀ ops).2.1) hf rfl
    rw [Plain.calls, List.foldl_append]
    exact ⟨hr.call (hops op (by simp) _ _ _) hx, hf'⟩

end Nfs
