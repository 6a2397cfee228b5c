/-
What the server's calls do to a file system, and what the functions of
`FileOp` make of them.

`Kernel.Host` extends `Kernel.Sys` to all the calls the server makes. Any
call may fail, with an error that an `int` holds, and then does nothing. An
`able` kernel is one that refuses nothing without need: a call only fails
where there is no file, and everything that is to be written is written.

Each function gets one rule. What they all have in common: nothing is left
open, and an error that is returned is one that a call has set.
-/
import Mathlib.Algebra.Ring.Int.Defs
import Nfs.Host
import Nfs.Rename

namespace Nfs

open PlainFile Resume

/-- What `errno` holds after a call that failed. -/
def Errno (e : Int) : Prop := 0 < e ∧ e < 2 ^ 31

/-- What a function returns: no error, or one of these. -/
def Code (e : Int) : Prop := e = 0 ∨ Errno e

/-! ## The calls -/

/-- The path is `p`, or below it. -/
def Under (p x : Str) : Prop := ∃ y, Tail y ∧ x = p ++ y

/-- The directories above `p`. -/
def Above (p x : Str) : Prop := x ≠ p ∧ Under x p

/-- What `p` is has changed, and the directories above it with it. -/
structure Server.Relink (w : Server) (p : Str) (w' : Server) : Prop where
  evolves : w.Evolves w'
  other : ∀ x, x ≠ p → ¬ Above p x → w'.files x = w.files x

/-- `p` has become `q`, with everything below it. -/
structure Server.Move (w : Server) (p q : Str) (w' : Server) : Prop where
  was : (w.files p).isSome
  evolves : w.Evolves w'
  moved : w.Moved p q w'
  gone : p ≠ q → ∀ y, Tail y → w'.files (p ++ y) = none
  other : ∀ x, ¬ Under p x → ¬ Under q x → ¬ Above p x → ¬ Above q x → w'.files x = w.files x

namespace Kernel

/-- The descriptor is closed, also by a `close` that fails. -/
def shut (k : Kernel) : HostCall → Kernel
  | .sys (.close fd) => { k with fds := Function.update k.fds fd none }
  | .closedir dir => { k with fds := Function.update k.fds dir none }
  | _ => k

/-- `k'` is `k` with a file opened. -/
def Opened (k : Kernel) (fd : Nat) (p : Str) (o : Nat) (k' : Kernel) : Prop :=
  k.fds fd = none ∧ k'.fds = Function.update k.fds fd (some (p, o))

/-- A call that succeeds. -/
def Does (able : Prop) (k : Kernel) : (c : HostCall) → c.Val → Kernel → Prop
  | .sys (.stat p), st, k' => k.Sys (.stat p) (.ok st) k' ∧ st.size < 2 ^ 63
  | .sys (.write fd buf), n, k' => k.Sys (.write fd buf) (.ok n) k' ∧ (able → n = buf.length)
  | .sys c, v, k' => k.Sys c (.ok v) k'
  | .access p, _, k' => (k.fs.files p).isSome ∧ k' = k
  | .openR p, fd, k' => (k.fs.files p).isSome ∧ k.Opened fd p 0 k' ∧ k'.fs = k.fs
  | .openT p, fd, k' => k.Opened fd p 0 k' ∧ k.fs.Relink p k'.fs ∧ k'.fs.content p = some []
  | .read fd size, got, k' => ∃ p o s, k.fds fd = some (p, o) ∧ k.fs.files p = some s ∧
      got.1 = pread s.content o got.1.length ∧ (got.1 = [] → size = 0 ∨ s.content.length ≤ o) ∧
      k'.fds = Function.update k.fds fd (some (p, o + got.1.length)) ∧ k.fs.Peek p k'.fs
  | .statvfs _, _, k' => k' = k
  | .opendir p, dir, k' => (k.fs.files p).isSome ∧ k.Opened dir p 0 k' ∧ k'.fs = k.fs
  | .readdir dir, listing, k' => (∀ e, listing.error = some e → Errno e) ∧ k'.fds = k.fds ∧
      ∃ p o, k.fds dir = some (p, o) ∧ k.fs.Peek p k'.fs
  | .closedir dir, _, k' => k' = k.shut (.closedir dir)
  | .unlink p, _, k' => k'.fds = k.fds ∧ (k.fs.files p).isSome ∧ k.fs.Relink p k'.fs ∧ k'.fs.files p = none
  | .rmdir p, _, k' => k'.fds = k.fds ∧ k.fs.Relink p k'.fs ∧ k'.fs.files p = none
  | .mkdir p _, _, k' => k'.fds = k.fds ∧ k.fs.Relink p k'.fs ∧ k.fs.files p = none ∧ (k'.fs.files p).isSome
  | .rename p q, _, k' => k'.fds = k.fds ∧ k.fs.Move p q k'.fs

/-- What a call may fail for on a file system that is able. -/
def Excuses (k : Kernel) : HostCall → Prop
  | .sys (.stat p) => k.fs.files p = none
  | .sys (.openW p) => k.fs.files p = none
  | .sys (.lseek fd offset) => k.fds fd = none ∨ offset < 0
  | .sys (.write fd _) => k.fds fd = none
  | .sys (.truncate p offset) => k.fs.files p = none ∨ offset < 0
  | .access p => k.fs.files p = none
  | .openR p => k.fs.files p = none
  | .read fd _ => k.fds fd = none
  | .unlink p => k.fs.files p = none
  | .rename p _ => k.fs.files p = none
  | _ => True

/-- **One call.** -/
def Host (able : Prop) (k : Kernel) (c : HostCall) (a : c.Ans) (k' : Kernel) : Prop :=
  match a with
  | .ok v => k.Does able c v k'
  | .error e => Errno e ∧ k' = k.shut c ∧ (able → k.Excuses c)

variable {able : Prop} {k k' : Kernel} {fd o : Nat} {p : Str}

/-- The calls of `SysCall` are those of `Kernel.Sys`. -/
theorem Host.sys {c : SysCall} {a : c.Ans} (h : k.Host able (.sys c) a k') : k.Sys c a k' := by
  cases a with
  | ok v =>
    cases c with
    | stat | write => exact h.1
    | close fd => exact h
    | openW | lseek | truncate => exact h
  | error e =>
    obtain ⟨he, rfl, -⟩ := h
    cases c with
    | close fd =>
      refine ⟨fun e' h' => ?_, rfl⟩
      cases h'
      exact he.1
    | stat | write | openW | lseek | truncate => exact ⟨he.1, rfl⟩

theorem Opened.here (h : k.Opened fd p o k') : k'.fds fd = some (p, o) := by rw [h.2, Function.update_self]

theorem Opened.moved {k'' : Kernel} {o' : Nat} (h : k.Opened fd p o k')
    (hk : k''.fds = Function.update k'.fds fd (some (p, o'))) : k.Opened fd p o' k'' :=
  ⟨h.1, by rw [hk, h.2, Function.update_idem]⟩

/-- Closing it leaves open what was open before. -/
theorem Opened.shut (h : k.Opened fd p o k') : Function.update k'.fds fd none = k.fds := by
  rw [h.2, Function.update_idem, ← h.1, Function.update_eq_self]

end Kernel

theorem Server.Peek.refl (w : Server) (f : Str) : w.Peek f w := by
  refine ⟨rfl, fun _ _ => rfl, ?_⟩
  cases hf : w.files f with
  | none => exact ⟨⟨0, 0⟩, rfl⟩
  | some s => exact ⟨s.time.atime, rfl⟩

theorem Server.Peek.trans {w w' w'' : Server} {f : Str} (h : w.Peek f w') (h' : w'.Peek f w'') : w.Peek f w'' := by
  obtain ⟨hhad, ho, t, hf⟩ := h
  obtain ⟨hhad', ho', t', hf'⟩ := h'
  refine ⟨hhad'.trans hhad, fun g hg => (ho' g hg).trans (ho g hg), t', ?_⟩
  rw [hf', hf, Option.map_map]
  rfl

/-! ## Making a call -/

section
variable {able : Prop} {k : Kernel} {errno : Int} {α : Type}

abbrev hostEnv (able : Prop) : Env Int Kernel HostCall.Ans := Env.solo (Kernel.Host able)

/-- The calls of `SysCall` among them. -/
abbrev sysEnv (able : Prop) : Env Int Kernel SysCall.Ans := (hostEnv able).pull id HostCall.sys fun _ a => a

theorem onHost_wp {W : Type} {E : Env Int W HostCall.Ans} {p : ServerM α} {Q : Int → W → Outcome α → Prop} {w : W} :
    ((onHost p) errno).wp E Q w ↔ (p errno).wp (E.pull id HostCall.sys fun _ a => a) Q w := wp_lift

theorem hostCall_rule {c : HostCall} {Q : Int → Kernel → Outcome (Option c.Val) → Prop}
    (hok : ∀ v k', k.Does able c v k' → Q errno k' (.ok (some v)))
    (herr : ∀ e, Errno e → (able → k.Excuses c) → Q e (k.shut c) (.ok none)) :
    ((host c) errno).wp (hostEnv able) Q k := by
  refine ⟨trivial, fun k₁ hk a k' hs => ?_⟩
  cases hk
  cases a with
  | ok v => exact hok v k' hs
  | error e =>
    obtain ⟨he, rfl, hex⟩ := hs
    exact herr e he hex

theorem onHost_sys (c : SysCall) : onHost (sys c) = host (.sys c) := by
  funext errno
  refine congrArg (Act.ask errno (HostCall.sys c)) (funext fun a => ?_)
  cases a with
  | ok v => rfl
  | error e => rfl

/-- A call of `SysCall` is one of the host's. -/
theorem onHost_call {W : Type} {E : Env Int W HostCall.Ans} {c : SysCall}
    {Q : Int → W → Outcome (Option c.Val) → Prop} {w : W} :
    ((sys c) errno).wp (E.pull id HostCall.sys fun _ a => a) Q w ↔ ((host (.sys c)) errno).wp E Q w := by
  rw [← onHost_sys, onHost_wp]

/-- `close`, whose result nobody looks at. It may change `errno`. -/
theorem close_rule {fd o : Nat} {p : Str} {k₀ : Kernel} {Q : Int → Kernel → Outcome (Option Unit) → Prop}
    (h : k₀.Opened fd p o k)
    (hQ : ∀ e r, e = errno ∨ Errno e → Q e { k with fds := k₀.fds } (.ok r)) :
    ((host (.sys (.close fd))) errno).wp (hostEnv able) Q k := by
  refine hostCall_rule (fun v k' hs => ?_) fun e he _ => ?_
  · obtain ⟨-, rfl⟩ : _ ∧ k' = { k with fds := Function.update k.fds fd none } := hs
    rw [h.shut]
    exact hQ errno _ (.inl rfl)
  · have hshut : k.shut (.sys (.close fd)) = { k with fds := k₀.fds } := by
      rw [Kernel.shut, h.shut]
    rw [hshut]
    exact hQ e _ (.inr he)

/-! ## Looking at a file -/

/-- What a function returns that looks at `p`: an error, or `R`. -/
def Looked (able : Prop) (k : Kernel) (p : Str) (R : SFile → Prop) (err : Int) : Prop :=
  (err = 0 ∧ ∃ s, k.fs.files p = some s ∧ s.content.length < 2 ^ 63 ∧ R s) ∨
    (Errno err ∧ (able → k.fs.files p = none))

namespace FileOp

variable {root fpath : Str}

theorem loadTime_rule {fname : Str} {time : FileTime} :
    ((loadTime fname time) errno).wp (sysEnv able) (Returns fun r e k' => k' = k ∧
      (r.1 = 0 ∧ (∃ s, k.fs.files (cStr fname) = some s ∧ s.content.length < 2 ^ 63 ∧ r.2 = s.time) ∨
        r.1 = -1 ∧ Errno e ∧ (able → k.fs.files (cStr fname) = none))) k := by
  refine wp_bind.mpr (onHost_call.mpr (hostCall_rule (fun st k' hs => ?_) fun e he hex => ⟨rfl, .inr ⟨rfl, he, hex⟩⟩))
  obtain ⟨⟨rfl, s, hf, rfl⟩, hsize⟩ := hs
  exact ⟨rfl, .inl ⟨rfl, s, hf, hsize, rfl⟩⟩

theorem access_rule {time : FileTime} :
    ((FileOp.access root fpath time) errno).wp (hostEnv able) (Returns fun r _ k' => k' = k ∧
      Looked able k (cStr (root ++ fpath)) (fun s => r.2 = s.time) r.1) k := by
  refine wp_bind.mpr (hostCall_rule (fun _ k' hs => ?_) fun e he hex => ⟨rfl, .inr ⟨he, hex⟩⟩)
  obtain ⟨-, rfl⟩ := hs
  refine wp_returns (onHost_wp.mpr loadTime_rule) fun e k₁ r hr => ?_
  obtain ⟨rfl, ⟨h0, s, hf, hsize, ht⟩ | ⟨hneg, he, hex⟩⟩ := hr
  · show Act.wp _ _ ((if r.1 < 0 then _ else _ : HostM (Int × FileTime)) e) k₁
    rw [h0, if_neg (by decide)]
    exact ⟨rfl, .inl ⟨rfl, s, hf, hsize, ht⟩⟩
  · show Act.wp _ _ ((if r.1 < 0 then _ else _ : HostM (Int × FileTime)) e) k₁
    rw [hneg, if_pos (by decide)]
    exact ⟨rfl, .inr ⟨he, hex⟩⟩

theorem stat_rule {stbuf : StatBuf} :
    ((FileOp.stat root fpath stbuf) errno).wp (hostEnv able) (Returns fun r _ k' => k' = k ∧
      Looked able k (cStr (root ++ fpath))
        (fun s => r.2 = { size := s.content.length, mode := s.mode, time := s.time }) r.1) k := by
  refine wp_bind.mpr (hostCall_rule (fun st k' hs => ?_) fun e he hex => ⟨rfl, .inr ⟨he, hex⟩⟩)
  obtain ⟨⟨rfl, s, hf, rfl⟩, hsize⟩ := hs
  exact ⟨rfl, .inl ⟨rfl, s, hf, hsize, rfl⟩⟩

theorem statfs_rule {st : FsStat} :
    ((FileOp.statfs root st) errno).wp (hostEnv able) (Returns fun r _ k' => k' = k ∧ Code r.1) k := by
  refine wp_bind.mpr (hostCall_rule (fun st k' hs => ?_) fun e he _ => ⟨rfl, .inr he⟩)
  exact ⟨hs, .inl rfl⟩

theorem readdir_rule :
    ((FileOp.readdir root fpath) errno).wp (hostEnv able) (Returns fun r _ k' =>
      k'.fds = k.fds ∧ k.fs.Peek (cStr (root ++ fpath)) k'.fs ∧ Code r.1) k := by
  refine wp_bind.mpr (hostCall_rule (fun dir k₁ hs => ?_) fun e he _ => ⟨rfl, .refl .., .inr he⟩)
  obtain ⟨-, hopen, hfs⟩ := hs
  -- Whatever is listed, the directory is closed.
  have hclose : ∀ {names e₂} {k₂ : Kernel}, k.Opened dir (cStr (root ++ fpath)) 0 k₂ →
      k.fs.Peek (cStr (root ++ fpath)) k₂.fs → Code e₂ → ((do
        let _ ← host (.closedir dir)
        pure (← Prog.get, names) : HostM (Int × List Str)) e₂).wp (hostEnv able) (Returns fun r _ k' =>
          k'.fds = k.fds ∧ k.fs.Peek (cStr (root ++ fpath)) k'.fs ∧ Code r.1) k₂ := by
    intro names e₂ k₂ ho hp he₂
    refine wp_bind.mpr (hostCall_rule (fun _ k₃ hs => ?_) fun e he _ => ⟨ho.shut, hp, .inr he⟩)
    cases hs
    exact ⟨ho.shut, hp, he₂⟩
  refine wp_bind.mpr (wp_set.mpr (wp_bind.mpr ?_))
  refine hostCall_rule (fun listing k₂ hs => ?_) fun e he _ => hclose hopen (hfs ▸ .refl ..) (.inr he)
  obtain ⟨herr, hfds, p, o, hat, hpeek⟩ := hs
  cases hopen.here.symm.trans hat
  have ho : k.Opened dir (cStr (root ++ fpath)) 0 k₂ := ⟨hopen.1, hfds.trans hopen.2⟩
  rw [hfs] at hpeek
  obtain ⟨names, error, hcount⟩ := listing
  cases error with
  | none => exact hclose ho hpeek (.inl rfl)
  | some e => exact hclose ho hpeek (.inr (herr e rfl))

/-! ## Reading -/

/-- What the loop keeps: the descriptor stands where the next byte is, and
nothing but access times has changed. -/
structure Reads (k₀ : Kernel) (p : Str) (c : Bytes) (fd off : Nat) (buf : Bytes) (k : Kernel) : Prop where
  opened : k₀.Opened fd p (off + buf.length) k
  peek : k₀.fs.Peek p k.fs
  content : k₀.fs.content p = some c
  read : buf = pread c off buf.length

theorem readLoop_rule {k₀ : Kernel} {p : Str} {c : Bytes} {fd off size : Nat} : ∀ (rounds : Nat) {readSize : Int}
    {buf : Bytes} {k : Kernel}, Reads k₀ p c fd off buf k → 0 ≤ readSize → buf.length ≤ size →
    size ≤ buf.length + rounds → ((FileOp.readLoop fd size rounds readSize buf) errno).wp (hostEnv able)
      (Returns fun r e k' => (∃ o, k₀.Opened fd p o k') ∧ k₀.fs.Peek p k'.fs ∧ r.2.length ≤ size ∧
        (0 ≤ r.1 ∧ r.2 = pread c off size ∨ r.1 < 0 ∧ Errno e ∧ ¬ able)) k
  | 0, readSize, buf, k, hR, h0, hle, hr => by
    obtain rfl : size = buf.length := by omega
    exact ⟨⟨_, hR.opened⟩, hR.peek, le_rfl, .inl ⟨h0, hR.read⟩⟩
  | rounds + 1, readSize, buf, k, hR, h0, hle, hr => by
    rw [FileOp.readLoop]
    split
    · rename_i hlt
      refine wp_bind.mpr (hostCall_rule (fun got k' hs => ?_) fun e he hex =>
        ⟨⟨_, hR.opened⟩, hR.peek, hle, .inr ⟨Int.negSucc_lt_zero 0, he, fun ha => ?_⟩⟩)
      · obtain ⟨q, o, s, hat, hs, hgot, hend, hfds, hpeek⟩ := hs
        cases hR.opened.here.symm.trans hat
        have hsc : s.content = c := by
          have h := congrFun hR.peek.content p
          rw [hR.content, Server.content, hs] at h
          exact Option.some.inj h
        rw [hsc] at hgot hend
        have hpeek' := hR.peek.trans hpeek
        show Act.wp _ _ ((if _ then _ else _ : HostM (Int × Bytes)) errno) k'
        split
        · -- Nothing was got, so the file ends here.
          rename_i hnil
          have hnil : got.1 = [] := List.eq_nil_of_length_eq_zero (by omega)
          have hlen : c.length ≤ off + buf.length := (hend hnil).resolve_left (by omega)
          refine ⟨⟨_, hR.opened.moved hfds⟩, hpeek', hle, .inl ⟨Int.natCast_nonneg _, ?_⟩⟩
          show buf = _
          rw [hR.read, pread, pread, List.take_of_length_le (by simp; omega), List.take_of_length_le (by simp; omega)]
        · have hlen' := got.2
          refine readLoop_rule rounds ⟨?_, hpeek', hR.content, ?_⟩ (Int.natCast_nonneg _) (by simp; omega)
            (by simp; omega)
          · rw [List.length_append, ← Nat.add_assoc]
            exact hR.opened.moved hfds
          · rw [List.length_append, pread_add, ← hR.read, ← hgot]
      · have hnone : k.fds fd = none := hex ha
        rw [hR.opened.here] at hnone
        cases hnone
    · have hlen : buf.length = size := by omega
      exact ⟨⟨_, hR.opened⟩, hR.peek, hle, .inl ⟨h0, hlen ▸ hR.read⟩⟩

/-- **`read`**, at an offset whose bit 31 is not set. -/
theorem read_rule {offset : Int} {size : Nat} (h0 : 0 ≤ offset) (hbit : 0 ≤ toInt offset) :
    ((FileOp.read root fpath offset size) errno).wp (hostEnv able) (Returns fun r _ k' => k'.fds = k.fds ∧
      k.fs.Peek (cStr (root ++ fpath)) k'.fs ∧
      (r.1 = 0 ∧ (∃ c, k.fs.content (cStr (root ++ fpath)) = some c ∧ r.2 = pread c offset.toNat size) ∨
        Errno r.1 ∧ (able → k.fs.files (cStr (root ++ fpath)) = none))) k := by
  unfold FileOp.read
  refine wp_bind.mpr (hostCall_rule (fun fd k₁ hs => ?_) fun e he hex => ⟨rfl, .refl .., .inr ⟨he, hex⟩⟩)
  obtain ⟨hsome, hopen, hfs⟩ := hs
  obtain ⟨s, hs⟩ := Option.isSome_iff_exists.mp hsome
  have hc : k.fs.content (cStr (root ++ fpath)) = some s.content := by rw [Server.content, hs]; rfl
  refine wp_bind.mpr (hostCall_rule (fun pos k₂ hs => ?_) fun e he hex => ?_)
  · obtain ⟨-, hpos, p, o, hat, rfl⟩ := hs
    cases hopen.here.symm.trans hat
    show Act.wp _ _ ((if toInt pos < 0 then _ else _ : HostM (Int × Bytes)) errno) _
    rw [hpos, if_neg (by omega)]
    have hreads : Reads k (cStr (root ++ fpath)) s.content fd offset.toNat []
        { k₁ with fds := Function.update k₁.fds fd (some (cStr (root ++ fpath), offset.toNat)) } :=
      ⟨hopen.moved rfl, hfs ▸ .refl .., hc, rfl⟩
    refine wp_returns (readLoop_rule size hreads le_rfl (Nat.zero_le _) (by simp)) fun e₃ k₃ r hr => ?_
    obtain ⟨⟨o', hopen'⟩, hpeek, hlen, hres⟩ := hr
    refine wp_bind.mpr ((wp_assert hlen).mpr (wp_bind.mpr (close_rule hopen' fun e₄ _ he₄ => ?_)))
    show Act.wp _ _ ((if r.1 ≥ 0 then _ else _ : HostM (Int × Bytes)) e₄) _
    obtain ⟨hpos, hdata⟩ | ⟨hneg, he, hno⟩ := hres
    · rw [if_pos hpos]
      exact ⟨rfl, hpeek, .inl ⟨rfl, s.content, hc, hdata⟩⟩
    · rw [if_neg (by omega)]
      refine ⟨rfl, hpeek, .inr ⟨?_, fun ha => absurd ha hno⟩⟩
      exact he₄.elim (fun h => h ▸ he) id
  · -- An offset that is not negative is a good one, on an open file.
    have hno : ¬ able := by
      intro ha
      obtain hnone | hneg := hex ha
      · rw [hopen.here] at hnone
        cases hnone
      · omega
    have hneg : toInt ((none : Option Int).getD (-1)) < 0 := by decide
    show Act.wp _ _ ((if toInt ((none : Option Int).getD (-1)) < 0 then _ else _ : HostM (Int × Bytes)) e) k₁
    rw [if_pos hneg]
    refine wp_bind.mpr (close_rule hopen fun e₄ _ he₄ => ?_)
    refine ⟨rfl, hfs ▸ .refl .., .inr ⟨?_, fun ha => absurd ha hno⟩⟩
    exact he₄.elim (fun h => h ▸ he) id

/-! ## Changing -/

/-- How `write` and `truncate` end: the change is made and its stamps are
returned, or there is an error and it is made in part, or not at all. -/
def Changed (able : Prop) (k : Kernel) (p : Str) (u : Bytes → Bytes) (part : Nat → Bytes → Bytes) (excuse : Prop)
    (resp : ChangeResp) (k' : Kernel) : Prop :=
  k'.fds = k.fds ∧
    (resp.error = 0 ∧ (∃ s s', k.fs.Change p u s s' k'.fs ∧ resp.beforeChange = s.time ∧ resp.afterChange = s'.time) ∨
      Errno resp.error ∧ (able → k.fs.files p = none ∨ excuse) ∧
        (k'.fs = k.fs ∨ ∃ n s s', k.fs.Change p (part n) s s' k'.fs))

/-- Nothing has been changed. -/
theorem Changed.not {p : Str} {u : Bytes → Bytes} {part : Nat → Bytes → Bytes} {excuse : Prop} {e : Int}
    {before after : FileTime} {k' : Kernel} (hfds : k'.fds = k.fds) (hfs : k'.fs = k.fs) (he : Errno e)
    (hex : able → k.fs.files p = none ∨ excuse) :
    Changed able k p u part excuse { error := e, beforeChange := before, afterChange := after } k' :=
  ⟨hfds, .inr ⟨he, hex, .inl hfs⟩⟩

/-- The end of both: the change has been made. -/
theorem loadAfter_rule {filename : Str} {before after : FileTime} {u : Bytes → Bytes} {part : Nat → Bytes → Bytes}
    {excuse : Prop} {s s' : SFile} {k₀ : Kernel} {n : Nat} (hfds : k.fds = k₀.fds)
    (hc : k₀.fs.Change (cStr filename) u s s' k.fs) (hpart : part n = u) (hb : before = s.time) :
    ((FileOp.loadAfter filename before after) errno).wp (sysEnv able)
      (Returns fun resp _ k' => Changed able k₀ (cStr filename) u part excuse resp k') k := by
  unfold FileOp.loadAfter
  refine wp_returns loadTime_rule fun e k₁ r hr => ?_
  have hf := hc.2.1.2.1
  obtain ⟨rfl, ⟨h0, s₁, hf₁, -, ht⟩ | ⟨hneg, he, hex⟩⟩ := hr
  · show Act.wp _ _ ((if r.1 < 0 then _ else _ : ServerM ChangeResp) e) k₁
    rw [h0, if_neg (by decide)]
    cases hf.symm.trans hf₁
    exact ⟨hfds, .inl ⟨rfl, s, s', hc, hb, ht⟩⟩
  · show Act.wp _ _ ((if r.1 < 0 then _ else _ : ServerM ChangeResp) e) k₁
    rw [hneg, if_pos (by decide)]
    refine ⟨hfds, .inr ⟨he, fun ha => ?_, .inr ⟨n, s, s', hpart ▸ hc⟩⟩⟩
    rw [hex ha] at hf
    cases hf

/-- The beginning of both. -/
theorem loadBefore_rule {filename : Str} {before after : FileTime} {rest : FileTime → ServerM ChangeResp}
    {u : Bytes → Bytes} {part : Nat → Bytes → Bytes} {excuse : Prop}
    (hrest : ∀ e s, k.fs.files (cStr filename) = some s → ((rest s.time) e).wp (sysEnv able)
      (Returns fun resp _ k' => Changed able k (cStr filename) u part excuse resp k') k) :
    ((FileOp.loadBefore filename before after rest) errno).wp (sysEnv able)
      (Returns fun resp _ k' => Changed able k (cStr filename) u part excuse resp k') k := by
  unfold FileOp.loadBefore
  refine wp_returns loadTime_rule fun e k₁ r hr => ?_
  obtain ⟨rfl, ⟨h0, s, hf, -, ht⟩ | ⟨hneg, he, hex⟩⟩ := hr
  · show Act.wp _ _ ((if r.1 < 0 then _ else _ : ServerM ChangeResp) e) k₁
    rw [h0, if_neg (by decide), ht]
    exact hrest e s hf
  · show Act.wp _ _ ((if r.1 < 0 then _ else _ : ServerM ChangeResp) e) k₁
    rw [hneg, if_pos (by decide)]
    exact Changed.not rfl rfl he fun ha => .inl (hex ha)

/-- **`write`**, of something, at an offset whose bit 31 is not set. -/
theorem write_rule {offset : Int} {buf : Bytes} {before after : FileTime} (h0 : 0 ≤ offset)
    (hbit : 0 ≤ toInt offset) (hbuf : buf ≠ []) :
    ((FileOp.write root fpath offset buf before after) errno).wp (sysEnv able)
      (Returns fun resp _ k' => Changed able k (cStr (root ++ fpath)) (pwrite · offset.toNat buf)
        (fun n c => pwrite c offset.toNat (buf.take n)) False resp k') k := by
  unfold FileOp.write
  refine loadBefore_rule fun e s hs => ?_
  refine wp_bind.mpr (onHost_call.mpr (hostCall_rule (fun fd k₁ hopen => ?_) fun e₁ he₁ hex =>
    Changed.not rfl rfl he₁ fun ha => .inl (hex ha)))
  obtain ⟨hfree, hfds, ⟨-, hfs⟩ | ⟨s', hnone, -⟩⟩ := hopen
  · have hopen : k.Opened fd (cStr (root ++ fpath)) 0 k₁ := ⟨hfree, hfds⟩
    refine wp_bind.mpr (onHost_call.mpr (hostCall_rule (fun pos k₂ hseek => ?_) fun e₂ he₂ hex => ?_))
    · obtain ⟨-, hpos, p, o, hat, rfl⟩ := hseek
      cases hopen.here.symm.trans hat
      show Act.wp _ _ ((if toInt pos < 0 then _ else _ : ServerM ChangeResp) e) _
      rw [hpos, if_neg (by omega)]
      have hopen₂ : k.Opened fd (cStr (root ++ fpath)) offset.toNat
          { k₁ with fds := Function.update k₁.fds fd (some (cStr (root ++ fpath), offset.toNat)) } := hopen.moved rfl
      refine wp_bind.mpr (onHost_call.mpr (hostCall_rule (fun n k₃ hwrite => ?_) fun e₃ he₃ hex => ?_))
      · obtain ⟨⟨hle, p, o, hat, hfds₃, heff⟩, hall⟩ := hwrite
        cases hopen₂.here.symm.trans hat
        refine wp_bind.mpr (onHost_call.mpr (close_rule (hopen₂.moved hfds₃) fun e₄ _ _ => ?_))
        show Act.wp _ _ ((if n < buf.length then _ else _ : ServerM ChangeResp) e₄) _
        have heff : n = 0 ∧ k₃.fs = k.fs ∨ 0 < n ∧ ∃ s s',
            k.fs.Change (cStr (root ++ fpath)) (pwrite · offset.toNat (buf.take n)) s s' k₃.fs := by
          obtain ⟨h, h'⟩ | ⟨h, s, s', hc, -⟩ := heff
          · exact .inl ⟨h, h'.trans hfs⟩
          · exact .inr ⟨h, s, s', hfs ▸ hc⟩
        split
        · -- Part of it is written, and the error is `EDQUOT`.
          rename_i hlt
          have hquota : Errno edquot := ⟨by decide, by decide⟩
          refine ⟨rfl, .inr ⟨hquota, fun ha => absurd (hall ha) (Nat.ne_of_lt hlt), ?_⟩⟩
          exact heff.imp And.right fun h => ⟨n, h.2⟩
        · rename_i hge
          obtain rfl : n = buf.length := Nat.le_antisymm hle (Nat.le_of_not_lt hge)
          obtain ⟨h, -⟩ | ⟨-, s₁, s', hc⟩ := heff
          · exact absurd (List.eq_nil_of_length_eq_zero h) hbuf
          · rw [List.take_length] at hc
            cases hs.symm.trans hc.1
            exact loadAfter_rule (n := buf.length) rfl hc (by rw [List.take_length]) rfl
      · refine wp_bind.mpr (onHost_call.mpr (close_rule hopen₂ fun e₄ _ he₄ => ?_))
        refine Changed.not rfl hfs (he₄.elim (fun h => h ▸ he₃) id) fun ha => ?_
        have hnone := hex ha
        rw [Kernel.Excuses, hopen₂.here] at hnone
        cases hnone
    · show Act.wp _ _ ((if toInt ((none : Option Int).getD (-1)) < 0 then _ else _ : ServerM ChangeResp) e₂) k₁
      rw [if_pos (by decide)]
      refine wp_bind.mpr (onHost_call.mpr (close_rule hopen fun e₄ _ he₄ => ?_))
      refine Changed.not rfl hfs (he₄.elim (fun h => h ▸ he₂) id) fun ha => ?_
      obtain hnone | hneg := hex ha
      · rw [hopen.here] at hnone
        cases hnone
      · omega
  · rw [hs] at hnone
    cases hnone

theorem truncate_rule {offset : Int} {before after : FileTime} :
    ((FileOp.truncate root fpath offset before after) errno).wp (sysEnv able)
      (Returns fun resp _ k' => Changed able k (cStr (root ++ fpath)) (ftruncate · offset.toNat)
        (fun _ c => ftruncate c offset.toNat) (offset < 0) resp k') k := by
  unfold FileOp.truncate
  refine loadBefore_rule fun e s hs => ?_
  refine wp_bind.mpr (onHost_call.mpr (hostCall_rule (fun _ k₁ hcut => ?_) fun e₁ he₁ hex =>
    Changed.not rfl rfl he₁ hex))
  obtain ⟨-, hfds, s₁, s', hc, -⟩ := hcut
  cases hs.symm.trans hc.1
  exact loadAfter_rule (n := 0) hfds hc rfl rfl

/-! ## Making and removing -/

theorem creat_rule :
    ((FileOp.creat root fpath) errno).wp (hostEnv able) (Returns fun err _ k' => k'.fds = k.fds ∧
      (err = 0 ∧ k.fs.Relink (cStr (root ++ fpath)) k'.fs ∧ k'.fs.content (cStr (root ++ fpath)) = some [] ∨
        Errno err ∧ k' = k)) k := by
  refine wp_bind.mpr (hostCall_rule (fun fd k₁ hs => ?_) fun e he _ => ⟨rfl, .inr ⟨he, rfl⟩⟩)
  obtain ⟨hopen, hlink, hc⟩ := hs
  exact wp_bind.mpr (close_rule hopen fun e₂ _ _ => ⟨rfl, .inl ⟨rfl, hlink, hc⟩⟩)

/-- `unlink`, `rmdir`, `mkdir` and `rename`, none of which closes anything. -/
theorem plainly_rule {c : HostCall} (hc : k.shut c = k) :
    ((FileOp.plainly c) errno).wp (hostEnv able) (Returns fun err _ k' =>
      err = 0 ∧ (∃ v, k.Does able c v k') ∨ Errno err ∧ k' = k ∧ (able → k.Excuses c)) k := by
  refine wp_bind.mpr (hostCall_rule (fun v k' hs => .inl ⟨rfl, v, hs⟩) fun e he hex => ?_)
  rw [hc]
  exact .inr ⟨he, rfl, hex⟩

end FileOp

end

/-! ## A kernel that answers by a function -/

namespace Kernel

instance (k : Kernel) : (c : HostCall) → Decidable (k.Excuses c)
  | .sys (.stat p) => inferInstanceAs (Decidable (k.fs.files p = none))
  | .sys (.openW p) => inferInstanceAs (Decidable (k.fs.files p = none))
  | .sys (.lseek fd offset) => inferInstanceAs (Decidable (k.fds fd = none ∨ offset < 0))
  | .sys (.write fd _) => inferInstanceAs (Decidable (k.fds fd = none))
  | .sys (.close _) => .isTrue trivial
  | .sys (.truncate p offset) => inferInstanceAs (Decidable (k.fs.files p = none ∨ offset < 0))
  | .access p => inferInstanceAs (Decidable (k.fs.files p = none))
  | .openR p => inferInstanceAs (Decidable (k.fs.files p = none))
  | .openT _ => .isTrue trivial
  | .read fd _ => inferInstanceAs (Decidable (k.fds fd = none))
  | .statvfs _ => .isTrue trivial
  | .opendir _ => .isTrue trivial
  | .readdir _ => .isTrue trivial
  | .closedir _ => .isTrue trivial
  | .unlink p => inferInstanceAs (Decidable (k.fs.files p = none))
  | .rmdir _ => .isTrue trivial
  | .mkdir .. => .isTrue trivial
  | .rename p _ => inferInstanceAs (Decidable (k.fs.files p = none))

/-- Take the file at `p` away. -/
def remove (fs : Server) (p : Str) : Server where
  files := Function.update fs.files p none
  had := fs.had
  own {f s} h := by
    by_cases hf : f = p
    · rw [hf, Function.update_self] at h
      cases h
    · rw [Function.update_of_ne hf] at h
      exact fs.own h

/-- A call that fails with the error `e`, if it may. -/
def refuse (k : Kernel) (c : HostCall) (e : Int) : Option (c.Ans × Kernel) :=
  if k.Excuses c then some (.error e, k.shut c) else none

/-- Files can be looked at, changed and removed; there is no answer where none
would be good. -/
def hostAnswer (k : Kernel) : (c : HostCall) → Option (c.Ans × Kernel)
  | .sys (.stat p) => match k.fs.files p with
    | some s => if s.content.length < 2 ^ 63 then some (k.answer (.stat p)) else none
    | none => k.refuse (.sys (.stat p)) 2
  | .sys c => match k.answer c with
    | (.ok v, k') => some (.ok v, k')
    | (.error _, _) => k.refuse (.sys c) 2
  | .access p => if (k.fs.files p).isSome then some (.ok (), k) else k.refuse (.access p) 2
  | .openR p => match k.fs.files p, (List.range 16).find? fun fd => (k.fds fd).isNone with
    | some _, some fd => some (.ok fd, { k with fds := Function.update k.fds fd (some (p, 0)) })
    | _, _ => k.refuse (.openR p) 2
  | .read fd size => match k.fds fd with
    | some (p, o) => (k.fs.files p).map fun s =>
        (.ok ⟨pread s.content o size, by simp⟩,
          { k with fds := Function.update k.fds fd (some (p, o + (pread s.content o size).length)) })
    | none => k.refuse (.read fd size) 9
  | .unlink p =>
    if (k.fs.files p).isSome then some (.ok (), { k with fs := remove k.fs p }) else k.refuse (.unlink p) 2
  | c => k.refuse c 13

variable {k : Kernel}

theorem refuse_host {c : HostCall} {e : Int} {r : c.Ans × Kernel} (hk : k.Ticking) (he : Errno e)
    (h : k.refuse c e = some r) : k.Host True c r.1 r.2 ∧ r.2.Ticking := by
  obtain ⟨hex, h⟩ := Option.ite_none_right_eq_some.mp h
  cases h
  refine ⟨⟨he, rfl, fun _ => hex⟩, ?_⟩
  cases c with
  | sys c => cases c <;> exact hk
  | _ => exact hk

theorem answer_write {fd n : Nat} {buf : Bytes} {k' : Kernel} (h : k.answer (.write fd buf) = (.ok n, k')) :
    n = buf.length := by
  simp only [answer] at h
  split at h
  · split at h
    · split at h
      · rename_i hbuf
        cases h
        rw [hbuf]
        rfl
      · cases h
        rfl
    · cases h
  · cases h

theorem relink_remove {fs : Server} {p : Str} : fs.Relink p (remove fs p) := by
  refine ⟨fun f => ⟨fun _ h => h, fun s' hs' _ => ?_⟩, fun x hx _ => Function.update_of_ne hx _ _⟩
  by_cases hf : f = p
  · have hs' : Function.update fs.files p none f = some s' := hs'
    rw [hf, Function.update_self] at hs'
    cases hs'
  · have hs' : Function.update fs.files p none f = some s' := hs'
    rw [Function.update_of_ne hf] at hs'
    exact ⟨s', hs', rfl, rfl⟩

theorem Ticking.remove {p : Str} (hk : k.Ticking) : Ticking { k with fs := remove k.fs p } := by
  intro q s t hs ht
  have hs : Function.update k.fs.files p none q = some s := hs
  by_cases hq : q = p
  · rw [hq, Function.update_self] at hs
    cases hs
  · rw [Function.update_of_ne hq] at hs
    exact hk q s t hs ht

/-- **The answers** are those of an able kernel. -/
theorem host_hostAnswer {c : HostCall} {r : c.Ans × Kernel} (hk : k.Ticking) (h : k.hostAnswer c = some r) :
    k.Host True c r.1 r.2 ∧ r.2.Ticking := by
  cases c with
  | sys c =>
    have hs := sys_answer hk c
    cases c with
    | stat p =>
      simp only [hostAnswer] at h
      split at h
      · rename_i s hf
        obtain ⟨hlt, h⟩ := Option.ite_none_right_eq_some.mp h
        cases h
        simp only [answer, hf]
        exact ⟨⟨⟨rfl, s, hf, rfl⟩, hlt⟩, hk⟩
      · exact refuse_host hk ⟨by decide, by decide⟩ h
    | write fd buf =>
      simp only [hostAnswer] at h
      split at h
      · rename_i n k' heq
        cases h
        rw [heq] at hs
        exact ⟨⟨hs.1, fun _ => answer_write heq⟩, hs.2⟩
      · exact refuse_host hk ⟨by decide, by decide⟩ h
    | _ =>
      simp only [hostAnswer] at h
      split at h
      · rename_i v k' heq
        cases h
        rw [heq] at hs
        exact hs
      · exact refuse_host hk ⟨by decide, by decide⟩ h
  | access p =>
    simp only [hostAnswer] at h
    split at h
    · rename_i hs
      cases h
      exact ⟨⟨hs, rfl⟩, hk⟩
    · exact refuse_host hk ⟨by decide, by decide⟩ h
  | openR p =>
    simp only [hostAnswer] at h
    split at h
    · rename_i s fd hs hfd
      cases h
      have hfree : k.fds fd = none := by
        have h := List.find?_some hfd
        exact Option.isNone_iff_eq_none.mp h
      exact ⟨⟨by rw [hs]; rfl, ⟨hfree, rfl⟩, rfl⟩, hk⟩
    · exact refuse_host hk ⟨by decide, by decide⟩ h
  | read fd size =>
    simp only [hostAnswer] at h
    split at h
    · rename_i p o hfd
      obtain ⟨s, hs, rfl⟩ := Option.map_eq_some_iff.mp h
      refine ⟨⟨p, o, s, hfd, hs, ?_, fun hnil => ?_, rfl, .refl ..⟩, hk⟩
      · show pread s.content o size = pread s.content o (pread s.content o size).length
        rw [length_pread, pread, pread, List.take_eq_take_iff]
        simp
      · have hnil : pread s.content o size = [] := hnil
        simpa [pread] using hnil
    · exact refuse_host hk ⟨by decide, by decide⟩ h
  | unlink p =>
    simp only [hostAnswer] at h
    split at h
    · rename_i hsome
      cases h
      exact ⟨⟨rfl, hsome, relink_remove, Function.update_self ..⟩, hk.remove⟩
    · exact refuse_host hk ⟨by decide, by decide⟩ h
  | _ => exact refuse_host hk ⟨by decide, by decide⟩ h

end Kernel

end Nfs
