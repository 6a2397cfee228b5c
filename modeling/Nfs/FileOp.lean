/-
`class FileOp` (`server_src/fileop.cpp`): what one connection of the server
does to the file system, call by call.

A function of `FileOp` is a program that stops at every system call. Its
state is the thread's `errno`, which a call that fails sets and no other
call touches; most functions report an error by returning it. The results of
`lseek` go through an `int` (`toInt`). What the functions leave in
their reference parameters is part of the result, and what the parameters
hold before is an argument.

`Kernel.Sys` says what a call may do. Files are found by their paths, and
open files by their descriptors. Every call that changes a file gives it a
stamp it has never had.
-/
import Nfs.Lib.Threads
import Nfs.Server

namespace Nfs

open PlainFile Resume

/-! ## System calls -/

inductive SysCall
  | stat (path : Str)
  /-- `open(path, O_WRONLY | O_CREAT, mode)` -/
  | openW (path : Str)
  /-- `lseek(fd, offset, SEEK_SET)` -/
  | lseek (fd : Nat) (offset : Int)
  | write (fd : Nat) (buf : Bytes)
  | close (fd : Nat)
  | truncate (path : Str) (offset : Int)

/-- The fields of `struct stat` that are read. -/
structure StatBuf where
  size : Nat
  mode : UInt64
  time : FileTime

/-- What a call returns that succeeds. -/
abbrev SysCall.Val : SysCall → Type
  | .stat _ => StatBuf
  | .openW _ => Nat
  | .lseek .. => Int
  | .write .. => Nat
  | .close _ => Unit
  | .truncate .. => Unit

/-- The answer to a call: its value, or the error it sets. -/
abbrev SysCall.Ans (c : SysCall) : Type := Except Int c.Val

/-- A computation of one thread of the server, over its `errno`. -/
abbrev ServerM := Prog Int SysCall.Ans

/-- Make a call; `none` is the return value -1. -/
def sys (c : SysCall) : ServerM (Option c.Val) := do
  match ← Prog.ask c with
  | .ok v => pure (some v)
  | .error e => do
    Prog.set e
    pure none

/-! ## The functions -/

/-- `std::string::c_str` as a call reads it: up to the first zero byte. -/
def cStr (s : Str) : Str := s.takeWhile (· ≠ 0)

/-- Conversion of an integer to `int`. -/
def toInt (v : Int) : Int := v.bmod (2 ^ 32)

/-- `EDQUOT` -/
def edquot : Int := 122

def loadTime (fname : Str) (time : FileTime) : ServerM (Int × FileTime) := do
  match ← sys (.stat (cStr fname)) with
  | some stbuf => pure (0, stbuf.time)
  | none => pure (-1, time)

namespace FileOp

variable (root : Str)

/-- Return `errno`. -/
def returnErrno (before after : FileTime) : ServerM ChangeResp := do
  pure { error := ← Prog.get, beforeChange := before, afterChange := after }

/-- The beginning of `write` and `truncate`: read the stamp. -/
def loadBefore (filename : Str) (before after : FileTime) (rest : FileTime → ServerM ChangeResp) :
    ServerM ChangeResp := do
  let (err, before) ← loadTime filename before
  if err < 0 then returnErrno before after else rest before

/-- The end of both: read it once more. -/
def loadAfter (filename : Str) (before after : FileTime) : ServerM ChangeResp := do
  let (err, after) ← loadTime filename after
  if err < 0 then returnErrno before after
  else pure { error := 0, beforeChange := before, afterChange := after }

def write (fpath : Str) (offset : Int) (buf : Bytes) (before after : FileTime) : ServerM ChangeResp := do
  let filename := root ++ fpath
  loadBefore filename before after fun before => do
    match ← sys (.openW (cStr filename)) with
    | none => returnErrno before after
    | some fd => do
      let pos ← sys (.lseek fd offset)
      if toInt (pos.getD (-1)) < 0 then do
        let _ ← sys (.close fd)
        returnErrno before after
      else do
        let writtenSize ← sys (.write fd buf)
        let _ ← sys (.close fd)
        match writtenSize with
        | none => returnErrno before after
        | some n =>
          if n < buf.length then pure { error := edquot, beforeChange := before, afterChange := after }
          else loadAfter filename before after

def truncate (fpath : Str) (offset : Int) (before after : FileTime) : ServerM ChangeResp := do
  let filename := root ++ fpath
  loadBefore filename before after fun before => do
    match ← sys (.truncate (cStr filename) offset) with
    | none => returnErrno before after
    | some _ => loadAfter filename before after

end FileOp

/-! ## The kernel -/

/-- Files and their stamps, by path, and the open files: the path and the
offset of each descriptor. -/
structure Kernel where
  fs : Server
  fds : Nat → Option (Str × Nat)

namespace Kernel

/-- A call that changes the file at `p`, which gets a stamp it has never had. -/
def Modify (k : Kernel) (p : Str) (u : Bytes → Bytes) (fs' : Server) : Prop :=
  ∃ s s', k.fs.Change p u s s' fs' ∧ ¬ k.fs.had p s'.time.stamp

/-- A call that finds nothing at `p` and creates a file there. -/
def Create (k : Kernel) (p : Str) (fs' : Server) : Prop :=
  ∃ s', k.fs.files p = none ∧ k.fs.Put p s' fs' ∧ s'.content = [] ∧ ¬ k.fs.had p s'.time.stamp

/-- **One system call**. Every call may fail; one that fails has no effect,
except that a descriptor is closed in any case. -/
def Sys (k : Kernel) : (c : SysCall) → c.Ans → Kernel → Prop
  | .stat p, .ok st, k' => k' = k ∧ ∃ s, k.fs.files p = some s ∧
      st = { size := s.content.length, mode := s.mode, time := s.time }
  | .openW p, .ok fd, k' => k.fds fd = none ∧ k'.fds = Function.update k.fds fd (some (p, 0)) ∧
      ((k.fs.files p).isSome ∧ k'.fs = k.fs ∨ k.Create p k'.fs)
  | .lseek fd offset, .ok pos, k' => 0 ≤ offset ∧ pos = offset ∧
      ∃ p o, k.fds fd = some (p, o) ∧ k' = { k with fds := Function.update k.fds fd (some (p, offset.toNat)) }
  | .write fd buf, .ok n, k' => n ≤ buf.length ∧ ∃ p o, k.fds fd = some (p, o) ∧
      k'.fds = Function.update k.fds fd (some (p, o + n)) ∧
      (n = 0 ∧ k'.fs = k.fs ∨ 0 < n ∧ k.Modify p (pwrite · o (buf.take n)) k'.fs)
  | .close fd, a, k' => (∀ e, a = .error e → 0 < e) ∧ k' = { k with fds := Function.update k.fds fd none }
  | .truncate p offset, .ok _, k' => 0 ≤ offset ∧ k'.fds = k.fds ∧ k.Modify p (ftruncate · offset.toNat) k'.fs
  | _, .error e, k' => 0 < e ∧ k' = k

/-- The stamp of what `p` holds. -/
def stamp (k : Kernel) (p : Str) : Option Stamp := (k.fs.files p).map (·.time.stamp)

/-- The call that has got this answer has changed what `p` holds. -/
def changes (k : Kernel) (p : Str) : (c : SysCall) → c.Ans → Bool
  | .openW q, .ok _ => p = q && (k.fs.files q).isNone
  | .write fd _, .ok n => 0 < n && ((k.fds fd).map (·.1) = some p)
  | .truncate q _, .ok _ => p = q
  | _, _ => false

variable {k k' : Kernel} {p : Str} {c : SysCall} {a : c.Ans}

/-- What a call does to the files: nothing, or it changes one and gives it a
new stamp. -/
theorem Sys.effect (h : k.Sys c a k') :
    (k'.fs = k.fs ∧ ∀ p, k.changes p c a = false) ∨
      ∃ q s', k.fs.Put q s' k'.fs ∧ ¬ k.fs.had q s'.time.stamp ∧ ∀ p, k.changes p c a = decide (p = q) := by
  cases c with
  | close fd =>
    obtain ⟨-, rfl⟩ := h
    exact .inl ⟨rfl, fun _ => rfl⟩
  | stat q =>
    cases a with
    | ok st => exact .inl ⟨by rw [h.1], fun _ => rfl⟩
    | error e => exact .inl ⟨by rw [h.2], fun _ => rfl⟩
  | openW q =>
    cases a with
    | ok fd =>
      obtain ⟨-, -, ⟨hs, hfs⟩ | ⟨s', hn, hp, -, hnew⟩⟩ := h
      · exact .inl ⟨hfs, fun p => by simp [changes, hs]⟩
      · exact .inr ⟨q, s', hp, hnew, fun p => by simp [changes, hn]⟩
    | error e => exact .inl ⟨by rw [h.2], fun _ => rfl⟩
  | lseek fd offset =>
    cases a with
    | ok pos =>
      obtain ⟨-, -, q, o, -, rfl⟩ := h
      exact .inl ⟨rfl, fun _ => rfl⟩
    | error e => exact .inl ⟨by rw [h.2], fun _ => rfl⟩
  | write fd buf =>
    cases a with
    | ok n =>
      obtain ⟨-, q, o, hfd, -, ⟨rfl, hfs⟩ | ⟨hn, s, s', hc, hnew⟩⟩ := h
      · exact .inl ⟨hfs, fun _ => rfl⟩
      · exact .inr ⟨q, s', hc.2.1, hnew, fun p => by simp [changes, hfd, hn, eq_comm]⟩
    | error e => exact .inl ⟨by rw [h.2], fun _ => rfl⟩
  | truncate q offset =>
    cases a with
    | ok _ =>
      obtain ⟨-, -, s, s', hc, hnew⟩ := h
      exact .inr ⟨q, s', hc.2.1, hnew, fun _ => rfl⟩
    | error e => exact .inl ⟨by rw [h.2], fun _ => rfl⟩

/-- **Every call** leaves a path that shows an old stamp with what it held. -/
theorem Sys.evolves (h : k.Sys c a k') : k.fs.Evolves k'.fs := by
  obtain ⟨hfs, -⟩ | ⟨q, s', hp, -, -⟩ := h.effect
  · rw [hfs]
    exact .refl _
  · exact hp.evolves

theorem Sys.stamp_same (h : k.Sys c a k') (hc : ¬ k.changes p c a) : k'.stamp p = k.stamp p := by
  obtain ⟨hfs, -⟩ | ⟨q, s', hp, -, hq⟩ := h.effect
  · rw [stamp, stamp, hfs]
  · have hne : p ≠ q := by simpa [hq p] using hc
    rw [stamp, stamp, hp.1 p hne]

theorem Sys.stamp_new (h : k.Sys c a k') (hc : k.changes p c a) : ∃ t, k'.stamp p = some t ∧ ¬ k.fs.had p t := by
  obtain ⟨-, hno⟩ | ⟨q, s', hp, hnew, hq⟩ := h.effect
  · rw [hno p] at hc
    cases hc
  · obtain rfl : p = q := by simpa [hq p] using hc
    exact ⟨_, by rw [stamp, hp.2.1]; rfl, hnew⟩

/-! ## A kernel that answers by a function -/

/-- The time of a file that is changed: its modification time goes on by a
second, as long as it can. -/
def tick (t : FileTime) : Option FileTime :=
  if t.mtime.timeSec < t.mtime.timeSec + 1 then some { t with mtime := ⟨t.mtime.timeSec + 1, 0⟩ } else none

/-- Change the file at `p`, if there is one. -/
def modify (fs : Server) (p : Str) (u : Bytes → Bytes) : Option Server := do
  let s ← fs.files p
  let t ← tick s.time
  some (fs.store p { s with content := u s.content, time := t })

/-- Every call is carried out at once; nothing is created. -/
def answer (k : Kernel) : (c : SysCall) → c.Ans × Kernel
  | .stat p => match k.fs.files p with
    | some s => (.ok { size := s.content.length, mode := s.mode, time := s.time }, k)
    | none => (.error 2, k)
  | .openW p => match k.fs.files p, (List.range 16).find? fun fd => (k.fds fd).isNone with
    | some _, some fd => (.ok fd, { k with fds := Function.update k.fds fd (some (p, 0)) })
    | some _, none => (.error 24, k)
    | none, _ => (.error 2, k)
  | .lseek fd offset => match k.fds fd with
    | some (p, _) =>
      if 0 ≤ offset then (.ok offset, { k with fds := Function.update k.fds fd (some (p, offset.toNat)) })
      else (.error 22, k)
    | none => (.error 9, k)
  | .write fd buf => match k.fds fd with
    | some (p, o) => match modify k.fs p (pwrite · o buf) with
      | some fs =>
        if buf = [] then (.ok 0, k)
        else (.ok buf.length, { fs := fs, fds := Function.update k.fds fd (some (p, o + buf.length)) })
      | none => (.error 5, k)
    | none => (.error 9, k)
  | .close fd => (.ok (), { k with fds := Function.update k.fds fd none })
  | .truncate p offset => match modify k.fs p (ftruncate · offset.toNat) with
    | some fs => if 0 ≤ offset then (.ok (), { k with fs := fs }) else (.error 22, k)
    | none => (.error 2, k)

/-- The modification time of a file is the latest it has had. -/
def Ticking (k : Kernel) : Prop :=
  ∀ p s t, k.fs.files p = some s → k.fs.had p t → t.1.timeSec ≤ s.time.mtime.timeSec

theorem modify_spec {u : Bytes → Bytes} {fs' : Server} (hk : k.Ticking) (h : modify k.fs p u = some fs') :
    k.Modify p u fs' ∧ ∀ fds, Ticking { fs := fs', fds := fds } := by
  obtain ⟨s, hs, h⟩ := Option.bind_eq_some_iff.mp h
  obtain ⟨t, ht, h⟩ := Option.bind_eq_some_iff.mp h
  cases h
  rw [tick] at ht
  split at ht
  · rename_i hlt
    cases ht
    have hnew : ¬ k.fs.had p ((⟨s.time.mtime.timeSec + 1, 0⟩ : TimeSpec), s.time.ctime) :=
      fun hh => absurd (hk p s _ hs hh) (Int64.not_le.mpr hlt)
    refine ⟨⟨s, _, ⟨hs, Server.put_store (.inl hnew), rfl⟩, hnew⟩, fun fds q s' t hs' hh => ?_⟩
    have hs' : Function.update k.fs.files p (some _) q = some s' := hs'
    by_cases hq : q = p
    · subst hq
      rw [Function.update_self] at hs'
      cases hs'
      rcases hh with hh | ⟨-, rfl⟩
      · exact Int64.le_trans (hk q s t hs hh) (Int64.le_of_lt hlt)
      · exact Int64.le_refl _
    · rw [Function.update_of_ne hq] at hs'
      exact hk q s' t hs' (hh.resolve_right fun h => hq h.1)
  · cases ht

/-- **The answers** are such as a kernel may give. -/
theorem sys_answer (hk : k.Ticking) (c : SysCall) :
    k.Sys c (k.answer c).1 (k.answer c).2 ∧ (k.answer c).2.Ticking := by
  cases c with
  | stat p =>
    simp only [answer]
    split
    · rename_i s hs
      exact ⟨⟨rfl, s, hs, rfl⟩, hk⟩
    · exact ⟨⟨by decide, rfl⟩, hk⟩
  | openW p =>
    simp only [answer]
    split
    · rename_i s fd hs hfd
      have hfree := List.find?_some hfd
      have hfree : k.fds fd = none := Option.isNone_iff_eq_none.mp hfree
      exact ⟨⟨hfree, rfl, .inl ⟨by rw [hs]; rfl, rfl⟩⟩, hk⟩
    · exact ⟨⟨by decide, rfl⟩, hk⟩
    · exact ⟨⟨by decide, rfl⟩, hk⟩
  | lseek fd offset =>
    simp only [answer]
    split
    · rename_i p o hfd
      split
      · rename_i h0
        exact ⟨⟨h0, rfl, p, o, hfd, rfl⟩, hk⟩
      · exact ⟨⟨by decide, rfl⟩, hk⟩
    · exact ⟨⟨by decide, rfl⟩, hk⟩
  | write fd buf =>
    simp only [answer]
    split
    · rename_i p o hfd
      split
      · rename_i fs hfs
        obtain ⟨hm, ht⟩ := modify_spec hk hfs
        split
        · refine ⟨⟨Nat.zero_le _, p, o, hfd, ?_, .inl ⟨rfl, rfl⟩⟩, hk⟩
          rw [Nat.add_zero, ← hfd, Function.update_eq_self]
        · rename_i hb
          refine ⟨⟨le_refl _, p, o, hfd, rfl, .inr ⟨List.length_pos_of_ne_nil hb, ?_⟩⟩, ht _⟩
          rw [List.take_length]
          exact hm
      · exact ⟨⟨by decide, rfl⟩, hk⟩
    · exact ⟨⟨by decide, rfl⟩, hk⟩
  | close fd => exact ⟨⟨nofun, rfl⟩, hk⟩
  | truncate p offset =>
    simp only [answer]
    split
    · rename_i fs hfs
      obtain ⟨hm, ht⟩ := modify_spec hk hfs
      split
      · rename_i h0
        exact ⟨⟨h0, rfl, hm⟩, ht _⟩
      · exact ⟨⟨by decide, rfl⟩, hk⟩
    · exact ⟨⟨by decide, rfl⟩, hk⟩

end Kernel

end Nfs
