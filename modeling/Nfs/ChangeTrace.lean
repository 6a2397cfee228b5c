/-
A connection that changes a file while others do.

The server runs a thread for each connection, and nothing orders their
system calls. A write or a truncate makes up to six of them, of which one
changes the file. The trace of a run has a mark for each call, each change
and each return (`ConnTrace`). `Watch` adds to the kernel the trace and the
connections that own the descriptors, and `Watch.Rely` is what a connection
can rely on while others go on.

Here is one connection's part: what its system calls do to what it has
(`Watch.Has`), and that a call which comes to its end has changed the file at
most once, and returns 0 only after the whole change
(`ChangeCall.run_closed`).
-/
import Nfs.Lib.Requests
import Nfs.Plain
import Nfs.Stamps

namespace Nfs

open PlainFile Resume

/-! ## Traces -/

namespace ChangeCall

/-- What the call does to its file if `n` bytes are stored. -/
def edit : ChangeCall → Nat → Bytes → Bytes
  | .write _ offset buf _ _, n, l => pwrite l offset.toNat (buf.take n)
  | .truncate _ offset _ _, _, l => ftruncate l offset.toNat

/-- The bytes there are to be stored. -/
def size : ChangeCall → Nat
  | .write _ _ buf _ _ => buf.length
  | .truncate .. => 0

end ChangeCall

inductive Mark
  | called (c : ChangeCall)
  | edited (c : ChangeCall) (n : Nat)
  | returned (c : ChangeCall) (resp : ChangeResp)

/-- The marks of a connection during a call, the newest first: `m` is what it
has stored, if it has changed the file. -/
def Mark.during (c : ChangeCall) (l : List Mark) : Option Nat → List Mark
  | none => .called c :: l
  | some n => .edited c n :: .called c :: l

/-- What may be returned: 0 only after the whole change. -/
def Mark.Ends (c : ChangeCall) (resp : ChangeResp) : Option Nat → Prop
  | none => resp.error ≠ 0
  | some n => n ≤ c.size ∧ (resp.error = 0 → n = c.size)

/-- The marks of a connection between calls. -/
inductive Calm : List Mark → Prop
  | nil : Calm []
  | call {c : ChangeCall} {resp : ChangeResp} {m : Option Nat} {l : List Mark} : Calm l → Mark.Ends c resp m →
      Calm (.returned c resp :: Mark.during c l m)

/-- **In order**: one call after the other. -/
def Orderly (l : List Mark) : Prop := Calm l ∨ ∃ c h m, Calm h ∧ l = Mark.during c h m

section
variable {ι : Type} (root : Str) (L₀ : PlainFiles)

/-- The files after the changes of the trace. -/
def contents : List (ι × Mark) → PlainFiles
  | [] => L₀
  | (_, .edited c n) :: T => Plain.modify (contents T) (c.path root) (c.edit n)
  | _ :: T => contents T

/-- The marks of connection `i`. -/
def marksOf [DecidableEq ι] (i : ι) (T : List (ι × Mark)) : List Mark :=
  T.filterMap fun x => if x.1 = i then some x.2 else none

/-- What an answer to a call of `c` shows. -/
def editMarks (c : ChangeCall) : (q : SysCall) → q.Ans → List Mark
  | .write _ _, .ok n => [.edited c n]
  | .truncate _ _, .ok _ => [.edited c 0]
  | _, _ => []

def returnMarks (c : ChangeCall) : Option (Outcome ChangeResp) → List Mark
  | some (.ok resp) => [.returned c resp]
  | _ => []

/-- The marks of a step, the newest first. -/
def eventMarks (e : ConnEvent) : List Mark :=
  returnMarks e.op e.ret ++ match e.reply with
    | none => [.called e.op]
    | some ⟨q, a⟩ => editMarks e.op q a

/-- A run with its trace, the newest mark first. -/
inductive ConnTrace [DecidableEq ι] : Conns ι → List (ι × Mark) → Prop
  | start : (∀ i, ∃ errno, S.threads i = .idle errno) → S.world.fs.content = L₀ → ConnTrace S []
  | step : ConnTrace S T → ConnStep root S i e S' → e.op.Seekable → ConnTrace S' ((eventMarks e).map (i, ·) ++ T)

end

/-! ## Whose a descriptor is -/

/-- The kernel, the connections that own the descriptors, and the trace. -/
structure Watch (ι : Type) where
  kernel : Kernel
  owner : Nat → Option ι
  trace : List (ι × Mark)

section
variable {ι : Type} [DecidableEq ι] {root : Str} {L₀ : PlainFiles} {i j : ι} {c : ChangeCall} {q : SysCall} {a : q.Ans}
  {v v' v₁ v₂ : Watch ι} {fd : Nat} {p : Str} {l h : List Mark}

def ownerAfter (i : ι) (owner : Nat → Option ι) : (q : SysCall) → q.Ans → Nat → Option ι
  | .openW _, .ok fd => Function.update owner fd (some i)
  | .close fd, _ => Function.update owner fd none
  | _, _ => owner

namespace Watch

/-- An answer to connection `i` in its call `c`. -/
structure Serve (i : ι) (c : ChangeCall) (v : Watch ι) (q : SysCall) (a : q.Ans) (v' : Watch ι) : Prop where
  sys : v.kernel.Sys q a v'.kernel
  owner : v'.owner = ownerAfter i v.owner q a
  trace : v'.trace = (editMarks c q a).map (i, ·) ++ v.trace

/-- What the others do, as connection `i` sees it. -/
structure Rely (i : ι) (v v' : Watch ι) : Prop where
  owned : ∀ fd, v.owner fd = some i → v'.owner fd = some i ∧ v'.kernel.fds fd = v.kernel.fds fd
  files : ∀ p, (v.kernel.fs.files p).isSome → (v'.kernel.fs.files p).isSome
  marks : marksOf i v'.trace = marksOf i v.trace

/-- Connection `i` is in its call `c` and has not changed the file yet. -/
def Fresh (i : ι) (c : ChangeCall) (v : Watch ι) : Prop := ∃ h, marksOf i v.trace = Mark.during c h none

/-- A call that connection `i` may make for `c`: on a descriptor of its own,
not such that it creates a file, and the change only once. -/
def Fair (root : Str) (i : ι) (c : ChangeCall) (v : Watch ι) : SysCall → Prop
  | .stat _ => True
  | .openW p => (v.kernel.fs.files p).isSome
  | .lseek fd _ => v.owner fd = some i
  | .write fd buf => v.Fresh i c ∧ v.owner fd = some i ∧ ∃ o, v.kernel.fds fd = some (c.path root, o) ∧
      ∀ n, c.edit n = fun l => pwrite l o (buf.take n)
  | .close fd => v.owner fd = some i
  | .truncate p offset => v.Fresh i c ∧ p = c.path root ∧ ∀ n, c.edit n = fun l => ftruncate l offset.toNat

end Watch

/-- Connection `i` in its call `c`. -/
def watchEnv (root : Str) (i : ι) (c : ChangeCall) : Env Int (Option (Watch ι)) SysCall.Ans :=
  Env.guard { serve := Watch.Serve i c, rely := Watch.Rely i, seen := fun _ _ => True } (Watch.Fair root i c)

/-- What a call has got from the kernel: its value, or an error that is now
`errno`. -/
def Got (errno : Int) : q.Ans → Option q.Val → Int → Prop
  | .ok x, r, e => r = some x ∧ e = errno
  | .error er, r, e => r = none ∧ e = er ∧ er ≠ 0

theorem Kernel.Sys.error_ne {k k' : Kernel} {er : Int} (h : k.Sys q (.error er) k') : er ≠ 0 := by
  cases q with
  | close fd => exact (h.1 er rfl).ne'
  | _ => exact h.1.ne'

/-- **A call**, made where `A` holds, whatever the others do. -/
theorem sys_watched {A : Watch ι → Prop} {errno : Int} (hA : A v) (hst : ∀ {v v'}, A v → Watch.Rely i v v' → A v')
    (hfair : ∀ {v}, A v → v.Fair root i c q) : ((sys q) errno).wp (watchEnv root i c)
      (Returns fun r e o => ∃ v₁ v₂ a, A v₁ ∧ v₁.Serve i c q a v₂ ∧ o = some v₂ ∧ Got errno a r e) (some v) := by
  refine ⟨trivial, fun o hr a o₂ hs => ?_⟩
  cases o with
  | none => exact hr.elim
  | some v₁ =>
    have hA₁ := hst hA hr
    obtain ⟨v₂, rfl, hserve⟩ := guard_step hs (hfair hA₁)
    have hserve : v₁.Serve i c q a v₂ := hserve
    cases a with
    | ok x => exact ⟨v₁, v₂, .ok x, hA₁, hserve, rfl, rfl, rfl⟩
    | error er => exact ⟨v₁, v₂, .error er, hA₁, hserve, rfl, rfl, rfl, hserve.sys.error_ne⟩

theorem marksOf_append {ms : List Mark} {T : List (ι × Mark)} :
    marksOf i (ms.map (i, ·) ++ T) = ms ++ marksOf i T := by
  simp [marksOf, List.filterMap_append, List.filterMap_map]

theorem marksOf_append_other {ms : List Mark} {T : List (ι × Mark)} (hj : j ≠ i) :
    marksOf j (ms.map (i, ·) ++ T) = marksOf j T := by
  simp [marksOf, List.filterMap_append, List.filterMap_map, hj.symm]

/-- Files do not vanish. -/
theorem Kernel.Sys.there {k k' : Kernel} (h : k.Sys q a k') (hp : (k.fs.files p).isSome) :
    (k'.fs.files p).isSome := by
  obtain ⟨hfs, -⟩ | ⟨r, s', hput, -⟩ := h.effect
  · rwa [hfs]
  · by_cases hpr : p = r
    · rw [hpr, hput.2.1]
      rfl
    · rwa [hput.1 p hpr]

omit [DecidableEq ι] in
/-- A call that fails has no effect. -/
theorem Watch.Serve.failed {er : Int} (hs : v.Serve i c q (.error er) v') (hq : ∀ fd, q ≠ .close fd) : v' = v := by
  obtain ⟨hsys, hown, htr⟩ := hs
  obtain ⟨k, owner, trace⟩ := v
  obtain ⟨k', owner', trace'⟩ := v'
  cases q with
  | close fd => exact absurd rfl (hq fd)
  | _ =>
    obtain ⟨-, hk⟩ := hsys
    cases hk
    cases hown
    cases htr
    rfl

/-- Connection `i` has come so far: its marks, its file is there, and the
descriptor it has open, at an offset. -/
structure Watch.Has (i : ι) (l : List Mark) (p : Str) (own : Option (Nat × Nat)) (v : Watch ι) : Prop where
  marks : marksOf i v.trace = l
  there : (v.kernel.fs.files p).isSome
  opened : ∀ fd o, own = some (fd, o) → v.owner fd = some i ∧ v.kernel.fds fd = some (p, o)

namespace Watch.Has

variable {own : Option (Nat × Nat)} {o : Nat}

theorem rely (h : v.Has i l p own) (hr : v.Rely i v') : v'.Has i l p own := by
  refine ⟨hr.marks.trans h.marks, hr.files p h.there, fun fd o ho => ?_⟩
  obtain ⟨hown, hfd⟩ := h.opened fd o ho
  exact ⟨(hr.owned fd hown).1, (hr.owned fd hown).2.trans hfd⟩

theorem openW (h : v.Has i l p none) (hs : v.Serve i c (.openW p) (.ok fd) v') : v'.Has i l p (some (fd, 0)) := by
  obtain ⟨-, hfds, -⟩ := hs.sys
  refine ⟨by rw [hs.trace]; exact h.marks, hs.sys.there h.there, fun fd' o ho => ?_⟩
  cases ho
  rw [hs.owner, hfds]
  exact ⟨Function.update_self .., Function.update_self ..⟩

theorem lseek {offset pos : Int} (h : v.Has i l p (some (fd, o))) (hs : v.Serve i c (.lseek fd offset) (.ok pos) v') :
    v'.Has i l p (some (fd, offset.toNat)) ∧ 0 ≤ offset ∧ pos = offset := by
  obtain ⟨hmine, hfd⟩ := h.opened fd o rfl
  obtain ⟨h0, hpos, p', o', hfd', hk⟩ := hs.sys
  cases hfd.symm.trans hfd'
  refine ⟨⟨by rw [hs.trace]; exact h.marks, hs.sys.there h.there, fun fd' o ho => ?_⟩, h0, hpos⟩
  cases ho
  rw [hs.owner, hk]
  exact ⟨hmine, Function.update_self ..⟩

theorem write {buf : Bytes} {n : Nat} (h : v.Has i l p (some (fd, o))) (hs : v.Serve i c (.write fd buf) (.ok n) v') :
    v'.Has i (.edited c n :: l) p (some (fd, o + n)) ∧ n ≤ buf.length := by
  obtain ⟨hmine, hfd⟩ := h.opened fd o rfl
  obtain ⟨hle, p', o', hfd', hfds, -⟩ := hs.sys
  cases hfd.symm.trans hfd'
  refine ⟨⟨?_, hs.sys.there h.there, fun fd' o ho => ?_⟩, hle⟩
  · rw [hs.trace, marksOf_append, h.marks]
    rfl
  · cases ho
    rw [hs.owner, hfds]
    exact ⟨hmine, Function.update_self ..⟩

theorem truncate {offset : Int} (h : v.Has i l p none) (hs : v.Serve i c (.truncate p offset) (.ok ()) v') :
    v'.Has i (.edited c 0 :: l) p none := by
  refine ⟨?_, hs.sys.there h.there, fun fd o ho => by cases ho⟩
  rw [hs.trace, marksOf_append, h.marks]
  rfl

theorem close {a : SysCall.Ans (.close fd)} (h : v.Has i l p own) (hs : v.Serve i c (.close fd) a v') :
    v'.Has i l p none := by
  refine ⟨?_, hs.sys.there h.there, fun fd o ho => by cases ho⟩
  rw [hs.trace]
  exact h.marks

end Watch.Has

/-! ## One call -/

/-- How a call ends that was made after the marks `h`. -/
def Closed (i : ι) (c : ChangeCall) (h : List Mark) (resp : ChangeResp) (_ : Int) (o : Option (Watch ι)) : Prop :=
  ∃ v m, o = some v ∧ marksOf i v.trace = Mark.during c h m ∧ Mark.Ends c resp m

/-- What is left of the call ends so. -/
abbrev Closes (root : Str) (i : ι) (c : ChangeCall) (h : List Mark) (p : Act Int SysCall.Ans ChangeResp)
    (v : Watch ι) : Prop :=
  p.wp (watchEnv root i c) (Returns (Closed i c h)) (some v)

variable {errno : Int} {before after : FileTime} {m : Option Nat}

theorem returnErrno_closed (hm : marksOf i v.trace = Mark.during c h m) (hle : ∀ n, m = some n → n ≤ c.size)
    (he : errno ≠ 0) :
    Closes root i c h ((FileOp.returnErrno before after) errno) v := by
  refine ⟨v, m, rfl, hm, ?_⟩
  cases m with
  | none => exact he
  | some n => exact ⟨hle n rfl, fun h0 => absurd h0 he⟩

/-- Reading the stamp. -/
theorem loadTime_closed {fname : Str} {t : FileTime} (hm : marksOf i v.trace = l) :
    ((loadTime fname t) errno).wp (watchEnv root i c) (Returns fun r e o => ∃ v', o = some v' ∧
      marksOf i v'.trace = l ∧ (0 ≤ r.1 ∧ (v'.kernel.fs.files (cStr fname)).isSome ∨ r.1 < 0 ∧ e ≠ 0)) (some v) := by
  refine wp_returns (sys_watched (A := fun v => marksOf i v.trace = l) hm (fun h hr => hr.marks.trans h)
    fun _ => trivial) fun e o r hr => ?_
  obtain ⟨v₁, v₂, a, hA, hs, rfl, hgot⟩ := hr
  have hm₂ : marksOf i v₂.trace = l := by
    rw [hs.trace]
    exact hA
  cases a with
  | ok st =>
    obtain ⟨rfl, rfl⟩ := hgot
    obtain ⟨hk, sf, hsf, -⟩ := hs.sys
    exact ⟨v₂, rfl, hm₂, .inl ⟨le_refl _, by rw [hk, hsf]; rfl⟩⟩
  | error er =>
    obtain ⟨rfl, rfl, hne⟩ := hgot
    exact ⟨v₂, rfl, hm₂, .inr ⟨(by decide : (-1 : Int) < 0), hne⟩⟩

theorem loadBefore_closed {filename : Str} {rest : FileTime → ServerM ChangeResp}
    (hm : marksOf i v.trace = Mark.during c h none)
    (hrest : ∀ {t e v'}, v'.Has i (Mark.during c h none) (cStr filename) none →
      Closes root i c h ((rest t) e) v') :
    Closes root i c h ((FileOp.loadBefore filename before after rest) errno) v := by
  refine wp_returns (loadTime_closed hm) fun e o r hr => ?_
  obtain ⟨v', rfl, hm', hr⟩ := hr
  obtain ⟨err, time⟩ := r
  show Act.wp _ _ ((if _ then _ else _ : ServerM ChangeResp) e) (some v')
  obtain ⟨h0, hthere⟩ | ⟨h0, he⟩ := hr
  · rw [if_neg (not_lt.mpr h0)]
    exact hrest ⟨hm', hthere, fun _ _ ho => by cases ho⟩
  · rw [if_pos h0]
    exact returnErrno_closed hm' (fun _ hn => by cases hn) he

/-- The change is made, all of it. -/
theorem loadAfter_closed {filename : Str} (hm : marksOf i v.trace = Mark.during c h (some c.size)) :
    Closes root i c h ((FileOp.loadAfter filename before after) errno) v := by
  refine wp_returns (loadTime_closed hm) fun e o r hr => ?_
  obtain ⟨v', rfl, hm', hr⟩ := hr
  obtain ⟨err, time⟩ := r
  show Act.wp _ _ ((if _ then _ else _ : ServerM ChangeResp) e) (some v')
  obtain ⟨h0, -⟩ | ⟨h0, he⟩ := hr
  · rw [if_neg (not_lt.mpr h0)]
    exact ⟨v', _, rfl, hm', le_refl _, fun _ => rfl⟩
  · rw [if_pos h0]
    exact returnErrno_closed hm' (fun n hn => by cases hn; exact le_refl _) he

theorem truncate_closed {fpath : Str} {offset : Int} (hc : c = .truncate fpath offset before after)
    (hm : marksOf i v.trace = Mark.during c h none) :
    Closes root i c h ((FileOp.truncate root fpath offset before after) errno) v := by
  rw [FileOp.truncate]
  refine loadBefore_closed hm fun {t e v₁} hv => ?_
  have hfair : ∀ {v : Watch ι}, v.Has i (Mark.during c h none) (cStr (root ++ fpath)) none →
      v.Fair root i c (.truncate (cStr (root ++ fpath)) offset) := by
    intro v hv
    refine ⟨⟨h, hv.marks⟩, ?_⟩
    rw [hc]
    exact ⟨rfl, fun _ => rfl⟩
  refine wp_returns (sys_watched hv Watch.Has.rely hfair) fun e o r hr => ?_
  obtain ⟨v₁, v₂, a, hv, hs, rfl, hgot⟩ := hr
  cases a with
  | ok _ =>
    obtain ⟨rfl, rfl⟩ := hgot
    have hsize : c.size = 0 := by rw [hc]; rfl
    refine loadAfter_closed ?_
    rw [hsize]
    exact (hv.truncate hs).marks
  | error er =>
    obtain ⟨rfl, rfl, hne⟩ := hgot
    obtain rfl := hs.failed fun _ hq => by cases hq
    exact returnErrno_closed hv.marks (fun _ hn => by cases hn) hne

/-- Closing the descriptor. -/
theorem close_closed {o : Nat} {k : ServerM ChangeResp} (hv : v.Has i l p (some (fd, o)))
    (hk : ∀ {e v'}, v'.Has i l p none → (errno ≠ 0 → e ≠ 0) →
      Closes root i c h (k e) v') :
    Closes root i c h ((sys (.close fd) >>= fun _ => k) errno) v := by
  refine wp_returns (sys_watched hv Watch.Has.rely fun hv => (hv.opened fd o rfl).1) fun e o r hr => ?_
  obtain ⟨v₁, v₂, a, hv, hs, rfl, hgot⟩ := hr
  refine hk (hv.close hs) fun he => ?_
  cases a with
  | ok _ =>
    obtain ⟨-, rfl⟩ := hgot
    exact he
  | error er =>
    obtain ⟨-, rfl, hne⟩ := hgot
    exact hne

/-- Storing the bytes where the descriptor is, and closing it. -/
theorem store_closed {fpath : Str} {offset : Int} {buf : Bytes} {k : Option Nat → ServerM ChangeResp}
    (hc : c = .write fpath offset buf before after)
    (hv : v.Has i (Mark.during c h none) (cStr (root ++ fpath)) (some (fd, offset.toNat)))
    (hnone : ∀ {e v'}, marksOf i v'.trace = Mark.during c h none → e ≠ 0 →
      Closes root i c h (k none e) v')
    (hsome : ∀ {n e v'}, marksOf i v'.trace = Mark.during c h (some n) → n ≤ buf.length →
      Closes root i c h (k (some n) e) v') :
    Closes root i c h ((sys (.write fd buf) >>= fun n => sys (.close fd) >>= fun _ => k n) errno) v := by
  have hfair : ∀ {v : Watch ι}, v.Has i (Mark.during c h none) (cStr (root ++ fpath)) (some (fd, offset.toNat)) →
      v.Fair root i c (.write fd buf) := by
    intro v hv
    obtain ⟨hmine, hfd⟩ := hv.opened fd _ rfl
    refine ⟨⟨h, hv.marks⟩, hmine, offset.toNat, ?_, fun n => ?_⟩
    · rw [hfd, hc]
      rfl
    · rw [hc]
      rfl
  refine wp_returns (sys_watched hv Watch.Has.rely hfair) fun e o r hr => ?_
  obtain ⟨v₁, v₂, a, hv, hs, rfl, hgot⟩ := hr
  cases a with
  | error er =>
    obtain ⟨rfl, rfl, hne⟩ := hgot
    obtain rfl := hs.failed fun _ hq => by cases hq
    exact close_closed hv fun hv he => hnone hv.marks (he hne)
  | ok n =>
    obtain ⟨rfl, rfl⟩ := hgot
    obtain ⟨hv, hle⟩ := hv.write hs
    exact close_closed hv fun hv _ => hsome hv.marks hle

theorem write_closed {fpath : Str} {offset : Int} {buf : Bytes} (hc : c = .write fpath offset buf before after)
    (hseek : 0 ≤ offset → 0 ≤ toInt offset) (hm : marksOf i v.trace = Mark.during c h none) :
    Closes root i c h ((FileOp.write root fpath offset buf before after) errno) v := by
  rw [FileOp.write]
  refine loadBefore_closed hm fun {t e v₁} hv => ?_
  refine wp_returns (sys_watched hv Watch.Has.rely fun hv => hv.there) fun e o r hr => ?_
  obtain ⟨v₁, v₂, a, hv, hs, rfl, hgot⟩ := hr
  cases a with
  | error er =>
    obtain ⟨rfl, rfl, hne⟩ := hgot
    obtain rfl := hs.failed fun _ hq => by cases hq
    exact returnErrno_closed hv.marks (fun _ hn => by cases hn) hne
  | ok fd =>
    obtain ⟨rfl, rfl⟩ := hgot
    refine wp_returns (sys_watched (hv.openW hs) Watch.Has.rely fun hv => (hv.opened fd 0 rfl).1) fun e o r hr => ?_
    obtain ⟨v₁, v₂, a, hv, hs, rfl, hgot⟩ := hr
    show Act.wp _ _ ((if _ then _ else _ : ServerM ChangeResp) e) (some v₂)
    cases a with
    | error er =>
      obtain ⟨rfl, rfl, hne⟩ := hgot
      obtain rfl := hs.failed fun _ hq => by cases hq
      rw [if_pos (by decide : toInt ((none : Option Int).getD (-1)) < 0)]
      exact close_closed hv fun hv he => returnErrno_closed hv.marks (fun _ hn => by cases hn) (he hne)
    | ok pos =>
      obtain ⟨rfl, rfl⟩ := hgot
      obtain ⟨hv, h0, hpos⟩ := hv.lseek hs
      have hnot : ¬ toInt ((some pos).getD (-1)) < 0 := by
        rw [hpos]
        exact not_lt.mpr (hseek h0)
      rw [if_neg hnot]
      refine store_closed hc hv (fun hm he => returnErrno_closed hm (fun _ hn => by cases hn) he)
        fun {n e v'} hm hle => ?_
      have hsize : c.size = buf.length := by rw [hc]; rfl
      show Act.wp _ _ ((if _ then _ else _ : ServerM ChangeResp) e) (some v')
      by_cases hn : n < buf.length
      · rw [if_pos hn]
        exact ⟨v', some n, rfl, hm, hsize ▸ hle, fun h0 => absurd h0 (by decide : edquot ≠ 0)⟩
      · rw [if_neg hn]
        obtain rfl : n = c.size := by omega
        exact loadAfter_closed hm

theorem ChangeCall.run_closed (hseek : c.Seekable) (hm : marksOf i v.trace = Mark.during c h none) :
    Closes root i c h ((c.run root) errno) v := by
  cases c with
  | write fpath offset buf before after => exact write_closed rfl hseek hm
  | truncate fpath offset before after => exact truncate_closed rfl hm

end

end Nfs
