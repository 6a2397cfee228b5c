/-
Clients that have paths of their own.

Several programs are mounted over one server. Each keeps to paths of its own,
and what is below one of its paths is its own too. Then none of them notices
the others: what it sees is the disk it would see if it were alone, although
the system calls made for all of them interleave on one kernel.

The kernel falls apart into pieces (`Apart`), one for each client, of which a
call changes only that of the client it is made for. So each session is one
over its own piece (`Views.split`), and what `Nfs.Stack` says of a client that
is alone holds for it. Directories are in no piece: nothing is said about
what is in one that several clients can see.
-/
import Nfs.Confined
import Nfs.Network
import Nfs.Stack

namespace Nfs

open PlainFile Resume

-- As in `Nfs.Connection`.
seal toInt

/-! ## Pieces of one kernel -/

section
variable {ι : Type} [DecidableEq ι] {F : ι → Str → Prop} {k k' : Kernel} {l : ι → Kernel} {able : Prop}

/-- The pieces have no file and no descriptor in common. -/
structure Apart (F : ι → Str → Prop) (k : Kernel) (l : ι → Kernel) : Prop where
  piece : ∀ i, Piece (F i) k (l i)
  fds : ∀ {i j fd}, i ≠ j → ((l i).fds fd).isSome → (l j).fds fd = none

/-- The paths of the clients. -/
structure Owned (F : ι → Str → Prop) : Prop where
  below : ∀ {i p x}, F i p → Under p x → F i x
  apart : ∀ {i j p}, i ≠ j → F i p → ¬ F j p

/-- **A call** that is fair to its own piece is one on this piece, and leaves
the others alone. -/
theorem Apart.step {i : ι} {c : HostCall} {a : c.Ans} (hF : Owned F) (h : Apart F k l) (hf : (l i).Fair (F i) c)
    (hc : k.Host able c a k') : ∃ l', (l i).Host able c a l' ∧ Apart F k' (Function.update l i l') := by
  obtain ⟨l', hl', hpiece⟩ := (h.piece i).step hF.below hf hc
  -- What is open in the new piece was so before, or was open nowhere.
  have hnew : ∀ {j fd}, j ≠ i → (l'.fds fd).isSome → (l j).fds fd = none := by
    intro j fd hj hfd
    obtain hold | hfree := Piece.fds_step hl' hf hc hfd
    · exact h.fds (Ne.symm hj) hold
    · exact (h.piece j).free hfree
  refine ⟨l', hl', fun j => ?_, fun {j j' fd} hne hfd => ?_⟩
  · by_cases hj : j = i
    · subst hj
      rw [Function.update_self]
      exact hpiece
    · rw [Function.update_of_ne hj]
      exact Piece.frame hF.below hF.below (fun p => hF.apart (Ne.symm hj)) (h.piece i) hf (h.piece j)
        (fun fd => h.fds (Ne.symm hj)) hc
  · by_cases hj : j = i
    · subst hj
      rw [Function.update_self] at hfd
      rw [Function.update_of_ne (Ne.symm hne)]
      exact hnew (Ne.symm hne) hfd
    · rw [Function.update_of_ne hj] at hfd
      by_cases hj' : j' = i
      · subst hj'
        rw [Function.update_self]
        by_contra hsome
        rw [hnew hj (Option.isSome_iff_ne_none.mpr hsome)] at hfd
        cases hfd
      · rw [Function.update_of_ne hj']
        exact h.fds hne hfd

/-- Each client sees its piece. -/
def Views.pieces (able : Prop) (hF : Owned F) : Views ι Kernel Kernel (Kernel.Host able) where
  call _ := Kernel.Host able
  sees := Apart F
  may i l c := l.Fair (F i) c
  step h hf hc := h.step hF hf hc

/-- A piece with nothing open. -/
noncomputable def Kernel.cut (F : Str → Prop) (k : Kernel) : Kernel :=
  { fs := Server.within F k.fs k.fs, fds := fun _ => none }

theorem Server.Part.self {F : Str → Prop} {w : Server} : Server.Part F w (Server.within F w w) := by
  refine ⟨fun p hp => Server.within_files hp, fun p hp => Server.within_none hp, fun p t ht => ?_⟩
  obtain ht | ⟨s, -, hs, rfl⟩ := ht
  · exact ht
  · exact w.own hs

omit [DecidableEq ι] in
theorem apart_cut : Apart F k fun i => k.cut (F i) :=
  ⟨fun _ => ⟨.self, fun _ _ _ h => by cases h⟩, fun _ h => by cases h⟩

end

/-! ## Files of one client -/

/-- The paths on the server that are a client's. -/
def Tree.Owns (T : Tree) (p : Str) : Prop := ∃ f, p = nfsRoot ++ f ∧ T.mine f

theorem Tree.owns_iff {T : Tree} {f : Str} : T.Owns (nfsRoot ++ f) ↔ T.mine f := by
  constructor
  · intro h
    obtain ⟨g, hg, hm⟩ := h
    rw [List.append_cancel_left hg]
    exact hm
  · exact fun h => ⟨f, rfl, h⟩

open Classical in
/-- What is a client's of the server's files, all of it sent. -/
noncomputable def Disk.own (T : Tree) (w : Server) : Disk :=
  { files := fun f => if T.mine f then w.content f else none, unsent := fun _ => False }

theorem Disk.of_cut {T : Tree} {k : Kernel} : Disk.of (k.cut T.Owns).view = Disk.own T k.view := by
  have hfiles : (k.cut T.Owns).view.content = (Disk.own T k.view).files := by
    funext f
    by_cases hm : T.mine f
    · have hown : (k.cut T.Owns).fs.files (nfsRoot ++ f) = k.fs.files (nfsRoot ++ f) :=
        Server.within_files (Tree.owns_iff.mpr hm)
      exact (congrArg (Option.map _) hown).trans (if_pos hm).symm
    · have hnone : (k.cut T.Owns).fs.files (nfsRoot ++ f) = none :=
        Server.within_none fun h => hm (Tree.owns_iff.mp h)
      exact (congrArg (Option.map _) hnone).trans (if_neg hm).symm
  rw [Disk.of, hfiles]
  rfl

theorem Req.Proper.nonzero {r : Req} {f : Str} (h : r.Proper) (hf : r.Names f) : 0 ∉ f := by
  cases r with
  | statfs => exact hf.elim
  | rename g g' flags => exact hf.elim (fun heq => heq ▸ h.1) fun heq => heq ▸ h.2
  | read | write | truncate => exact hf ▸ h.1
  | _ => exact hf ▸ h

/-- The requests of a client only make calls on what is its own. -/
theorem Req.Good.confined {T : Tree} {r : Req} {able : Prop} (h : r.Good T) (id : Int32) (errno : Int) (k : Kernel) :
    (respond nfsRoot (r.msg id) errno).Issues (HostServe (Kernel.Host able)) (OpFair T.Owns) k := by
  refine respond_confined (fun f hf => ?_) id errno k
  rw [cStr_eq (h.proper.nonzero hf)]
  exact Tree.owns_iff.mpr (h.mine f hf)

/-- The trees of clients that have paths of their own. -/
structure Trees {ι : Type} (T : ι → Tree) : Prop where
  below : ∀ {i f x}, (T i).mine f → Under f x → (T i).mine x
  apart : ∀ {i j f}, i ≠ j → (T i).mine f → ¬ (T j).mine f

theorem Trees.owned {ι : Type} {T : ι → Tree} (h : Trees T) : Owned fun i => (T i).Owns := by
  refine ⟨fun {i p x} hp hx => ?_, fun {i j p} hne hp hp' => ?_⟩
  · obtain ⟨f, rfl, hm⟩ := hp
    obtain ⟨y, hy, rfl⟩ := hx
    exact ⟨f ++ y, List.append_assoc .., h.below hm ⟨y, hy, rfl⟩⟩
  · obtain ⟨f, rfl, hm⟩ := hp
    exact h.apart hne hm (Tree.owns_iff.mp hp')

/-! ## Two clients with a file each -/

theorem Under.trans {p q x : Str} (h : Under p q) (h' : Under q x) : Under p x := by
  obtain ⟨y, hy, rfl⟩ := h
  obtain ⟨z, hz, rfl⟩ := h'
  refine ⟨y ++ z, ?_, List.append_assoc ..⟩
  obtain rfl | ⟨y, rfl⟩ := hy
  · exact hz
  · exact .inr ⟨y ++ z, rfl⟩

def ownFile (i : Bool) : Str := [47, if i then 102 else 103]

/-- Everything that is at its file or below. -/
def ownTree (i : Bool) : Tree := { dirs := fun x => x = [], mine := Under (ownFile i) }

theorem trees_ownTree : Trees ownTree := by
  refine ⟨fun h h' => h.trans h', fun {i j f} hne h h' => ?_⟩
  obtain ⟨y, -, rfl⟩ := h
  obtain ⟨z, -, hz⟩ := h'
  have hhead := congrArg (fun x : Str => x[1]?) hz
  cases i <;> cases j <;> simp [ownFile] at hne hhead

def bothFiles : Kernel :=
  { Kernel.holding [47, 102] [1, 2, 3] with
    fs := (Kernel.holding [47, 102] [1, 2, 3]).fs.store (nfsRoot ++ [47, 103])
      { content := [4, 5], mode := 0, time := .epoch } }

theorem bothFiles_ticking : bothFiles.Ticking := by
  have hstamp : ∀ {p t}, bothFiles.fs.had p t → t = FileTime.epoch.stamp := by
    intro p t ht
    obtain ⟨-, ht⟩ | ⟨-, ht⟩ := ht
    · exact ht
    · exact ht
  exact Server.Ticking.of_unchanged (w := bothFiles.fs) fun _ _ _ h h' => (hstamp h).trans (hstamp h').symm

theorem length_bothFiles {f : Str} {l : Bytes} (h : bothFiles.view.content f = some l) : l.length ≤ 4 := by
  obtain ⟨s, hs, rfl⟩ := Option.map_eq_some_iff.mp h
  have hs : Function.update (Kernel.holding [47, 102] [1, 2, 3]).fs.files (nfsRoot ++ [47, 103])
      (some { content := [4, 5], mode := 0, time := .epoch }) (nfsRoot ++ f) = some s := hs
  by_cases hf : nfsRoot ++ f = nfsRoot ++ [47, 103]
  · rw [hf, Function.update_self] at hs
    cases hs
    decide
  · rw [Function.update_of_ne hf] at hs
    obtain ⟨-, hs⟩ := Option.ite_none_right_eq_some.mp hs
    cases hs
    decide

def twoMounts : Network Bool Kernel (NetFS × Outcome (Unit × Outcome (Int × Bytes))) :=
  (Network.start (fun i => mounted (smallCache i) (overwrite (ownFile i) ()) .new) (fun _ => 0) bothFiles).after
    Kernel.hostAnswer 64 (inTurn 200)

theorem twoMounts_reach : (Network.start (fun i => mounted (smallCache i) (overwrite (ownFile i) ()) .new) (fun _ => 0)
    bothFiles).Reach (Kernel.Host True) 64 twoMounts :=
  Network.reach_after (fun hk h => Kernel.host_hostAnswer hk h) _ (inTurn 200) bothFiles_ticking .start

/-- What they read in the end. -/
def readBack (i : Bool) : Int × Bytes := if i then (3, [1, 9, 3]) else (2, [4, 9])

/-! ## Result -/

end Nfs
