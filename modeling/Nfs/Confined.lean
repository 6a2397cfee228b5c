/-
What a responder uses of the host.

For a request the server names no paths but those of the request, and no
descriptors but those it has opened for it (`respond_confined`). This is said
of a function of `FileOp` by the descriptor it holds before it and after it
(`Careful`): it has at most one at a time.
-/
import Nfs.Isolation
import Nfs.Lib.Requests
import Nfs.Parts
import Nfs.ServerView

namespace Nfs

open PlainFile Resume

/-! ## Descriptors that are held -/

/-- The calls that close a descriptor. -/
def HostCall.shuts : HostCall → Bool
  | .sys (.close _) => true
  | .closedir _ => true
  | _ => false

namespace Kernel

variable {able : Prop} {k k' : Kernel} {c : HostCall} {a : c.Ans} {fd : Nat}

theorem shut_of_not_shuts (h : c.shuts = false) : k.shut c = k := by
  cases c with
  | sys c =>
    cases c with
    | close fd => cases h
    | _ => rfl
  | closedir dir => cases h
  | _ => rfl

theorem isSome_of_update {x : Str × Nat} (h : k'.fds = Function.update k.fds fd (some x)) : (k'.fds fd).isSome := by
  rw [h, Function.update_self]
  rfl

/-- What is used stays open. -/
theorem Does.used {v : c.Val} (h : k.Does able c v k') (hshut : c.shuts = false) (hused : c.fd = some fd)
    (hopen : (k.fds fd).isSome) : (k'.fds fd).isSome := by
  cases c with
  | sys c =>
    cases c with
    | lseek fd' offset =>
      cases hused
      obtain ⟨-, -, p, o, -, rfl⟩ := h
      exact isSome_of_update rfl
    | write fd' buf =>
      cases hused
      obtain ⟨⟨-, p, o, -, hfds, -⟩, -⟩ := h
      exact isSome_of_update hfds
    | close fd' => cases hshut
    | _ => cases hused
  | read fd' size =>
    cases hused
    obtain ⟨p, o, s, -, -, -, -, hfds, -⟩ := h
    exact isSome_of_update hfds
  | readdir dir =>
    rw [h.2.1]
    exact hopen
  | closedir dir => cases hshut
  | _ => cases hused

/-- What is open stays open until it is closed. -/
theorem Host.keeps (h : k.Host able c a k') (hshut : c.shuts = false) (hopen : (k.fds fd).isSome) :
    (k'.fds fd).isSome := by
  by_cases hused : c.fd = some fd
  · cases a with
    | ok v => exact Does.used h hshut hused hopen
    | error e =>
      rw [h.2.1, shut_of_not_shuts hshut]
      exact hopen
  · by_cases hnew : c.gets a = some fd
    · rw [h.gets_free hnew] at hopen
      cases hopen
    · rw [h.fds_other hused hnew]
      exact hopen

theorem Host.opens (h : k.Host able c a k') (hnew : c.gets a = some fd) : (k'.fds fd).isSome := by
  cases a with
  | error e =>
    cases c with
    | sys c => cases c <;> cases hnew
    | _ => cases hnew
  | ok v =>
    cases c with
    | sys c =>
      cases c with
      | openW p =>
        cases hnew
        exact isSome_of_update h.2.1
      | _ => cases hnew
    | openR p =>
      cases hnew
      exact isSome_of_update h.2.1.2
    | openT p =>
      cases hnew
      exact isSome_of_update h.1.2
    | opendir p =>
      cases hnew
      exact isSome_of_update h.2.1.2
    | _ => cases hnew

/-- The descriptor, if it is one, is open. -/
def HasOpen (k : Kernel) (held : Option Nat) : Prop := ∀ fd, held = some fd → (k.fds fd).isSome

end Kernel

/-! ## Programs -/

section
variable {F : Str → Prop} {able : Prop} {α β ρ : Type} {Ans : ρ → Type} {E : Env Int (Option Kernel) Ans}
  {held : Option Nat}

/-- A host that breaks at a call on what is not in `F` or not open. -/
abbrev fairEnv (F : Str → Prop) (able : Prop) : Env Int (Option Kernel) HostCall.Ans :=
  Env.solo (guard (Kernel.Host able) (Kernel.Fair F))

abbrev fairSysEnv (F : Str → Prop) (able : Prop) : Env Int (Option Kernel) SysCall.Ans :=
  (fairEnv F able).pull id HostCall.sys fun _ a => a

/-- With the descriptor `held` open, the program does not break the host; if it
returns, the descriptor it leaves is open. -/
def Careful (E : Env Int (Option Kernel) Ans) (held : Option Nat) (p : Prog Int Ans α) (left : α → Option Nat) : Prop :=
  ∀ errno k, k.HasOpen held →
    (p errno).wp E (fun _ o r => ∃ k', o = some k' ∧ ∀ a, r = .ok a → k'.HasOpen (left a)) (some k)

theorem careful_pure {a : α} : Careful E held (pure a) fun _ => held := by
  intro errno k hk
  exact ⟨k, rfl, fun _ _ => hk⟩

theorem careful_get : Careful E held Prog.get fun _ => held := by
  intro errno k hk
  exact ⟨k, rfl, fun _ _ => hk⟩

theorem careful_set {e : Int} : Careful E held (Prog.set e) fun _ => held := by
  intro errno k hk
  exact ⟨k, rfl, fun _ _ => hk⟩

theorem careful_assert {P : Prop} [Decidable P] : Careful E held (Prog.assert P) fun _ => held := by
  intro errno k hk
  by_cases hP : P
  · rw [Prog.assert_pos hP]
    exact ⟨k, rfl, fun _ _ => hk⟩
  · rw [Prog.assert_neg hP]
    exact ⟨k, rfl, fun _ hr => by cases hr⟩

theorem Careful.bind {p : Prog Int Ans α} {f : α → Prog Int Ans β} {mid : α → Option Nat} {left : β → Option Nat}
    (h : Careful E held p mid) (hf : ∀ a, Careful E (mid a) (f a) left) : Careful E held (p >>= f) left := by
  intro errno k hk
  refine wp_seq (h errno k hk) ?_ ?_ ?_
  · intro s o a hQ
    obtain ⟨k', rfl, hopen⟩ := hQ
    exact hf a s k' (hopen a rfl)
  · intro s o e hQ
    obtain ⟨k', rfl, -⟩ := hQ
    exact ⟨k', rfl, fun _ hr => by cases hr⟩
  · intro s o hQ
    obtain ⟨k', rfl, -⟩ := hQ
    exact ⟨k', rfl, fun _ hr => by cases hr⟩

/-- It returns `errno`. -/
theorem careful_errno {f : Int → α} : Careful E held (Prog.get >>= fun e => pure (f e)) fun _ => held :=
  careful_get.bind fun _ => careful_pure

theorem Careful.onHost {p : ServerM α} {left : α → Option Nat} (h : Careful (fairSysEnv F able) held p left) :
    Careful (fairEnv F able) held (onHost p) left := fun errno k hk => onHost_wp.mpr (h errno k hk)

/-! ## Calls -/

/-- **A call** that is fair, whatever is left open by it. -/
theorem careful_host {c : HostCall} {left : Option c.Val → Option Nat} (hpaths : ∀ p ∈ c.paths, F p)
    (hfd : ∀ fd, c.fd = some fd → held = some fd)
    (hleft : ∀ {k : Kernel} {a : c.Ans} {k' : Kernel}, k.HasOpen held → k.Host able c a k' →
      k'.HasOpen (left a.toOption)) :
    Careful (fairEnv F able) held (host c) left := by
  intro errno k hk
  have hfair : k.Fair F c := ⟨hpaths, fun fd h => hk fd (hfd fd h)⟩
  refine ⟨trivial, fun o₁ ho a o₂ hs => ?_⟩
  cases ho
  obtain ⟨k', rfl, hc⟩ := guard_step hs hfair
  have hopen := hleft hk hc
  cases a with
  | ok v =>
    refine ⟨k', rfl, fun r hr => ?_⟩
    cases hr
    exact hopen
  | error e =>
    refine ⟨k', rfl, fun r hr => ?_⟩
    cases hr
    exact hopen

theorem careful_call (c : HostCall) (hpaths : ∀ p ∈ c.paths, F p) (hfd : ∀ fd, c.fd = some fd → held = some fd)
    (hshut : c.shuts = false) : Careful (fairEnv F able) held (host c) fun _ => held :=
  careful_host hpaths hfd fun hk hc fd h => hc.keeps hshut (hk fd h)

/-- The descriptor is used. -/
theorem careful_use (c : HostCall) (hpaths : c.paths = []) (hfd : c.fd = held) (hshut : c.shuts = false) :
    Careful (fairEnv F able) held (host c) fun _ => held := by
  refine careful_call c (fun p hp => ?_) (fun fd h => hfd.symm.trans h) hshut
  rw [hpaths] at hp
  cases hp

theorem careful_close (c : HostCall) (hpaths : c.paths = []) (hfd : c.fd = held) :
    Careful (fairEnv F able) held (host c) fun _ => none := by
  refine careful_host (fun p hp => ?_) (fun fd h => hfd.symm.trans h) fun _ _ _ h => by cases h
  rw [hpaths] at hp
  cases hp

/-- The descriptor that it returns is open. -/
theorem careful_open (c : HostCall) {l : Option c.Val → Option Nat} (hpaths : ∀ p ∈ c.paths, F p) (hnone : c.fd = none)
    (hgets : ∀ a : c.Ans, l a.toOption = c.gets a) : Careful (fairEnv F able) held (host c) l := by
  refine careful_host hpaths (fun fd h => ?_) fun _ hc fd h => hc.opens ((hgets _).symm.trans h)
  rw [hnone] at h
  cases h

theorem Careful.sys {c : SysCall} {left : Option c.Val → Option Nat}
    (h : Careful (fairEnv F able) held (host (.sys c)) left) : Careful (fairSysEnv F able) held (sys c) left :=
  fun errno k hk => onHost_call.mpr (h errno k hk)

/-! ## The functions -/

theorem one_path {p : Str} (hp : F p) : ∀ q ∈ [p], F q := fun _ hq => List.mem_singleton.mp hq ▸ hp

theorem no_fd {c : HostCall} (h : c.fd = none) : ∀ fd, c.fd = some fd → held = some fd := by
  intro fd hfd
  rw [h] at hfd
  cases hfd

theorem loadTime_careful {fname : Str} {time : FileTime} (hp : F (cStr fname)) :
    Careful (fairSysEnv F able) held (loadTime fname time) fun _ => held := by
  refine (careful_call (.sys (.stat (cStr fname))) (one_path hp) (no_fd rfl) rfl).sys.bind fun st => ?_
  cases st with
  | none => exact careful_pure
  | some st => exact careful_pure

namespace FileOp

variable {root fpath : Str}

theorem access_careful {time : FileTime} (hp : F (cStr (root ++ fpath))) :
    Careful (fairEnv F able) held (access root fpath time) fun _ => held := by
  refine (careful_call (.access _) (one_path hp) (no_fd rfl) rfl).bind fun v => ?_
  cases v with
  | none => exact careful_errno
  | some _ =>
    refine (loadTime_careful hp).onHost.bind fun x => ?_
    obtain ⟨err, time⟩ := x
    show Careful _ _ (if err < 0 then _ else _) _
    split
    · exact careful_errno
    · exact careful_pure

theorem stat_careful {stbuf : StatBuf} (hp : F (cStr (root ++ fpath))) :
    Careful (fairEnv F able) held (stat root fpath stbuf) fun _ => held := by
  refine (careful_call (.sys (.stat _)) (one_path hp) (no_fd rfl) rfl).bind fun v => ?_
  cases v with
  | none => exact careful_errno
  | some _ => exact careful_pure

theorem statfs_careful {st : FsStat} : Careful (fairEnv F able) held (statfs root st) fun _ => held := by
  refine (careful_call (.statvfs _) (fun p hp => by cases hp) (no_fd rfl) rfl).bind fun v => ?_
  cases v with
  | none => exact careful_errno
  | some _ => exact careful_pure

theorem plainly_careful {c : HostCall} (hpaths : ∀ p ∈ c.paths, F p) (hnone : c.fd = none) (hshut : c.shuts = false) :
    Careful (fairEnv F able) held (plainly c) fun _ => held := by
  refine (careful_call c hpaths (no_fd hnone) hshut).bind fun v => ?_
  cases v with
  | none => exact careful_get
  | some _ => exact careful_pure

theorem creat_careful (hp : F (cStr (root ++ fpath))) :
    Careful (fairEnv F able) none (creat root fpath) fun _ => none := by
  refine (careful_open (.openT _) (l := id) (one_path hp) rfl fun a => by cases a <;> rfl).bind fun fd => ?_
  cases fd with
  | none => exact careful_get
  | some fd => exact (careful_close (.sys (.close fd)) rfl rfl).bind fun _ => careful_pure

theorem readdir_careful (hp : F (cStr (root ++ fpath))) :
    Careful (fairEnv F able) none (readdir root fpath) fun _ => none := by
  refine (careful_open (.opendir _) (l := id) (one_path hp) rfl fun a => by cases a <;> rfl).bind fun dirs => ?_
  cases dirs with
  | none => exact careful_errno
  | some dirs =>
    refine careful_set.bind fun _ => ?_
    refine (careful_use (.readdir dirs) rfl rfl rfl).bind fun listing => ?_
    have hend : ∀ names : List Str, Careful (fairEnv F able) (some dirs) (do
        let _ ← host (.closedir dirs)
        pure (← Prog.get, names)) fun _ => none :=
      fun names => (careful_close (.closedir dirs) rfl rfl).bind fun _ => careful_errno
    cases listing with
    | none => exact careful_pure.bind hend
    | some listing =>
      cases herr : listing.error with
      | none =>
        simp only [herr]
        exact careful_pure.bind hend
      | some e =>
        simp only [herr]
        exact careful_set.bind fun _ => careful_pure.bind hend

/-- Each round uses the descriptor. -/
theorem readLoop_careful {fd size : Nat} : ∀ {rounds : Nat} {readSize : Int} {buf : Bytes},
    Careful (fairEnv F able) (some fd) (readLoop fd size rounds readSize buf) fun _ => some fd
  | 0, _, _ => careful_pure
  | rounds + 1, readSize, buf => by
    rw [readLoop]
    split
    · refine (careful_use (.read fd _) rfl rfl rfl).bind fun got => ?_
      cases got with
      | none => exact careful_pure
      | some got =>
        show Careful _ _ (if got.1.length ≤ 0 then _ else _) _
        split
        · exact careful_pure
        · exact readLoop_careful
    · exact careful_pure

theorem read_careful {offset : Int} {size : Nat} (hp : F (cStr (root ++ fpath))) :
    Careful (fairEnv F able) none (read root fpath offset size) fun _ => none := by
  refine (careful_open (.openR _) (l := id) (one_path hp) rfl fun a => by cases a <;> rfl).bind fun fd => ?_
  cases fd with
  | none => exact careful_errno
  | some fd =>
    have hclose : Careful (fairEnv F able) (some fd) (host (.sys (.close fd))) fun _ => none :=
      careful_close (.sys (.close fd)) rfl rfl
    refine (careful_use (.sys (.lseek fd offset)) rfl rfl rfl).bind fun pos => ?_
    show Careful _ _ (if toInt (pos.getD (-1)) < 0 then _ else _) _
    split
    · exact hclose.bind fun _ => careful_errno
    · refine readLoop_careful.bind fun x => careful_assert.bind fun _ => hclose.bind fun _ => ?_
      obtain ⟨readSize, buf⟩ := x
      show Careful _ _ (if readSize ≥ 0 then _ else _) _
      split
      · exact careful_pure
      · exact careful_errno

theorem returnErrno_careful {before after : FileTime} :
    Careful (fairSysEnv F able) held (returnErrno before after) fun _ => held := careful_errno

theorem loadBefore_careful {filename : Str} {before after : FileTime} {rest : FileTime → ServerM ChangeResp}
    (hp : F (cStr filename)) (hrest : ∀ t, Careful (fairSysEnv F able) none (rest t) fun _ => none) :
    Careful (fairSysEnv F able) none (loadBefore filename before after rest) fun _ => none := by
  refine (loadTime_careful hp).bind fun x => ?_
  obtain ⟨err, t⟩ := x
  show Careful _ _ (if err < 0 then _ else _) _
  split
  · exact returnErrno_careful
  · exact hrest t

theorem loadAfter_careful {filename : Str} {before after : FileTime} (hp : F (cStr filename)) :
    Careful (fairSysEnv F able) held (loadAfter filename before after) fun _ => held := by
  refine (loadTime_careful hp).bind fun x => ?_
  obtain ⟨err, t⟩ := x
  show Careful _ _ (if err < 0 then _ else _) _
  split
  · exact returnErrno_careful
  · exact careful_pure

theorem write_careful {offset : Int} {buf : Bytes} {before after : FileTime} (hp : F (cStr (root ++ fpath))) :
    Careful (fairSysEnv F able) none (write root fpath offset buf before after) fun _ => none := by
  unfold write
  refine loadBefore_careful hp fun t => ?_
  refine (careful_open (.sys (.openW _)) (l := id) (one_path hp) rfl fun a => by cases a <;> rfl).sys.bind fun fd => ?_
  cases fd with
  | none => exact returnErrno_careful
  | some fd =>
    have hclose : Careful (fairSysEnv F able) (some fd) (sys (.close fd)) fun _ => none :=
      (careful_close (.sys (.close fd)) rfl rfl).sys
    refine (careful_use (.sys (.lseek fd offset)) rfl rfl rfl).sys.bind fun pos => ?_
    show Careful _ _ (if toInt (pos.getD (-1)) < 0 then _ else _) _
    split
    · exact hclose.bind fun _ => returnErrno_careful
    · refine (careful_use (.sys (.write fd buf)) rfl rfl rfl).sys.bind fun n => hclose.bind fun _ => ?_
      cases n with
      | none => exact returnErrno_careful
      | some n =>
        show Careful _ _ (if n < buf.length then _ else _) _
        split
        · exact careful_pure
        · exact loadAfter_careful hp

theorem truncate_careful {offset : Int} {before after : FileTime} (hp : F (cStr (root ++ fpath))) :
    Careful (fairSysEnv F able) none (truncate root fpath offset before after) fun _ => none := by
  unfold truncate
  refine loadBefore_careful hp fun t => ?_
  refine (careful_call (.sys (.truncate _ _)) (one_path hp) (no_fd rfl) rfl).sys.bind fun r => ?_
  cases r with
  | none => exact returnErrno_careful
  | some _ => exact loadAfter_careful hp

end FileOp

/-! ## The responders -/

/-- The calls of a responder, as it makes them. -/
def OpFair (F : Str → Prop) (k : Kernel) (q : OpReq) : Prop := ∀ c, q = .host c → k.Fair F c

theorem Careful.issues {p : HostM α} {l : α → Option Nat} (h : Careful (fairEnv F able) none p l) (errno : Int)
    (k : Kernel) : ((onOp p) errno).Issues (HostServe (Kernel.Host able)) (OpFair F) k := by
  have hp : (p errno).Issues (Kernel.Host able) (Kernel.Fair F) k := by
    refine ((h errno k fun _ hfd => by cases hfd).issues (fun c => ⟨.error 0⟩) fun s o hQ => ?_).1
    obtain ⟨k', hk, -⟩ := hQ
    cases hk
  refine hp.lift (fun hs => hs) ?_
  intro k c hc c' hc'
  cases hc'
  exact hc

theorem uninit_issues {f : Uninit → OpM α} {errno : Int} {k : Kernel}
    (h : ∀ junk, (f junk errno).Issues (HostServe (Kernel.Host able)) (OpFair F) k) :
    ((uninit >>= f) errno).Issues (HostServe (Kernel.Host able)) (OpFair F) k := by
  refine ⟨fun c hc => OpReq.noConfusion hc, fun junk k' hs => ?_⟩
  cases hs
  exact h junk

theorem assert_issues {P : Prop} [Decidable P] {p : OpM α} {errno : Int} {k : Kernel}
    (h : (p errno).Issues (HostServe (Kernel.Host able)) (OpFair F) k) :
    ((Prog.assert P >>= fun _ => p) errno).Issues (HostServe (Kernel.Host able)) (OpFair F) k := by
  by_cases hP : P
  · rw [Prog.assert_pos hP]
    exact h
  · rw [Prog.assert_neg hP]
    trivial

/-- A function of `FileOp` does all the work. -/
theorem Careful.responds {p : HostM α} {l : α → Option Nat} {f : α → Msg} (h : Careful (fairEnv F able) none p l)
    (errno : Int) (k : Kernel) :
    ((onOp p >>= fun a => pure (f a)) errno).Issues (HostServe (Kernel.Host able)) (OpFair F) k :=
  (h.issues errno k).bind fun _ _ _ => trivial

/-- **A responder** keeps to the paths of its request and to descriptors of its
own. -/
theorem respond_confined {r : Req} (hr : ∀ f, r.Names f → F (cStr (nfsRoot ++ f))) (id : Int32) (errno : Int)
    (k : Kernel) : (respond nfsRoot (r.msg id) errno).Issues (HostServe (Kernel.Host able)) (OpFair F) k := by
  cases r with
  | access f => exact uninit_issues fun _ => (FileOp.access_careful (hr f rfl)).responds errno k
  | create f => exact (FileOp.creat_careful (hr f rfl)).responds errno k
  | stat f => exact uninit_issues fun _ => (FileOp.stat_careful (hr f rfl)).responds errno k
  | statfs => exact uninit_issues fun _ => FileOp.statfs_careful.responds errno k
  | readdir f => exact (FileOp.readdir_careful (hr f rfl)).responds errno k
  | read f offset size => exact (FileOp.read_careful (hr f rfl)).responds errno k
  | write f offset data =>
    refine assert_issues ?_
    exact uninit_issues fun _ => (FileOp.write_careful (hr f rfl)).onHost.responds errno k
  | truncate f offset => exact uninit_issues fun _ => (FileOp.truncate_careful (hr f rfl)).onHost.responds errno k
  | unlink f => exact (FileOp.plainly_careful (c := .unlink _) (one_path (hr f rfl)) rfl rfl).responds errno k
  | rmdir f => exact (FileOp.plainly_careful (c := .rmdir _) (one_path (hr f rfl)) rfl rfl).responds errno k
  | mkdir f mode => exact (FileOp.plainly_careful (c := .mkdir _ _) (one_path (hr f rfl)) rfl rfl).responds errno k
  | rename f g flags =>
    refine (FileOp.plainly_careful (c := .rename _ _) (fun p hp => ?_) rfl rfl).responds errno k
    obtain rfl | hp := List.mem_cons.mp hp
    · exact hr f (.inl rfl)
    · exact one_path (hr g (.inr rfl)) p hp

end

end Nfs
