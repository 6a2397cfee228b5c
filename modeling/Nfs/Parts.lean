/-
The part of a file system that is one client's.

A client that keeps to paths of its own has a part of the kernel: the files
at these paths, and the descriptors that are open on them (`Piece`). What a
call does to the kernel it also does to the part, as if there were nothing
else (`Piece.step`), and it leaves the parts of the others alone
(`Piece.frame`). What makes this true is that a call only reaches the paths
it names or has open, those below them and the directories above them, and
that a descriptor is new when it is opened.

Directories above the paths of several clients belong to none of them.
-/
import Nfs.HostRules

namespace Nfs

open PlainFile Resume

/-! ## A part of the files -/

namespace Server

variable {F : Str → Prop} {v v' w w' : Server} {p q x : Str}

open Classical in
/-- What `F` selects of `w`, after `v`. -/
noncomputable def within (F : Str → Prop) (v w : Server) : Server where
  files p := if F p then w.files p else none
  had p t := v.had p t ∨ ∃ s, F p ∧ w.files p = some s ∧ s.time.stamp = t
  own {p s} h := by
    obtain ⟨hp, hs⟩ := Option.ite_none_right_eq_some.mp h
    exact .inr ⟨s, hp, hs, rfl⟩

theorem within_files (hp : F p) : (within F v w).files p = w.files p := by
  unfold within
  exact if_pos hp

theorem within_none (hp : ¬ F p) : (within F v w).files p = none := by
  unfold within
  exact if_neg hp

/-- `v` is what `F` selects of `w`. It may not know of stamps that a path of
its own has had. -/
structure Part (F : Str → Prop) (w v : Server) : Prop where
  files : ∀ p, F p → v.files p = w.files p
  none : ∀ p, ¬ F p → v.files p = none
  had : ∀ p t, v.had p t → w.had p t

namespace Part

theorem mem {s : SFile} (h : Part F w v) (hs : v.files p = some s) : F p ∧ w.files p = some s := by
  by_cases hp : F p
  · exact ⟨hp, (h.files p hp).symm.trans hs⟩
  · rw [h.none p hp] at hs
    cases hs

theorem within (h : Part F w v) (he : w.Evolves w') : Part F w' (within F v w') := by
  refine ⟨fun p hp => within_files hp, fun p hp => within_none hp, fun p t ht => ?_⟩
  obtain ht | ⟨s, -, hs, rfl⟩ := ht
  · exact (he p).1 t (h.had p t ht)
  · exact w'.own hs

theorem evolves (h : Part F w v) (he : w.Evolves w') : v.Evolves (Server.within F v w') := by
  intro p
  refine ⟨fun t ht => .inl ht, fun s' hs' hh => ?_⟩
  obtain ⟨hp, hs'⟩ := (h.within he).mem hs'
  obtain ⟨s, hs, hc, ht⟩ := (he p).2 s' hs' (h.had p _ hh)
  exact ⟨s, (h.files p hp).trans hs, hc, ht⟩

/-- What is the same in the whole is the same in the part. -/
theorem same (h : Part F w v) (hx : w'.files x = w.files x) : (Server.within F v w').files x = v.files x := by
  by_cases hF : F x
  · rw [within_files hF, hx, h.files x hF]
  · rw [within_none hF, h.none x hF]

theorem peek (h : Part F w v) (hp : F p) (hw : w.Peek p w') : v.Peek p (Server.within F v w') := by
  obtain ⟨hhad, ho, t, hf⟩ := hw
  refine ⟨?_, fun x hx => h.same (ho x hx), t, by rw [within_files hp, hf, h.files p hp]⟩
  funext x u
  refine propext ⟨fun hu => ?_, .inl⟩
  obtain hu | ⟨s, hx, hs, rfl⟩ := hu
  · exact hu
  · by_cases hxp : x = p
    · subst hxp
      rw [hf, ← h.files x hp] at hs
      obtain ⟨s₀, hs₀, rfl⟩ := Option.map_eq_some_iff.mp hs
      have hown := v.own hs₀
      exact hown
    · rw [ho x hxp, ← h.files x hx] at hs
      exact v.own hs

theorem put {s' : SFile} (h : Part F w v) (hp : F p) (hw : w.Put p s' w') : v.Put p s' (Server.within F v w') := by
  obtain ⟨ho, hf, -, hnew⟩ := hw
  refine ⟨fun x hx => h.same (ho x hx), by rw [within_files hp, hf], fun x t => ?_, ?_⟩
  · refine or_congr_right' fun hno => ⟨fun hs => ?_, fun hs => ?_⟩
    · obtain ⟨s, hx, hs, rfl⟩ := hs
      by_cases hxp : x = p
      · subst hxp
        cases hf.symm.trans hs
        exact ⟨rfl, rfl⟩
      · rw [ho x hxp, ← h.files x hx] at hs
        exact absurd (v.own hs) hno
    · obtain ⟨rfl, rfl⟩ := hs
      exact ⟨s', hp, hf, rfl⟩
  · obtain hno | ⟨s, hs, hc, ht⟩ := hnew
    · exact .inl fun hh => hno (h.had p _ hh)
    · exact .inr ⟨s, (h.files p hp).trans hs, hc, ht⟩

theorem change {u : Bytes → Bytes} {s s' : SFile} (h : Part F w v) (hp : F p) (hw : w.Change p u s s' w') :
    v.Change p u s s' (Server.within F v w') :=
  ⟨(h.files p hp).trans hw.1, h.put hp hw.2.1, hw.2.2⟩

theorem relink (h : Part F w v) (hw : w.Relink p w') : v.Relink p (Server.within F v w') :=
  ⟨h.evolves hw.evolves, fun x hx ha => h.same (hw.other x hx ha)⟩

theorem move (h : Part F w v) (hF : ∀ {p x}, F p → Under p x → F x) (hp : F p) (hq : F q) (hw : w.Move p q w') :
    v.Move p q (Server.within F v w') := by
  have hbelow : ∀ {r : Str} (y : Str), F r → Tail y → F (r ++ y) := fun y hr hy => hF hr ⟨y, hy, rfl⟩
  refine ⟨by rw [h.files p hp]; exact hw.was, h.evolves hw.evolves, ⟨fun y hy => ?_, hw.moved.apart⟩,
    fun hne y hy => ?_, fun x h₁ h₂ h₃ h₄ => h.same (hw.other x h₁ h₂ h₃ h₄)⟩
  · rw [content, content, within_files (hbelow y hq hy), h.files _ (hbelow y hp hy)]
    exact hw.moved.content y hy
  · rw [within_files (hbelow y hp hy)]
    exact hw.gone hne y hy

/-- Something else has changed. -/
theorem foreign (h : Part F w v) (he : w.Evolves w') (hsame : ∀ x, F x → w'.files x = w.files x) : Part F w' v :=
  ⟨fun x hx => (h.files x hx).trans (hsame x hx).symm, h.none, fun x t ht => (he x).1 t (h.had x t ht)⟩

end Part

end Server

/-! ## What a call reaches -/

namespace HostCall

/-- The paths in a call. -/
def paths : HostCall → List Str
  | .sys (.stat p) => [p]
  | .sys (.openW p) => [p]
  | .sys (.truncate p _) => [p]
  | .sys _ => []
  | .access p => [p]
  | .openR p => [p]
  | .openT p => [p]
  | .read .. => []
  | .statvfs _ => []
  | .opendir p => [p]
  | .readdir _ => []
  | .closedir _ => []
  | .unlink p => [p]
  | .rmdir p => [p]
  | .mkdir p _ => [p]
  | .rename p q => [p, q]

/-- The descriptor in a call. -/
def fd : HostCall → Option Nat
  | .sys (.lseek fd _) => some fd
  | .sys (.write fd _) => some fd
  | .sys (.close fd) => some fd
  | .read fd _ => some fd
  | .readdir dir => some dir
  | .closedir dir => some dir
  | _ => none

/-- The descriptor a call has opened. -/
def gets : (c : HostCall) → c.Ans → Option Nat
  | .sys (.openW _), .ok fd => some fd
  | .openR _, .ok fd => some fd
  | .openT _, .ok fd => some fd
  | .opendir _, .ok dir => some dir
  | _, _ => none

end HostCall

/-- A path that the call is about. -/
def Kernel.About (k : Kernel) (c : HostCall) (p : Str) : Prop :=
  p ∈ c.paths ∨ ∃ fd o, c.fd = some fd ∧ k.fds fd = some (p, o)

/-- What a call may do to files, if it is about the paths in `P`. -/
structure Server.Local (P : Str → Prop) (w w' : Server) : Prop where
  evolves : w.Evolves w'
  other : ∀ x, (∀ p, P p → ¬ Under p x ∧ ¬ Above p x) → w'.files x = w.files x

namespace Server.Local

variable {P : Str → Prop} {w w' : Server} {p q : Str}

theorem refl : Local P w w := ⟨.refl w, fun _ _ => rfl⟩

theorem under_self : Under p p := ⟨[], .inl rfl, (List.append_nil p).symm⟩

theorem at_ (hp : P p) (he : w.Evolves w') (ho : ∀ x, x ≠ p → w'.files x = w.files x) : Local P w w' := by
  refine ⟨he, fun x hx => ho x ?_⟩
  rintro rfl
  exact (hx x hp).1 under_self

theorem relink (hp : P p) (h : w.Relink p w') : Local P w w' := by
  refine ⟨h.evolves, fun x hx => h.other x ?_ (hx p hp).2⟩
  rintro rfl
  exact (hx x hp).1 under_self

theorem move (hp : P p) (hq : P q) (h : w.Move p q w') : Local P w w' :=
  ⟨h.evolves, fun x hx => h.other x (hx p hp).1 (hx q hq).1 (hx p hp).2 (hx q hq).2⟩

end Server.Local

namespace Kernel

variable {able : Prop} {k k' : Kernel} {c : HostCall} {a : c.Ans} {fd : Nat}

theorem shut_fs : (k.shut c).fs = k.fs := by
  unfold shut
  split <;> rfl

theorem Does.local_ {v : c.Val} (h : k.Does able c v k') : Server.Local (k.About c) k.fs k'.fs := by
  have here : ∀ {p : Str} {l : List Str}, p ∈ p :: l := List.mem_cons_self
  cases c with
  | sys c =>
    cases c with
    | stat p =>
      obtain ⟨⟨rfl, -⟩, -⟩ := h
      exact .refl
    | openW p =>
      obtain ⟨-, -, ⟨-, hfs⟩ | ⟨s', -, hput, -⟩⟩ := h
      · rw [hfs]
        exact .refl
      · exact .at_ (.inl here) hput.evolves hput.1
    | lseek fd offset =>
      obtain ⟨-, -, p, o, -, rfl⟩ := h
      exact .refl
    | write fd buf =>
      obtain ⟨⟨-, p, o, hfd, -, ⟨-, hfs⟩ | ⟨-, s, s', hch, -⟩⟩, -⟩ := h
      · rw [hfs]
        exact .refl
      · exact .at_ (.inr ⟨fd, o, rfl, hfd⟩) hch.2.1.evolves hch.2.1.1
    | close fd =>
      obtain ⟨-, rfl⟩ := h
      exact .refl
    | truncate p offset =>
      obtain ⟨-, -, s, s', hch, -⟩ := h
      exact .at_ (.inl here) hch.2.1.evolves hch.2.1.1
  | access p =>
    obtain ⟨-, rfl⟩ := h
    exact .refl
  | openR p =>
    obtain ⟨-, -, hfs⟩ := h
    rw [hfs]
    exact .refl
  | openT p => exact .relink (.inl here) h.2.1
  | read fd size =>
    obtain ⟨p, o, s, hfd, -, -, -, -, hpeek⟩ := h
    exact .at_ (.inr ⟨fd, o, rfl, hfd⟩) hpeek.evolves hpeek.2.1
  | statvfs p =>
    obtain rfl := h
    exact .refl
  | opendir p =>
    obtain ⟨-, -, hfs⟩ := h
    rw [hfs]
    exact .refl
  | readdir dir =>
    obtain ⟨-, -, p, o, hfd, hpeek⟩ := h
    exact .at_ (.inr ⟨dir, o, rfl, hfd⟩) hpeek.evolves hpeek.2.1
  | closedir dir =>
    obtain rfl := h
    exact .refl
  | unlink p => exact .relink (.inl here) h.2.2.1
  | rmdir p => exact .relink (.inl here) h.2.1
  | mkdir p mode => exact .relink (.inl here) h.2.1
  | rename p q => exact .move (.inl here) (.inl (List.mem_cons_of_mem p here)) h.2

/-- **What a call does** to the files. -/
theorem Host.local_ (h : k.Host able c a k') : Server.Local (k.About c) k.fs k'.fs := by
  cases a with
  | ok v => exact Does.local_ h
  | error e =>
    obtain ⟨-, rfl, -⟩ := h
    rw [shut_fs]
    exact .refl

theorem shut_other (hfd : c.fd ≠ some fd) : (k.shut c).fds fd = k.fds fd := by
  cases c with
  | sys c =>
    cases c with
    | close fd' => exact Function.update_of_ne (fun h => hfd (by rw [h]; rfl)) _ _
    | _ => rfl
  | closedir dir => exact Function.update_of_ne (fun h => hfd (by rw [h]; rfl)) _ _
  | _ => rfl

/-- **What a call does** to the descriptors: those it does not use stay as they
are. -/
theorem Host.fds_other (h : k.Host able c a k') (hfd : c.fd ≠ some fd) (hnew : c.gets a ≠ some fd) :
    k'.fds fd = k.fds fd := by
  have hupdate : ∀ {f : Nat → Option (Str × Nat)} {fd' x}, some fd' ≠ some fd →
      f = Function.update k.fds fd' x → f fd = k.fds fd := by
    intro f fd' x hne hf
    rw [hf]
    exact Function.update_of_ne (fun h => hne (by rw [h])) _ _
  cases a with
  | error e =>
    obtain ⟨-, rfl, -⟩ := h
    exact shut_other hfd
  | ok v =>
    cases c with
    | sys c =>
      cases c with
      | stat p =>
        obtain ⟨⟨rfl, -⟩, -⟩ := h
        rfl
      | openW p => exact hupdate hnew h.2.1
      | lseek fd' offset =>
        obtain ⟨-, -, p, o, -, rfl⟩ := h
        exact hupdate hfd rfl
      | write fd' buf =>
        obtain ⟨⟨-, p, o, -, hfds, -⟩, -⟩ := h
        exact hupdate hfd hfds
      | close fd' =>
        obtain ⟨-, rfl⟩ := h
        exact hupdate hfd rfl
      | truncate p offset => exact congrFun h.2.1 fd
    | access p =>
      obtain ⟨-, rfl⟩ := h
      rfl
    | openR p => exact hupdate hnew h.2.1.2
    | openT p => exact hupdate hnew h.1.2
    | read fd' size =>
      obtain ⟨p, o, s, -, -, -, -, hfds, -⟩ := h
      exact hupdate hfd hfds
    | statvfs p =>
      obtain rfl := h
      rfl
    | opendir p => exact hupdate hnew h.2.1.2
    | readdir dir => exact congrFun h.2.1 fd
    | closedir dir =>
      obtain rfl := h
      exact shut_other hfd
    | unlink p => exact congrFun h.1 fd
    | rmdir p => exact congrFun h.1 fd
    | mkdir p mode => exact congrFun h.1 fd
    | rename p q => exact congrFun h.1 fd

/-- A descriptor is new when it is opened. -/
theorem Host.gets_free (h : k.Host able c a k') (hnew : c.gets a = some fd) : k.fds fd = none := by
  cases a with
  | error e =>
    cases c with
    | sys c => cases c <;> cases hnew
    | _ => cases hnew
  | ok v =>
    cases c with
    | sys c =>
      cases c with
      | openW p =>
        cases hnew
        exact h.1
      | _ => cases hnew
    | openR p =>
      cases hnew
      exact h.2.1.1
    | openT p =>
      cases hnew
      exact h.1.1
    | opendir p =>
      cases hnew
      exact h.2.1.1
    | _ => cases hnew

end Kernel

/-! ## A part of the kernel -/

/-- `l` is the part of `k` that `F` selects, with some of the descriptors that
are open on it. -/
structure Piece (F : Str → Prop) (k l : Kernel) : Prop where
  fs : k.fs.Part F l.fs
  fds : ∀ fd p o, l.fds fd = some (p, o) → k.fds fd = some (p, o) ∧ F p

/-- The call keeps to `F` and to the descriptors that are open. -/
structure Kernel.Fair (F : Str → Prop) (l : Kernel) (c : HostCall) : Prop where
  paths : ∀ p ∈ c.paths, F p
  fd : ∀ fd, c.fd = some fd → (l.fds fd).isSome

namespace Piece

variable {F G : Str → Prop} {k k' l l' : Kernel} {c : HostCall} {a : c.Ans} {able : Prop} {fd : Nat} {p : Str} {o : Nat}

theorem free (h : Piece F k l) (hk : k.fds fd = none) : l.fds fd = none := by
  cases hl : l.fds fd with
  | none => rfl
  | some x =>
    rw [(h.fds fd x.1 x.2 hl).1] at hk
    cases hk

/-- A descriptor that is open is the same in both. -/
theorem open_ (h : Piece F k l) (hl : (l.fds fd).isSome) (hk : k.fds fd = some (p, o)) :
    l.fds fd = some (p, o) ∧ F p := by
  obtain ⟨x, hx⟩ := Option.isSome_iff_exists.mp hl
  obtain ⟨hk', hF⟩ := h.fds fd x.1 x.2 hx
  cases hk.symm.trans hk'
  exact ⟨hx, hF⟩

theorem fds_update (h : Piece F k l) {x : Option (Str × Nat)} (hx : ∀ p o, x = some (p, o) → F p) (fd' : Nat) (p : Str)
    (o : Nat) (hl : Function.update l.fds fd x fd' = some (p, o)) :
    Function.update k.fds fd x fd' = some (p, o) ∧ F p := by
  by_cases hfd : fd' = fd
  · rw [hfd, Function.update_self] at hl ⊢
    exact ⟨hl, hx p o hl⟩
  · rw [Function.update_of_ne hfd] at hl ⊢
    exact h.fds fd' p o hl

theorem shut (h : Piece F k l) : Piece F (k.shut c) (l.shut c) := by
  have hnone : ∀ (p : Str) (o : Nat), (none : Option (Str × Nat)) = some (p, o) → F p := fun _ _ hx => by cases hx
  cases c with
  | sys c =>
    cases c with
    | close fd => exact ⟨h.fs, h.fds_update hnone⟩
    | _ => exact h
  | closedir dir => exact ⟨h.fs, h.fds_update hnone⟩
  | _ => exact h

/-- What a call fails for, it fails for in the part. -/
theorem excuses (h : Piece F k l) (hf : l.Fair F c) (hk : k.Excuses c) : l.Excuses c := by
  have hfile : ∀ {p : Str}, p ∈ c.paths → k.fs.files p = none → l.fs.files p = none := by
    intro p hp hnone
    rw [h.fs.files p (hf.paths p hp), hnone]
  have hopen : ∀ {fd : Nat}, c.fd = some fd → k.fds fd = none → False := by
    intro fd hfd hnone
    have hl := hf.fd fd hfd
    rw [h.free hnone] at hl
    cases hl
  cases c with
  | sys c =>
    cases c with
    | stat p => exact hfile (List.mem_singleton_self p) hk
    | openW p => exact hfile (List.mem_singleton_self p) hk
    | lseek fd offset => exact .inr (hk.resolve_left (hopen rfl))
    | write fd buf => exact (hopen rfl hk).elim
    | close fd => trivial
    | truncate p offset => exact hk.imp_left (hfile (List.mem_singleton_self p))
  | access p => exact hfile (List.mem_singleton_self p) hk
  | openR p => exact hfile (List.mem_singleton_self p) hk
  | read fd size => exact (hopen rfl hk).elim
  | unlink p => exact hfile (List.mem_singleton_self p) hk
  | rename p q => exact hfile (List.mem_cons_self ..) hk
  | _ => trivial

/-- A file is opened in both. -/
theorem opened (h : Piece F k l) (hF : F p) (hk : k.Opened fd p o k') {fs : Server} (hfs : k'.fs.Part F fs) :
    l.Opened fd p o { fs := fs, fds := Function.update l.fds fd (some (p, o)) } ∧
      Piece F k' { fs := fs, fds := Function.update l.fds fd (some (p, o)) } := by
  refine ⟨⟨h.free hk.1, rfl⟩, hfs, ?_⟩
  rw [hk.2]
  exact h.fds_update fun _ _ hx => by cases hx; exact hF

/-- An open file is moved in, in both. -/
theorem moved (h : Piece F k l) (hF : F p) (hk : k'.fds = Function.update k.fds fd (some (p, o))) {fs : Server}
    (hfs : k'.fs.Part F fs) : Piece F k' { fs := fs, fds := Function.update l.fds fd (some (p, o)) } := by
  refine ⟨hfs, ?_⟩
  rw [hk]
  exact h.fds_update fun _ _ hx => by cases hx; exact hF

/-- The files change in both, the descriptors do not. -/
theorem files (h : Piece F k l) (hk : k'.fds = k.fds) {fs : Server} (hfs : k'.fs.Part F fs) :
    Piece F k' { l with fs := fs } :=
  ⟨hfs, by rw [hk]; exact h.fds⟩

/-- **What a call does to the whole it does to the part.** -/
theorem does (hF : ∀ {p x}, F p → Under p x → F x) {v : c.Val} (h : Piece F k l) (hf : l.Fair F c)
    (hc : k.Does able c v k') : ∃ l', l.Does able c v l' ∧ Piece F k' l' := by
  have hpart : k'.fs.Part F (Server.within F l.fs k'.fs) := h.fs.within hc.local_.evolves
  have hpath : ∀ {p : Str}, p ∈ c.paths → F p ∧ l.fs.files p = k.fs.files p :=
    fun hp => ⟨hf.paths _ hp, h.fs.files _ (hf.paths _ hp)⟩
  cases c with
  | sys c =>
    cases c with
    | stat p =>
      obtain ⟨⟨rfl, s, hs, hst⟩, hlt⟩ := hc
      obtain ⟨-, hfile⟩ := hpath (List.mem_singleton_self p)
      exact ⟨l, ⟨⟨rfl, s, hfile.trans hs, hst⟩, hlt⟩, h⟩
    | openW p =>
      obtain ⟨hp, hfile⟩ := hpath (List.mem_singleton_self p)
      obtain ⟨hfree, hfds, ⟨hsome, hfs⟩ | ⟨s', hnone, hput, hempty, hnew⟩⟩ := hc
      · have hsame : k'.fs.Part F l.fs := hfs ▸ h.fs
        refine ⟨_, ?_, h.moved hp hfds hsame⟩
        exact ⟨h.free hfree, rfl, .inl ⟨hfile ▸ hsome, rfl⟩⟩
      · refine ⟨_, ?_, h.moved hp hfds hpart⟩
        exact ⟨h.free hfree, rfl, .inr ⟨s', hfile.trans hnone, h.fs.put hp hput, hempty,
          fun hh => hnew (h.fs.had p _ hh)⟩⟩
    | lseek fd offset =>
      obtain ⟨h0, hpos, p, o, hfd, rfl⟩ := hc
      obtain ⟨hl, hp⟩ := h.open_ (hf.fd fd rfl) hfd
      refine ⟨_, ?_, h.moved hp rfl h.fs⟩
      exact ⟨h0, hpos, p, o, hl, rfl⟩
    | write fd buf =>
      obtain ⟨⟨hle, p, o, hfd, hfds, hw⟩, hall⟩ := hc
      obtain ⟨hl, hp⟩ := h.open_ (hf.fd fd rfl) hfd
      obtain ⟨h0, hfs⟩ | ⟨hpos, s, s', hch, hnew⟩ := hw
      · have hsame : k'.fs.Part F l.fs := hfs ▸ h.fs
        refine ⟨_, ?_, h.moved hp hfds hsame⟩
        exact ⟨⟨hle, p, o, hl, rfl, .inl ⟨h0, rfl⟩⟩, hall⟩
      · refine ⟨_, ?_, h.moved hp hfds hpart⟩
        exact ⟨⟨hle, p, o, hl, rfl, .inr ⟨hpos, s, s', h.fs.change hp hch, fun hh => hnew (h.fs.had p _ hh)⟩⟩, hall⟩
    | close fd =>
      obtain ⟨herr, rfl⟩ := hc
      exact ⟨_, ⟨herr, rfl⟩, h.shut (c := .sys (.close fd))⟩
    | truncate p offset =>
      obtain ⟨hp, -⟩ := hpath (List.mem_singleton_self p)
      obtain ⟨h0, hfds, s, s', hch, hnew⟩ := hc
      refine ⟨_, ?_, h.files hfds hpart⟩
      exact ⟨h0, rfl, s, s', h.fs.change hp hch, fun hh => hnew (h.fs.had p _ hh)⟩
  | access p =>
    obtain ⟨hsome, rfl⟩ := hc
    obtain ⟨-, hfile⟩ := hpath (List.mem_singleton_self p)
    exact ⟨l, ⟨hfile ▸ hsome, rfl⟩, h⟩
  | openR p =>
    obtain ⟨hp, hfile⟩ := hpath (List.mem_singleton_self p)
    obtain ⟨hsome, hopen, hfs⟩ := hc
    have hsame : k'.fs.Part F l.fs := hfs ▸ h.fs
    obtain ⟨hl, hpiece⟩ := h.opened hp hopen hsame
    exact ⟨_, ⟨hfile ▸ hsome, hl, rfl⟩, hpiece⟩
  | openT p =>
    obtain ⟨hp, -⟩ := hpath (List.mem_singleton_self p)
    obtain ⟨hopen, hlink, hempty⟩ := hc
    obtain ⟨hl, hpiece⟩ := h.opened hp hopen hpart
    refine ⟨_, ⟨hl, h.fs.relink hlink, ?_⟩, hpiece⟩
    rw [Server.content, Server.within_files hp]
    exact hempty
  | read fd size =>
    obtain ⟨p, o, s, hfd, hs, hgot, hend, hfds, hpeek⟩ := hc
    obtain ⟨hl, hp⟩ := h.open_ (hf.fd fd rfl) hfd
    refine ⟨_, ?_, h.moved hp hfds hpart⟩
    exact ⟨p, o, s, hl, (h.fs.files p hp).trans hs, hgot, hend, rfl, h.fs.peek hp hpeek⟩
  | statvfs p =>
    obtain rfl := hc
    exact ⟨l, rfl, h⟩
  | opendir p =>
    obtain ⟨hp, hfile⟩ := hpath (List.mem_singleton_self p)
    obtain ⟨hsome, hopen, hfs⟩ := hc
    have hsame : k'.fs.Part F l.fs := hfs ▸ h.fs
    obtain ⟨hl, hpiece⟩ := h.opened hp hopen hsame
    exact ⟨_, ⟨hfile ▸ hsome, hl, rfl⟩, hpiece⟩
  | readdir dir =>
    obtain ⟨herr, hfds, p, o, hfd, hpeek⟩ := hc
    obtain ⟨hl, hp⟩ := h.open_ (hf.fd dir rfl) hfd
    refine ⟨_, ?_, h.files hfds hpart⟩
    exact ⟨herr, rfl, p, o, hl, h.fs.peek hp hpeek⟩
  | closedir dir =>
    obtain rfl := hc
    exact ⟨_, rfl, h.shut⟩
  | unlink p =>
    obtain ⟨hp, hfile⟩ := hpath (List.mem_singleton_self p)
    obtain ⟨hfds, hsome, hlink, hgone⟩ := hc
    refine ⟨_, ?_, h.files hfds hpart⟩
    exact ⟨rfl, hfile ▸ hsome, h.fs.relink hlink, (Server.within_files hp).trans hgone⟩
  | rmdir p =>
    obtain ⟨hp, -⟩ := hpath (List.mem_singleton_self p)
    obtain ⟨hfds, hlink, hgone⟩ := hc
    refine ⟨_, ?_, h.files hfds hpart⟩
    exact ⟨rfl, h.fs.relink hlink, (Server.within_files hp).trans hgone⟩
  | mkdir p mode =>
    obtain ⟨hp, hfile⟩ := hpath (List.mem_singleton_self p)
    obtain ⟨hfds, hlink, hnone, hsome⟩ := hc
    refine ⟨_, ?_, h.files hfds hpart⟩
    refine ⟨rfl, h.fs.relink hlink, hfile.trans hnone, ?_⟩
    rw [Server.within_files hp]
    exact hsome
  | rename p q =>
    obtain ⟨hp, -⟩ := hpath (List.mem_cons_self ..)
    obtain ⟨hq, -⟩ := hpath (List.mem_cons_of_mem p (List.mem_singleton_self q))
    obtain ⟨hfds, hmove⟩ := hc
    refine ⟨_, ?_, h.files hfds hpart⟩
    exact ⟨rfl, h.fs.move hF hp hq hmove⟩

theorem step (hF : ∀ {p x}, F p → Under p x → F x) (h : Piece F k l) (hf : l.Fair F c) (hc : k.Host able c a k') :
    ∃ l', l.Host able c a l' ∧ Piece F k' l' := by
  cases a with
  | ok v => exact h.does hF hf hc
  | error e =>
    obtain ⟨he, rfl, hex⟩ := hc
    exact ⟨_, ⟨he, rfl, fun ha => h.excuses hf (hex ha)⟩, h.shut⟩

/-- **A call of one client leaves the parts of the others alone.** -/
theorem frame (hG : ∀ {p x}, G p → Under p x → G x) (hF : ∀ {p x}, F p → Under p x → F x) (hdisj : ∀ p, F p → ¬ G p)
    (hl : Piece F k l) (hf : l.Fair F c) {m : Kernel} (hm : Piece G k m)
    (hown : ∀ fd, (l.fds fd).isSome → m.fds fd = none) (hc : k.Host able c a k') : Piece G k' m := by
  have habout : ∀ p, k.About c p → F p := by
    intro p hp
    obtain hp | ⟨fd, o, hfd, hk⟩ := hp
    · exact hf.paths p hp
    · exact (hl.open_ (hf.fd fd hfd) hk).2
  refine ⟨hm.fs.foreign hc.local_.evolves fun x hx => hc.local_.other x fun p hp => ?_, fun fd p o hfd => ?_⟩
  · exact ⟨fun hu => hdisj x (hF (habout p hp) hu) hx, fun hu => hdisj p (habout p hp) (hG hx hu.2)⟩
  · obtain ⟨hk, hp⟩ := hm.fds fd p o hfd
    have hused : c.fd ≠ some fd := by
      intro h
      rw [hown fd (hf.fd fd h)] at hfd
      cases hfd
    have hnew : c.gets a ≠ some fd := by
      intro h
      rw [hc.gets_free h] at hk
      cases hk
    exact ⟨(hc.fds_other hused hnew).trans hk, hp⟩

/-- What is open after a call was so before, or it is new. -/
theorem fds_step (h : l.Host able c a l') (hf : l.Fair F c) (hk : k.Host able c a k') (hfd : (l'.fds fd).isSome) :
    (l.fds fd).isSome ∨ k.fds fd = none := by
  by_cases hused : c.fd = some fd
  · exact .inl (hf.fd fd hused)
  · by_cases hnew : c.gets a = some fd
    · exact .inr (hk.gets_free hnew)
    · rw [h.fds_other hused hnew] at hfd
      exact .inl hfd

end Piece

end Nfs
