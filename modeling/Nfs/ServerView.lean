/-
The whole run of a responder is one step of the server.

A responder makes several calls, and any of them may fail. `Server.below`
looks at the files below a directory, by the names that follow it; so the
clients see those below `nfsRoot`. Whatever the calls do, what is seen goes
from one state to the next as `Server.Serve` says, names and directories are
moved as in a tree, and no file is left open.
-/
import Mathlib.Data.List.TakeWhile
import Nfs.HostRules
import Nfs.Seek
import Nfs.Session

namespace Nfs

open PlainFile Resume

-- As in `Nfs.Connection`.
seal toInt

/-! ## Below a directory -/

namespace Server

/-- The files below `root`. -/
def below (root : Str) (w : Server) : Server where
  files f := w.files (root ++ f)
  had f t := w.had (root ++ f) t
  own h := w.own h

variable {root : Str} {w w' : Server} {f g : Str}

theorem Evolves.below (h : w.Evolves w') : (w.below root).Evolves (w'.below root) := fun f => h (root ++ f)

theorem Peek.below (h : w.Peek (root ++ f) w') : (w.below root).Peek f (w'.below root) := by
  obtain ⟨hhad, ho, t, hf⟩ := h
  refine ⟨?_, fun g hg => ho _ (by simpa using hg), t, hf⟩
  funext g
  exact congrFun hhad (root ++ g)

theorem Change.below {u : Bytes → Bytes} {s s' : SFile} (h : w.Change (root ++ f) u s s' w') :
    (w.below root).Change f u s s' (w'.below root) := by
  obtain ⟨hs, ⟨ho, hf, hhad, hnew⟩, hu⟩ := h
  refine ⟨hs, ⟨fun g hg => ho _ (by simpa using hg), hf, fun g t => ?_, hnew⟩, hu⟩
  have h := hhad (root ++ g) t
  rw [List.append_cancel_left_eq] at h
  exact h

theorem under_append : Under (root ++ f) (root ++ g) ↔ Under f g := by
  simp [Under, List.append_assoc]

theorem above_append : Above (root ++ f) (root ++ g) ↔ Above f g := by
  simp [Above, under_append]

theorem Relink.below (h : w.Relink (root ++ f) w') : (w.below root).Relink f (w'.below root) :=
  ⟨h.evolves.below, fun x hx ha => h.other _ (by simpa using hx) (by rwa [above_append])⟩

theorem Move.below (h : w.Move (root ++ f) (root ++ g) w') : (w.below root).Move f g (w'.below root) := by
  refine ⟨h.was, h.evolves.below, ⟨fun x hx => ?_, fun x hx hne => ?_⟩, fun hne y hy => ?_, fun x h₁ h₂ h₃ h₄ => ?_⟩
  · have hc := h.moved.content x hx
    rwa [List.append_assoc, List.append_assoc] at hc
  · simpa [List.append_assoc] using h.moved.apart x hx hne
  · have hgone := h.gone (by simpa using hne) y hy
    rwa [List.append_assoc] at hgone
  · exact h.other _ (by rwa [under_append]) (by rwa [under_append]) (by rwa [above_append]) (by rwa [above_append])

/-! ## One request -/

/-- What a request does to the tree, beyond `Serve`. -/
def Links (w : Server) : (r : Req) → r.Resp → Server → Prop
  | .stat _, a, _ => a.error = 0 → a.size < 2 ^ 63
  | .create f, a, w' => a.error = 0 → w.Relink f w'
  | .unlink f, a, w' => a.error = 0 → (w.files f).isSome ∧ w.Relink f w'
  | .rmdir f, a, w' => a.error = 0 → w.Relink f w'
  | .mkdir f _, a, w' => a.error = 0 → w.Relink f w'
  | .rename f g _, a, w' => a.error = 0 → w.Move f g w'
  | _, _, _ => True

/-- What an error tells about a server that refuses nothing without need. -/
def Lacks (w : Server) : Req → Prop
  | .access f => w.files f = none
  | .stat f => w.files f = none
  | .read f _ _ => w.files f = none
  | .write f _ _ => w.files f = none
  | .truncate f _ => w.files f = none
  | .unlink f => w.files f = none
  | .rename f _ _ => w.files f = none
  | _ => True

/-- **One request** to a server with a file system. -/
structure Answers (able : Prop) (w : Server) (r : Req) (a : r.Resp) (w' : Server) : Prop where
  tree : w.ServeTree r a w'
  links : w.Links r a w'
  code : Code (r.error a)
  lacks : able → r.error a ≠ 0 → w.Lacks r

end Server

/-- What the clients see. -/
def Kernel.view (k : Kernel) : Server := k.fs.below nfsRoot

/-! ## The responders -/

/-- An offset that `lseek` returns as an `int` that is not negative. -/
def Seekable (offset : Nat) : Prop := offset < 2 ^ 63 ∧ offset % 2 ^ 32 < 2 ^ 31

/-- The request has a meaning on the server: names without zeros, data, and
offsets that can be sought. -/
def Req.Proper : Req → Prop
  | .statfs => True
  | .read f offset size => 0 ∉ f ∧ Seekable offset ∧ size < 2 ^ 63
  | .write f offset data => 0 ∉ f ∧ Seekable offset ∧ data ≠ []
  | .truncate f offset => 0 ∉ f ∧ offset < 2 ^ 63
  | .rename f g _ => 0 ∉ f ∧ 0 ∉ g
  | .access f => 0 ∉ f
  | .create f => 0 ∉ f
  | .stat f => 0 ∉ f
  | .readdir f => 0 ∉ f
  | .unlink f => 0 ∉ f
  | .rmdir f => 0 ∉ f
  | .mkdir f _ => 0 ∉ f

theorem cStr_eq {f : Str} (h : 0 ∉ f) : cStr (nfsRoot ++ f) = nfsRoot ++ f := by
  have hroot : (0 : UInt8) ∉ nfsRoot := by decide
  refine List.takeWhile_eq_self_iff.mpr fun b hb => ?_
  simp only [decide_eq_true_eq]
  rintro rfl
  exact (List.mem_append.mp hb).elim hroot h

theorem Seekable.toInt_nonneg {offset : Nat} (h : Seekable offset) :
    (Int64.ofNat offset).toInt = offset ∧ 0 ≤ toInt (Int64.ofNat offset).toInt := by
  have hoff : (Int64.ofNat offset).toInt = offset := Int64.toInt_ofNat_of_lt h.1
  refine ⟨hoff, ?_⟩
  rw [hoff, Nfs.toInt_nonneg]
  have := h.2
  omega

theorem Errno.toInt {e : Int} (h : Errno e) : (Int32.ofInt e).toInt = e := by
  obtain ⟨h0, h1⟩ := h
  exact Int32.toInt_ofInt_of_le (by omega) (by omega)

theorem Errno.ne_zero {e : Int} (h : Errno e) : (Int32.ofInt e).toInt ≠ 0 := by
  rw [h.toInt]
  exact h.1.ne'

theorem Code.toInt {e : Int} (h : Code e) : Code (Int32.ofInt e).toInt := by
  obtain rfl | he := h
  · exact .inl rfl
  · rw [he.toInt]
    exact .inr he

section
variable {able : Prop} {k : Kernel} {errno : Int} {id : Int32} {α : Type}

abbrev opEnv (able : Prop) : Env Int Kernel OpReq.Ans := Env.solo (HostServe (Kernel.Host able))

theorem onOp_rule {p : HostM α} {Q : Int → Kernel → Outcome α → Prop} (h : (p errno).wp (hostEnv able) Q k) :
    ((onOp p) errno).wp (opEnv able) Q k := by
  refine wp_lift.mpr (h.narrow ?_ id id)
  intro k c a k' hs
  obtain ⟨a', hs, rfl⟩ := hs
  exact hs

theorem uninit_rule {Q : Int → Kernel → Outcome Uninit → Prop} (h : ∀ junk, Q errno k (.ok junk)) :
    (uninit errno).wp (opEnv able) Q k := by
  refine ⟨trivial, fun k₁ hk junk k₂ hs => ?_⟩
  cases hk
  cases hs
  exact h junk

/-- What a responder returns. -/
def Responds (able : Prop) (k : Kernel) (r : Req) (resp : Msg) (k' : Kernel) : Prop :=
  k'.fds = k.fds ∧ ∀ a, r.decode resp = some a → k.view.Answers able r a k'.view

/-- Only a rename moves anything. -/
theorem Server.Answers.plain {w w' : Server} {r : Req} {a : r.Resp} (h : w.Serve r a w')
    (ht : ∀ f g n, r ≠ .rename f g n) (hl : w.Links r a w') (hcode : Code (r.error a))
    (hlacks : able → r.error a ≠ 0 → w.Lacks r) : w.Answers able r a w' := by
  refine ⟨⟨h, ?_⟩, hl, hcode, hlacks⟩
  cases r with
  | rename f g n => exact absurd rfl (ht f g n)
  | _ => trivial

theorem respondAccess_rule {f : Str} (hf : 0 ∉ f) :
    ((respondAccess nfsRoot id f) errno).wp (opEnv able) (Returns fun resp _ k' =>
      Responds able k (.access f) resp k') k := by
  refine wp_bind.mpr (uninit_rule fun junk => ?_)
  refine wp_returns (onOp_rule FileOp.access_rule) fun e k₁ r hr => ?_
  rw [cStr_eq hf] at hr
  obtain ⟨rfl, hr⟩ := hr
  refine ⟨rfl, fun a ha => ?_⟩
  cases ha
  obtain ⟨h0, s, hs, -, ht⟩ | ⟨he, hex⟩ := hr
  · rw [h0]
    exact .plain ⟨rfl, fun _ => ⟨s, hs, ht⟩⟩ (by simp) trivial (.inl rfl) fun _ h => absurd rfl h
  · exact .plain ⟨rfl, fun h => absurd h he.ne_zero⟩ (by simp) trivial (Code.toInt (.inr he)) fun ha _ => hex ha

theorem respondStat_rule {f : Str} (hf : 0 ∉ f) :
    ((respondStat nfsRoot id f) errno).wp (opEnv able) (Returns fun resp _ k' =>
      Responds able k (.stat f) resp k') k := by
  refine wp_bind.mpr (uninit_rule fun junk => ?_)
  refine wp_returns (onOp_rule FileOp.stat_rule) fun e k₁ r hr => ?_
  rw [cStr_eq hf] at hr
  obtain ⟨rfl, hr⟩ := hr
  refine ⟨rfl, fun a ha => ?_⟩
  cases ha
  obtain ⟨h0, s, hs, hlt, ht⟩ | ⟨he, hex⟩ := hr
  · rw [h0, ht, toNat_ofNat64 hlt]
    exact .plain ⟨rfl, fun _ => ⟨s, hs, rfl, rfl, rfl⟩⟩ (by simp) (fun _ => hlt) (.inl rfl) fun _ h => absurd rfl h
  · exact .plain ⟨rfl, fun h => absurd h he.ne_zero⟩ (by simp) (fun h => absurd h he.ne_zero) (Code.toInt (.inr he))
      fun ha _ => hex ha

theorem respondStatfs_rule :
    ((respondStatfs nfsRoot id) errno).wp (opEnv able) (Returns fun resp _ k' =>
      Responds able k .statfs resp k') k := by
  refine wp_bind.mpr (uninit_rule fun junk => ?_)
  refine wp_returns (onOp_rule FileOp.statfs_rule) fun e k₁ r hr => ?_
  obtain ⟨rfl, hcode⟩ := hr
  refine ⟨rfl, fun a ha => ?_⟩
  cases ha
  exact .plain rfl (by simp) trivial hcode.toInt fun _ _ => trivial

theorem respondReaddir_rule {f : Str} (hf : 0 ∉ f) :
    ((respondReaddir nfsRoot id f) errno).wp (opEnv able) (Returns fun resp _ k' =>
      Responds able k (.readdir f) resp k') k := by
  refine wp_returns (onOp_rule FileOp.readdir_rule) fun e k₁ r hr => ?_
  rw [cStr_eq hf] at hr
  obtain ⟨hfds, hpeek, hcode⟩ := hr
  refine ⟨hfds, fun a ha => ?_⟩
  cases ha
  exact .plain hpeek.below (by simp) trivial hcode.toInt fun _ _ => trivial

theorem respondRead_rule {f : Str} {offset size : Nat} (h : (Req.read f offset size).Proper) :
    ((respondRead nfsRoot id f (Int64.ofNat offset) (Int64.ofNat size)) errno).wp (opEnv able)
      (Returns fun resp _ k' => Responds able k (.read f offset size) resp k') k := by
  obtain ⟨hf, hoff, hsize⟩ := h
  obtain ⟨hint, hbit⟩ := hoff.toInt_nonneg
  unfold respondRead
  rw [hint, toNat_ofNat64 hsize]
  rw [hint] at hbit
  refine wp_returns (onOp_rule (FileOp.read_rule (Int.natCast_nonneg _) hbit)) fun e k₁ r hr => ?_
  rw [cStr_eq hf] at hr
  obtain ⟨hfds, hpeek, hr⟩ := hr
  refine ⟨hfds, fun a ha => ?_⟩
  obtain ⟨hle, ha⟩ := Option.dite_none_right_eq_some.mp ha
  cases ha
  obtain ⟨h0, c, hc, hdata⟩ | ⟨he, hex⟩ := hr
  · obtain ⟨s, hs, rfl⟩ := Option.map_eq_some_iff.mp hc
    exact .plain ⟨hpeek.below, fun _ => ⟨s, hs, hdata⟩⟩ (by simp) trivial (Code.toInt (.inl h0))
      fun _ h => absurd (congrArg (fun e => (Int32.ofInt e).toInt) h0) h
  · exact .plain ⟨hpeek.below, fun h => absurd h he.ne_zero⟩ (by simp) trivial (Code.toInt (.inr he))
      fun ha _ => hex ha

/-- A change, seen from outside. -/
theorem FileOp.Changed.below {k' : Kernel} {f : Str} {u : Bytes → Bytes} {part : Nat → Bytes → Bytes} {excuse : Prop}
    {resp : ChangeResp} (h : FileOp.Changed able k (nfsRoot ++ f) u part excuse resp k') :
    k'.fds = k.fds ∧ Code (Int32.ofInt resp.error).toInt ∧
      ((Int32.ofInt resp.error).toInt = 0 → ∃ s s', k.view.Change f u s s' k'.view ∧ resp.beforeChange = s.time ∧
        resp.afterChange = s'.time) ∧
      ((Int32.ofInt resp.error).toInt ≠ 0 → (able → k.view.files f = none ∨ excuse) ∧
        (k'.view = k.view ∨ ∃ n s s', k.view.Change f (part n) s s' k'.view)) := by
  obtain ⟨hfds, ⟨h0, s, s', hc, hb, ha⟩ | ⟨he, hex, hpart⟩⟩ := h
  · rw [h0]
    exact ⟨hfds, .inl rfl, fun _ => ⟨s, s', hc.below, hb, ha⟩, fun h => absurd rfl h⟩
  · refine ⟨hfds, Code.toInt (.inr he), fun h => absurd h he.ne_zero, fun _ => ⟨hex, ?_⟩⟩
    obtain hsame | ⟨n, s, s', hc⟩ := hpart
    · exact .inl (congrArg (Server.below nfsRoot) hsame)
    · exact .inr ⟨n, s, s', hc.below⟩

theorem respondWrite_rule {f : Str} {offset : Nat} {data : Bytes} (h : (Req.write f offset data).Proper) :
    ((respondWrite nfsRoot id f (Int64.ofNat offset) data) errno).wp (opEnv able)
      (Returns fun resp _ k' => Responds able k (.write f offset data) resp k') k := by
  obtain ⟨hf, hoff, hdata⟩ := h
  obtain ⟨hint, hbit⟩ := hoff.toInt_nonneg
  unfold respondWrite
  rw [hint]
  rw [hint] at hbit
  refine wp_bind.mpr ((wp_assert hdata).mpr (wp_bind.mpr (uninit_rule fun junk => ?_)))
  refine wp_returns (onOp_rule (onHost_wp.mpr (FileOp.write_rule (Int.natCast_nonneg _) hbit hdata)))
    fun e k₁ resp hr => ?_
  rw [cStr_eq hf] at hr
  obtain ⟨hfds, hcode, hok, herr⟩ := hr.below
  refine ⟨hfds, fun a ha => ?_⟩
  cases ha
  exact .plain ⟨hok, fun h => (herr h).2⟩ (by simp) trivial hcode fun ha h => ((herr h).1 ha).resolve_right not_false

theorem respondTruncate_rule {f : Str} {offset : Nat} (h : (Req.truncate f offset).Proper) :
    ((respondTruncate nfsRoot id f (Int64.ofNat offset)) errno).wp (opEnv able)
      (Returns fun resp _ k' => Responds able k (.truncate f offset) resp k') k := by
  obtain ⟨hf, hoff⟩ := h
  unfold respondTruncate
  rw [Int64.toInt_ofNat_of_lt hoff]
  refine wp_bind.mpr (uninit_rule fun junk => ?_)
  refine wp_returns (onOp_rule (onHost_wp.mpr FileOp.truncate_rule)) fun e k₁ resp hr => ?_
  rw [cStr_eq hf] at hr
  obtain ⟨hfds, hcode, hok, herr⟩ := hr.below
  refine ⟨hfds, fun a ha => ?_⟩
  cases ha
  refine .plain ⟨hok, fun h => (herr h).2.imp_right fun ⟨_, hc⟩ => hc⟩ (by simp) trivial hcode fun ha h => ?_
  exact ((herr h).1 ha).resolve_right (by omega)

theorem respondCreate_rule {f : Str} (hf : 0 ∉ f) :
    ((respondCreate nfsRoot id f) errno).wp (opEnv able) (Returns fun resp _ k' =>
      Responds able k (.create f) resp k') k := by
  refine wp_returns (onOp_rule FileOp.creat_rule) fun e k₁ r hr => ?_
  rw [cStr_eq hf] at hr
  obtain ⟨hfds, hr⟩ := hr
  refine ⟨hfds, fun a ha => ?_⟩
  cases ha
  obtain ⟨h0, hlink, hc⟩ | ⟨he, rfl⟩ := hr
  · rw [h0]
    exact .plain ⟨fun _ => ⟨hlink.evolves.below, hc⟩, fun h => absurd rfl h⟩ (by simp) (fun _ => hlink.below)
      (.inl rfl) fun _ _ => trivial
  · exact .plain ⟨fun h => absurd h he.ne_zero, fun _ => rfl⟩ (by simp) (fun h => absurd h he.ne_zero)
      (Code.toInt (.inr he)) fun _ _ => trivial

/-- The requests that are carried out by one call. -/
theorem respondPlainly_rule {r : Req} {c : HostCall} {make : Int32 → Int32 → Msg} (hshut : k.shut c = k)
    (hdec : ∀ e a, r.decode (make id e) = some a → r.error a = e.toInt)
    (hfds : ∀ {v k'}, k.Does able c v k' → k'.fds = k.fds)
    (hok : ∀ {v k' a}, k.Does able c v k' → r.error a = 0 → k.view.Answers able r a k'.view)
    (herr : ∀ {a}, Code (r.error a) → r.error a ≠ 0 → (able → k.Excuses c) → k.view.Answers able r a k.view) :
    ((respondError make id (FileOp.plainly c)) errno).wp (opEnv able) (Returns fun resp _ k' =>
      Responds able k r resp k') k := by
  refine wp_returns (onOp_rule (FileOp.plainly_rule hshut)) fun e k₁ err hr => ?_
  obtain ⟨rfl, v, hdoes⟩ | ⟨he, rfl, hex⟩ := hr
  · exact ⟨hfds hdoes, fun a ha => hok hdoes (hdec _ a ha)⟩
  · refine ⟨rfl, fun a ha => herr ?_ ?_ hex⟩
    · rw [hdec _ a ha]
      exact Code.toInt (.inr he)
    · rw [hdec _ a ha]
      exact he.ne_zero

theorem respondUnlink_rule {f : Str} (hf : 0 ∉ f) :
    ((respondUnlink nfsRoot id f) errno).wp (opEnv able) (Returns fun resp _ k' =>
      Responds able k (.unlink f) resp k') k := by
  refine respondPlainly_rule rfl (fun e a ha => ?_) And.left (fun hdoes h0 => ?_) fun hcode hne hex => ?_
  · cases ha
    rfl
  · obtain ⟨-, hsome, hlink, hnone⟩ := hdoes
    rw [cStr_eq hf] at hsome hlink hnone
    exact .plain ⟨fun _ => ⟨hlink.evolves.below, hnone⟩, fun h => absurd h0 h⟩ (by simp)
      (fun _ => ⟨hsome, hlink.below⟩) (.inl h0) fun _ h => absurd h0 h
  · rw [cStr_eq hf] at hex
    exact .plain ⟨fun h => absurd h hne, fun _ => rfl⟩ (by simp) (fun h => absurd h hne) hcode
      fun ha _ => hex ha

theorem respondRmdir_rule {f : Str} (hf : 0 ∉ f) :
    ((respondRmdir nfsRoot id f) errno).wp (opEnv able) (Returns fun resp _ k' =>
      Responds able k (.rmdir f) resp k') k := by
  refine respondPlainly_rule rfl (fun e a ha => ?_) And.left (fun hdoes h0 => ?_) fun hcode hne _ => ?_
  · cases ha
    rfl
  · obtain ⟨-, hlink, hnone⟩ := hdoes
    rw [cStr_eq hf] at hlink hnone
    exact .plain ⟨fun _ => ⟨hlink.evolves.below, hnone⟩, fun h => absurd h0 h⟩ (by simp) (fun _ => hlink.below)
      (.inl h0) fun _ _ => trivial
  · exact .plain ⟨fun h => absurd h hne, fun _ => rfl⟩ (by simp) (fun h => absurd h hne) hcode
      fun _ _ => trivial

theorem respondMkdir_rule {f : Str} {mode : UInt32} (hf : 0 ∉ f) :
    ((respondMkdir nfsRoot id f mode.toInt32) errno).wp (opEnv able) (Returns fun resp _ k' =>
      Responds able k (.mkdir f mode) resp k') k := by
  refine respondPlainly_rule rfl (fun e a ha => ?_) And.left (fun hdoes h0 => ?_) fun hcode hne _ => ?_
  · cases ha
    rfl
  · obtain ⟨-, hlink, hnone, hsome⟩ := hdoes
    rw [cStr_eq hf] at hlink hnone hsome
    exact .plain ⟨fun _ => ⟨hlink.evolves.below, hnone, hsome⟩, fun h => absurd h0 h⟩ (by simp)
      (fun _ => hlink.below) (.inl h0) fun _ _ => trivial
  · exact .plain ⟨fun h => absurd h hne, fun _ => rfl⟩ (by simp) (fun h => absurd h hne) hcode
      fun _ _ => trivial

theorem respondRename_rule {f g : Str} {flags : UInt32} (h : 0 ∉ f ∧ 0 ∉ g) :
    ((respondRename nfsRoot id f g flags) errno).wp (opEnv able) (Returns fun resp _ k' =>
      Responds able k (.rename f g flags) resp k') k := by
  obtain ⟨hf, hg⟩ := h
  refine respondPlainly_rule rfl (fun e a ha => ?_) And.left (fun hdoes h0 => ?_) fun hcode hne hex => ?_
  · cases ha
    rfl
  · have hmove := hdoes.2
    rw [cStr_eq hf, cStr_eq hg] at hmove
    have hb := hmove.below
    have hc := hb.moved.content [] (.inl rfl)
    have hgone := fun hne => hb.gone hne [] (.inl rfl)
    simp only [List.append_nil] at hc hgone
    exact ⟨⟨⟨fun _ => ⟨hb.evolves, hb.was, hc, hgone⟩, fun h => absurd h0 h⟩, fun _ => hb.moved⟩, fun _ => hb,
      .inl h0, fun _ h => absurd h0 h⟩
  · rw [cStr_eq hf] at hex
    exact ⟨⟨⟨fun h => absurd h hne, fun _ => rfl⟩, fun h => absurd h hne⟩, fun h => absurd h hne, hcode,
      fun ha _ => hex ha⟩

/-- **Every responder.** -/
theorem respond_rule {r : Req} (h : r.Proper) :
    ((respond nfsRoot (r.msg id)) errno).wp (opEnv able) (Returns fun resp _ k' => Responds able k r resp k') k := by
  cases r with
  | access f => exact respondAccess_rule h
  | create f => exact respondCreate_rule h
  | stat f => exact respondStat_rule h
  | statfs => exact respondStatfs_rule
  | readdir f => exact respondReaddir_rule h
  | read f offset size => exact respondRead_rule h
  | write f offset data => exact respondWrite_rule h
  | truncate f offset => exact respondTruncate_rule h
  | unlink f => exact respondUnlink_rule h
  | rmdir f => exact respondRmdir_rule h
  | mkdir f mode => exact respondMkdir_rule h
  | rename f g flags => exact respondRename_rule h

end

/-! ## Results -/

/-- Requests of one client, carried out by the responders over the calls. -/
theorem Peer.Serve.answers {able : Prop} {w w' : Peer Kernel} {r : Req} {a : r.Resp} (hr : r.Proper)
    (h : w.Serve (Kernel.Host able) r a w') : w.host.view.Answers able r a w'.host.view ∧ w'.host.fds = w.host.fds := by
  obtain ⟨-, resp, hx, hdec⟩ := h
  obtain ⟨hfds, hans⟩ := (respond_rule hr).exec hx
  exact ⟨hans a hdec, hfds⟩

/-- One file of the clients, and nothing open. -/
def Kernel.holding (f : Str) (c : Bytes) : Kernel where
  fs := { files := fun p => if p = nfsRoot ++ f then some { content := c, mode := 0, time := .epoch } else none
          had := fun p t => p = nfsRoot ++ f ∧ t = FileTime.epoch.stamp
          own := fun {p s} h => by
            obtain ⟨hp, h⟩ := Option.ite_none_right_eq_some.mp h
            cases h
            exact ⟨hp, rfl⟩ }
  fds := fun _ => none

theorem Kernel.ticking_holding {f : Str} {c : Bytes} : (Kernel.holding f c).Ticking := by
  intro p s t hs ht
  obtain ⟨-, h⟩ := Option.ite_none_right_eq_some.mp hs
  cases h
  obtain ⟨-, rfl⟩ := ht
  exact Int64.le_refl _

def opAnswer (k : Kernel) : (r : OpReq) → Option (r.Ans × Kernel)
  | .host c => k.hostAnswer c
  | .uninit => some (⟨.epoch, .epoch, .epoch, ⟨0, 0, .epoch⟩, ⟨0, 0, 0, 0, 0, 0, 0, 0⟩⟩, k)

theorem opAnswer_serve {k : Kernel} {r : OpReq} {x : r.Ans × Kernel} (hk : k.Ticking) (h : opAnswer k r = some x) :
    HostServe (Kernel.Host True) k r x.1 x.2 ∧ x.2.Ticking := by
  cases r with
  | host c => exact Kernel.host_hostAnswer hk h
  | uninit =>
    cases h
    exact ⟨rfl, hk⟩

end Nfs
