/-
The file server as its clients see it: one request, one step.

What is assumed of the server's file system is said about the stamps, the
pairs of modification and change times that the clients compare. A path
that comes to hold something else gets a stamp it has never had, and reading
changes at most the access time. So whatever happens, a path that shows an
old stamp still holds what it held then (`Evolves`); every request is a step
of this kind (`Serve.evolves`). The stamps a path has had are kept in the
state as history.

Any request may fail. A failed write may have stored a prefix of its data,
and a failed truncate may have been carried out, their last call being the
one that failed.
-/
import Nfs.ClientRules
import Nfs.Coherence

namespace Nfs

open PlainFile Resume

/-- What a path holds. -/
structure SFile where
  content : Bytes
  mode : UInt64
  time : FileTime

abbrev Stamp := TimeSpec × TimeSpec

structure Server where
  files : Str → Option SFile
  /-- The stamps a path has had. -/
  had : Str → Stamp → Prop
  own : ∀ {f s}, files f = some s → had f s.time.stamp

namespace Server

variable {w w' w'' : Server} {f g : Str}

def content (w : Server) (f : Str) : Option Bytes := (w.files f).map (·.content)

/-- The server has moved: a path whose stamp is not new holds what it held. -/
def Evolves (w w' : Server) : Prop :=
  ∀ f, (∀ t, w.had f t → w'.had f t) ∧ ∀ s', w'.files f = some s' → w.had f s'.time.stamp →
    ∃ s, w.files f = some s ∧ s.content = s'.content ∧ s.time.stamp = s'.time.stamp

theorem Evolves.refl (w : Server) : w.Evolves w := fun _ => ⟨fun _ h => h, fun s hs _ => ⟨s, hs, rfl, rfl⟩⟩

theorem Evolves.trans (h : w.Evolves w') (h' : w'.Evolves w'') : w.Evolves w'' := by
  intro f
  refine ⟨fun t ht => (h' f).1 t ((h f).1 t ht), fun s'' hs'' hh => ?_⟩
  obtain ⟨s', hs', hc', ht'⟩ := (h' f).2 s'' hs'' ((h f).1 _ hh)
  obtain ⟨s, hs, hc, ht⟩ := (h f).2 s' hs' (by rw [ht']; exact hh)
  exact ⟨s, hs, hc.trans hc', ht.trans ht'⟩

/-- `f` has been read: its access time may have changed, nothing else has. -/
def Peek (w : Server) (f : Str) (w' : Server) : Prop :=
  w'.had = w.had ∧ (∀ g, g ≠ f → w'.files g = w.files g) ∧
    ∃ t, w'.files f = (w.files f).map fun s => { s with time := { s.time with atime := t } }

/-- `f` holds `s'` now, under a new stamp; the stamp may be the old one if the
content is. -/
def Put (w : Server) (f : Str) (s' : SFile) (w' : Server) : Prop :=
  (∀ g, g ≠ f → w'.files g = w.files g) ∧ w'.files f = some s' ∧
    (∀ g t, w'.had g t ↔ w.had g t ∨ (g = f ∧ t = s'.time.stamp)) ∧
    (¬ w.had f s'.time.stamp ∨ ∃ s, w.files f = some s ∧ s.content = s'.content ∧ s.time.stamp = s'.time.stamp)

/-- Put `s'` at `f`. -/
def store (w : Server) (f : Str) (s' : SFile) : Server where
  files := Function.update w.files f (some s')
  had g t := w.had g t ∨ (g = f ∧ t = s'.time.stamp)
  own {g s} h := by
    by_cases hg : g = f
    · subst hg
      rw [Function.update_self] at h
      cases h
      exact .inr ⟨rfl, rfl⟩
    · rw [Function.update_of_ne hg] at h
      exact .inl (w.own h)

theorem put_store {s' : SFile}
    (h : ¬ w.had f s'.time.stamp ∨ ∃ s, w.files f = some s ∧ s.content = s'.content ∧ s.time.stamp = s'.time.stamp) :
    w.Put f s' (w.store f s') :=
  ⟨fun _ hg => Function.update_of_ne hg _ _, Function.update_self .., fun _ _ => Iff.rfl, h⟩

theorem Peek.evolves (h : w.Peek f w') : w.Evolves w' := by
  obtain ⟨hhad, ho, t, hf⟩ := h
  intro g
  refine ⟨fun _ hh => by rw [hhad]; exact hh, fun s' hs' _ => ?_⟩
  by_cases hg : g = f
  · subst hg
    rw [hf] at hs'
    obtain ⟨s, hs, rfl⟩ := Option.map_eq_some_iff.mp hs'
    exact ⟨s, hs, rfl, rfl⟩
  · rw [ho g hg] at hs'
    exact ⟨s', hs', rfl, rfl⟩

theorem Put.evolves {s' : SFile} (h : w.Put f s' w') : w.Evolves w' := by
  obtain ⟨ho, hf, hhad, hnew⟩ := h
  intro g
  refine ⟨fun t ht => (hhad g t).mpr (.inl ht), fun s hs hh => ?_⟩
  by_cases hg : g = f
  · subst hg
    rw [hf] at hs
    cases hs
    exact hnew.elim (fun hn => absurd hh hn) id
  · rw [ho g hg] at hs
    exact ⟨s, hs, rfl, rfl⟩

/-- A change of `f`: what it held before, what it holds now. -/
def Change (w : Server) (f : Str) (u : Bytes → Bytes) (s s' : SFile) (w' : Server) : Prop :=
  w.files f = some s ∧ w.Put f s' w' ∧ s'.content = u s.content

theorem Peek.content (h : w.Peek f w') : w'.content = w.content := by
  obtain ⟨-, ho, t, hf⟩ := h
  funext g
  by_cases hg : g = f
  · subst hg
    rw [Server.content, Server.content, hf, Option.map_map]
    rfl
  · rw [Server.content, Server.content, ho g hg]

section
variable {u : Bytes → Bytes} {s s' : SFile}

theorem Change.content (h : w.Change f u s s' w') : w'.content f = (w.content f).map u := by
  obtain ⟨hs, hp, hu⟩ := h
  rw [Server.content, Server.content, hp.2.1, hs, Option.map_some, Option.map_some, Option.map_some, hu]

theorem Change.other (h : w.Change f u s s' w') (hg : g ≠ f) : w'.files g = w.files g := h.2.1.1 g hg

theorem Change.content_other (h : w.Change f u s s' w') (g : Str) (hg : g ≠ f) : w'.content g = w.content g := by
  rw [Server.content, h.other hg, Server.content]

end

/-- One request. -/
def Serve (w : Server) : (r : Req) → r.Resp → Server → Prop
  | .access f, a, w' => w' = w ∧ (a.error = 0 → ∃ s, w.files f = some s ∧ a.time = s.time)
  | .stat f, a, w' => w' = w ∧ (a.error = 0 → ∃ s, w.files f = some s ∧ a.size = s.content.length ∧
      a.mode = s.mode ∧ a.time = s.time)
  | .statfs, _, w' => w' = w
  | .readdir f, _, w' => w.Peek f w'
  | .read f offset size, a, w' => w.Peek f w' ∧
      (a.error = 0 → ∃ s, w.files f = some s ∧ a.data = pread s.content offset size)
  | .write f offset data, a, w' =>
      (a.error = 0 → ∃ s s', w.Change f (pwrite · offset data) s s' w' ∧ a.beforeChange = s.time ∧
        a.afterChange = s'.time) ∧
      (a.error ≠ 0 → w' = w ∨ ∃ k s s', w.Change f (pwrite · offset (data.take k)) s s' w')
  | .truncate f offset, a, w' =>
      (a.error = 0 → ∃ s s', w.Change f (ftruncate · offset) s s' w' ∧ a.beforeChange = s.time ∧
        a.afterChange = s'.time) ∧
      (a.error ≠ 0 → w' = w ∨ ∃ s s', w.Change f (ftruncate · offset) s s' w')
  | .create f, a, w' => (a.error = 0 → w.Evolves w' ∧ w'.content f = some []) ∧ (a.error ≠ 0 → w' = w)
  | .unlink f, a, w' => (a.error = 0 → w.Evolves w' ∧ w'.files f = none) ∧ (a.error ≠ 0 → w' = w)
  | .rmdir f, a, w' => (a.error = 0 → w.Evolves w' ∧ w'.files f = none) ∧ (a.error ≠ 0 → w' = w)
  | .mkdir f _, a, w' => (a.error = 0 → w.Evolves w' ∧ w.files f = none ∧ (w'.files f).isSome) ∧
      (a.error ≠ 0 → w' = w)
  | .rename f g _, a, w' => (a.error = 0 → w.Evolves w' ∧ (w.files f).isSome ∧ w'.content g = w.content f ∧
      (f ≠ g → w'.files f = none)) ∧ (a.error ≠ 0 → w' = w)

/-- What the attributes say. -/
theorem Serve.stat_content {resp : StatResp} (h : w.Serve (.stat f) resp w') (he : resp.error = 0) :
    ∃ c, w.content f = some c ∧ c.length = resp.size := by
  obtain ⟨s, hf, hsize, -⟩ := h.2 he
  exact ⟨s.content, by rw [Server.content, hf]; rfl, hsize.symm⟩

/-- What a fetch brings; past the end of the file it is zeros. -/
theorem Serve.read_content {n off : Nat} {resp : ReadResp n} (h : w.Serve (.read f off n) resp w')
    (he : (doRead resp).err = 0) :
    ∃ c, w.content f = some c ∧ ∀ i, i < n → byteAt (doRead resp).data i = byteAt c (off + i) := by
  rw [doRead_error] at he
  obtain ⟨s, hf, hd⟩ := h.2 he
  refine ⟨s.content, by rw [Server.content, hf]; rfl, fun i hi => ?_⟩
  rw [doRead_ok he, hd, byteAt_pread, if_pos hi]

theorem Serve.write_change {off : Nat} {data : Bytes} {resp : ChangeResp} (h : w.Serve (.write f off data) resp w') :
    w' = w ∨ ∃ k s s', w.Change f (pwrite · off (data.take k)) s s' w' := by
  by_cases he : resp.error = 0
  · obtain ⟨s, s', hc, -⟩ := h.1 he
    exact .inr ⟨data.length, s, s', by rw [List.take_length]; exact hc⟩
  · exact h.2 he

theorem Serve.truncate_change {n : Nat} {resp : ChangeResp} (h : w.Serve (.truncate f n) resp w') :
    (w' = w ∧ resp.error ≠ 0) ∨ ∃ s s', w.Change f (ftruncate · n) s s' w' := by
  by_cases he : resp.error = 0
  · obtain ⟨s, s', hc, -⟩ := h.1 he
    exact .inr ⟨s, s', hc⟩
  · exact (h.2 he).imp_left fun hw => ⟨hw, he⟩

/-- **Every request** leaves a path that shows an old stamp with what it held. -/
theorem Serve.evolves {r : Req} {a : r.Resp} (h : w.Serve r a w') : w.Evolves w' := by
  have hid : ∀ {v : Server}, v = w → w.Evolves v := fun hv => hv ▸ .refl w
  cases r with
  | access f => exact hid h.1
  | stat f => exact hid h.1
  | statfs => exact hid h
  | readdir f => exact Peek.evolves h
  | read f off n => exact Peek.evolves h.1
  | write f off data =>
    obtain hw | ⟨k, s, s', hc⟩ := Serve.write_change h
    · exact hid hw
    · exact hc.2.1.evolves
  | truncate f n =>
    obtain ⟨hw, -⟩ | ⟨s, s', hc⟩ := Serve.truncate_change h
    · exact hid hw
    · exact hc.2.1.evolves
  | create f | unlink f | rmdir f | mkdir f _ | rename f g _ =>
    by_cases he : (a : ErrorResp).error = 0
    · exact (h.1 he).1
    · exact hid (h.2 he)

/-- How a server answers that lets nothing be changed (error 30). -/
def readOnly (w : Server) : (r : Req) → r.Resp
  | .access f => match w.files f with
    | some s => { error := 0, time := s.time }
    | none => { error := 2, time := .epoch }
  | .stat f => match w.files f with
    | some s => { error := 0, size := s.content.length, mode := s.mode, time := s.time }
    | none => { error := 2, size := 0, mode := 0, time := .epoch }
  | .statfs => { error := 38, stat := ⟨0, 0, 0, 0, 0, 0, 0, 0⟩ }
  | .readdir _ => { error := 38, dirNames := [] }
  | .read f offset size => match w.files f with
    | some s => { error := 0, data := pread s.content offset size, bound := by simp }
    | none => { error := 2, data := [], bound := Nat.zero_le _ }
  | .write .. => { error := 30, beforeChange := .epoch, afterChange := .epoch }
  | .truncate .. => { error := 30, beforeChange := .epoch, afterChange := .epoch }
  | .create _ => { error := 30 }
  | .unlink _ => { error := 30 }
  | .rmdir _ => { error := 30 }
  | .mkdir .. => { error := 30 }
  | .rename .. => { error := 30 }

theorem serve_readOnly (w : Server) (r : Req) : w.Serve r (w.readOnly r) w := by
  have hpeek : ∀ f, w.Peek f w := by
    intro f
    refine ⟨rfl, fun _ _ => rfl, ?_⟩
    cases hf : w.files f with
    | none => exact ⟨⟨0, 0⟩, rfl⟩
    | some s => exact ⟨s.time.atime, rfl⟩
  have hro : (30 : Int) ≠ 0 := by decide
  cases r with
  | access f =>
    refine ⟨rfl, fun he => ?_⟩
    cases hf : w.files f with
    | none => simp [readOnly, hf] at he
    | some s => exact ⟨s, rfl, by simp [readOnly, hf]⟩
  | stat f =>
    refine ⟨rfl, fun he => ?_⟩
    cases hf : w.files f with
    | none => simp [readOnly, hf] at he
    | some s => exact ⟨s, rfl, by simp [readOnly, hf], by simp [readOnly, hf], by simp [readOnly, hf]⟩
  | statfs => rfl
  | readdir f => exact hpeek f
  | read f off n =>
    refine ⟨hpeek f, fun he => ?_⟩
    cases hf : w.files f with
    | none => simp [readOnly, hf] at he
    | some s => exact ⟨s, rfl, by simp [readOnly, hf]⟩
  | write f off data => exact ⟨fun he => absurd he hro, fun _ => .inl rfl⟩
  | truncate f n => exact ⟨fun he => absurd he hro, fun _ => .inl rfl⟩
  | create f | unlink f | rmdir f | mkdir f _ | rename f g _ => exact ⟨fun he => absurd he hro, fun _ => rfl⟩

/-! ## What a stamp vouches for -/

/-- The server as one of several clients meets it: while a request is
pending, the others' requests are served. -/
def service : Service Server := { serve := Serve, rely := Evolves, seen := fun _ _ => True }

/-- A file that is not marked stale is vouched for by the path's current
stamp. -/
def backing : Backing Server where
  content := content
  known w f t := w.had f t.stamp
  trusts w f t stale := stale = false ∧ ∃ s, w.files f = some s ∧ s.time.stamp = t.stamp

variable {Spec : Str → Bytes → Prop}

theorem Evolves.still (h : w.Evolves w') (hspec : ∀ f c, Spec f c) (f : Str) : backing.Still Spec w w' f := by
  refine ⟨fun hk => (h f).1 _ hk, fun {t b} hk ht => ?_, fun _ c _ => hspec f c⟩
  obtain ⟨hb, s', hs', ht'⟩ := ht
  obtain ⟨s, hs, hc, hst⟩ := (h f).2 s' hs' (by rw [ht']; exact hk)
  refine ⟨⟨hb, s, hs, hst.trans ht'⟩, ?_⟩
  show (w'.files f).map _ = (w.files f).map _
  rw [hs, hs', Option.map_some, Option.map_some, hc]

/-- An answer to a change that leaves the file unmarked: the stamp before it
was the cached one. -/
theorem unmarked {before cached : FileTime} {stale : Bool}
    (h : (if before.ne cached then true else stale) = false) : stale = false ∧ before.stamp = cached.stamp := by
  split at h
  · cases h
  · rename_i hne
    exact ⟨h, not_not.mp fun hn => hne (FileTime.ne_iff.mpr hn)⟩

/-- An answered change: its second stamp is the server's, and an unmarked file
was the server's before it. -/
theorem Change.vouches {u : Bytes → Bytes} {s s' : SFile} {before after t : FileTime} {stale : Bool}
    (h : w.Change f u s s' w') (hbe : before = s.time) (haf : after = s'.time) : backing.known w' f after ∧
      (backing.trusts w' f after (if before.ne t then true else stale) → backing.trusts w f t stale ∧
        ∀ c, backing.content w f = some c → backing.content w' f = some (u c)) := by
  subst hbe haf
  refine ⟨w'.own h.2.1.2.1, fun ht => ?_⟩
  obtain ⟨hb, hst⟩ := unmarked ht.1
  exact ⟨⟨hb, s, h.1, hst⟩, fun c hc => h.content.trans (congrArg _ hc)⟩

/-- **The server backs its clients' caches**: a cached file whose stamp is
the current one and that is not marked stale is what the server holds. -/
theorem backs (hspec : ∀ f c, Spec f c) : Backs service.back backing Spec True True := by
  refine ⟨fun _ _ => trivial, fun hr g => Evolves.still hr hspec g, ?_, ?_, ?_, ?_⟩
  · rintro w w' f _ ⟨resp, hs, rfl⟩
    have hev : w.Evolves w' := Serve.evolves (r := .stat f) hs
    refine ⟨fun g => hev.still hspec g, fun _ => trivial, fun he => ?_⟩
    obtain ⟨rfl, hok⟩ := hs
    obtain ⟨s, hf, hsize, -, ht⟩ := hok he
    refine ⟨?_, s.content, ?_, hsize.symm⟩
    · show w'.had f (resp : StatResp).time.stamp
      rw [ht]
      exact w'.own hf
    · show (w'.files f).map _ = _
      rw [hf]
      rfl
  · rintro w w' f off n _ ⟨resp, hs, rfl⟩
    have hev : w.Evolves w' := Serve.evolves (r := .read f off n) hs
    refine ⟨fun g => hev.still hspec g, fun _ => trivial, fun he => ?_⟩
    obtain ⟨c, hc, hd⟩ := Serve.read_content hs he
    exact ⟨c, (congrFun hs.1.content f).trans hc, hd⟩
  · rintro w w' f off data t b a ⟨resp, hs, ha⟩ hk
    have hev : w.Evolves w' := Serve.evolves (r := .write f off data) hs
    refine ⟨fun g _ => hev.still hspec g, fun _ => trivial, ?_⟩
    by_cases he : (resp : ChangeResp).error = 0
    · obtain ⟨s, s', hc, hbe, haf⟩ := hs.1 he
      obtain rfl : a = _ := ha.trans (doWrite_ok he)
      obtain ⟨hknown, htrusts⟩ := hc.vouches hbe haf
      refine ⟨hknown, fun ht => ⟨(htrusts ht).1, fun _ => rfl, fun c hcont => ?_⟩⟩
      refine ⟨data.length, le_refl _, fun _ => rfl, ?_⟩
      rw [List.take_length]
      exact (htrusts ht).2 c hcont
    · obtain rfl : a = _ := ha.trans (doWrite_err he)
      exact ⟨(hev f).1 _ hk, fun ht => by cases ht.1⟩
  · rintro w w' f attr b a ⟨resp, hs, ha⟩ hk
    have hev : w.Evolves w' := Serve.evolves (r := .truncate f attr.size) hs
    refine ⟨fun g _ => hev.still hspec g, fun _ => trivial, ?_⟩
    by_cases he : (resp : ChangeResp).error = 0
    · obtain ⟨s, s', hc, hbe, haf⟩ := hs.1 he
      obtain rfl : a = _ := ha.trans (doWriteAttr_ok he)
      obtain ⟨hknown, htrusts⟩ := hc.vouches hbe haf
      refine ⟨rfl, hknown, fun ht => ⟨(htrusts ht).1, fun _ => rfl, fun c hcont => ?_⟩⟩
      rw [if_pos rfl]
      exact (htrusts ht).2 c hcont
    · obtain rfl : a = _ := ha.trans (doWriteAttr_err he)
      exact ⟨rfl, (hev f).1 _ hk, fun ht => by cases ht.1⟩

end Server

end Nfs
