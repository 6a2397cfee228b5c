/-
The mounted file system is a disk.

`Disk` is what a program that uses the mounted file system has to know:
the contents of the files, and which files may have bytes that the server
has not got yet. `Disk.Serve` says what every callback returns and does, with
no word about caches, blocks or requests. A file that is not there is an
error, any other is read and written as a plain file; only the size that
`getattr` shows needs the file to be sent.

`Mounted` is what holds between a disk, the files a client caches and the
server it is alone with: what is cached stands for what is on the disk, and
its stamps are the server's. The callbacks that are not followed are those
that break this: an empty write, a cut inside a block that is cached, a
`create` of a file that is there, which the cache does not notice, and the
`rename` of a file that is not sent, which loses data.

Everything stays below `N` bytes, a multiple of the block size. So all
requests are such as can be sent and sought.
-/
import Nfs.Errors
import Nfs.Mount
import Nfs.ServerView

namespace Nfs

open PlainFile Resume

/-! ## Disks -/

/-- The files, and those that may have bytes that are not sent. -/
structure Disk where
  files : PlainFiles
  unsent : Str → Prop

namespace Disk

variable (D : Disk) (f : Str)

def put (c : Option Bytes) : Disk := { D with files := Function.update D.files f c }

def modify (u : Bytes → Bytes) : Disk := D.put f ((D.files f).map u)

def mark : Disk := { D with unsent := fun g => g = f ∨ D.unsent g }

def settle : Disk := { D with unsent := fun g => g ≠ f ∧ D.unsent g }

/-- What happens to a file that is there; there is an error if it is not. -/
def On (ret : Int) (D' : Disk) (R : Bytes → Prop) : Prop :=
  match D.files f with
  | some l => R l
  | none => ret < 0 ∧ D' = D

section
variable {D f} {g : Str} {c : Option Bytes} {u : Bytes → Bytes} {l : Bytes} {ret : Int} {D' : Disk} {R : Bytes → Prop}

theorem put_self : (D.put f c).files f = c := Function.update_self ..

theorem put_other (h : g ≠ f) : (D.put f c).files g = D.files g := Function.update_of_ne h ..

theorem modify_eq (h : D.files f = some l) : D.modify f u = D.put f (some (u l)) := by
  rw [modify, h, Option.map_some]

theorem modify_some (h : D.files f = some l) : (D.modify f u).files f = some (u l) := by
  rw [modify_eq h, put_self]

theorem modify_self (h : D.files f = some l) (hu : u l = l) : D.modify f u = D := by
  have hf : Function.update D.files f (some l) = D.files := by rw [← h, Function.update_eq_self]
  rw [modify_eq h, hu, put, hf]

theorem on_some (h : D.files f = some l) (hR : R l) : D.On f ret D' R := by
  unfold On
  rw [h]
  exact hR

theorem on_none (h : D.files f = none) (hlt : ret < 0) : D.On f ret D R := by
  unfold On
  rw [h]
  exact ⟨hlt, rfl⟩

end

end Disk

/-- What is known of the names: which are directories, and which a program may
use. -/
structure Tree where
  dirs : Str → Prop
  mine : Str → Prop

section
variable (T : Tree)

/-- The name of a file: the paths above it are directories, it is not. -/
def IsFile (f : Str) : Prop := ¬ T.dirs f ∧ ∀ x, Above f x → T.dirs x

def IsDir (f : Str) : Prop := T.dirs f ∧ ∀ x, Above f x → T.dirs x

/-- **One callback**. -/
def Disk.Serve (D : Disk) : (c : Callback) → c.Ret → Disk → Prop
  | .getattr f, ret, D' => D' = D ∧ (IsFile T f → D.On f ret.1 D' fun l =>
      ret.1 = 0 ∧ ∃ attr, ret.2 = some attr ∧ (¬ D.unsent f → attr.size = l.length))
  | .read f size offset, ret, D' => D.On f ret.1 D' fun l =>
      D' = D ∧ ret.2 = pread l offset size ∧ ret.1 = ret.2.length
  | .write f buf offset, ret, D' => D.On f ret D' fun _ =>
      ret = buf.length ∧ D' = (D.modify f (pwrite · offset buf)).mark f
  | .open_ f trunc, ret, D' => D.On f ret D' fun _ => ret = 0 ∧ D' = if trunc then D.put f (some []) else D
  | .create f, ret, D' => ret = 0 ∧ D' = (D.put f (some [])).settle f ∨ ret < 0 ∧ D' = D
  | .truncate f n, ret, D' => D.On f ret D' fun _ => ret = 0 ∧ D' = D.modify f (ftruncate · n)
  | .unlink f, ret, D' => D.On f ret D' fun _ => ret = 0 ∧ D' = (D.put f none).settle f
  | .flush f, ret, D' => ret = 0 ∧ D' = D.settle f
  | .rename f g _, ret, D' => D.On f ret D' fun l => ret = 0 ∧ D' = ((D.put f none).put g (some l)).settle g
  | .readdir _, _, D' => D' = D
  | .rmdir _, _, D' => D' = D
  | .mkdir _, _, D' => D' = D
  | .statfs, _, D' => D' = D
  | .chmod, ret, D' => ret = 0 ∧ D' = D
  | .chown, ret, D' => ret = 0 ∧ D' = D

/-- A name that can be sent and is a path on the server. -/
structure Tree.Named (f : Str) : Prop where
  nonzero : 0 ∉ f
  short : f.length < 2 ^ 31
  mine : T.mine f

/-- The callbacks that are followed, for blocks of `B` bytes and files of up to
`N`. -/
def Disk.Follows (B N : Nat) (D : Disk) : Callback → Prop
  | .getattr f => T.Named f
  | .readdir f => T.Named f
  | .read f size offset => T.Named f ∧ IsFile T f ∧ offset + size ≤ N
  | .write f buf offset => T.Named f ∧ IsFile T f ∧ buf ≠ [] ∧ offset + buf.length ≤ N
  | .open_ f _ => T.Named f ∧ IsFile T f
  | .create f => T.Named f ∧ IsFile T f ∧ D.files f = none
  | .truncate f n => T.Named f ∧ IsFile T f ∧ n ≤ N ∧ ∀ l, D.files f = some l → l.length ≤ n ∨ B ∣ n
  | .unlink f => T.Named f ∧ IsFile T f
  | .rmdir f => T.Named f ∧ IsDir T f
  | .mkdir f => T.Named f ∧ IsDir T f
  | .flush f => T.Named f ∧ IsFile T f
  | .rename f g _ => T.Named f ∧ IsFile T f ∧ T.Named g ∧ IsFile T g ∧ ¬ D.unsent f
  | .statfs => True
  | .chmod => True
  | .chown => True

end

/-! ## One file -/

/-- The cached file stands for `l`, and its stamp is that of `s`. -/
structure Stands (B N : Nat) (fc : FileCache) (s : SFile) (l : Bytes) : Prop where
  fresh : fc.stale = false
  stamp : fc.attr.time.stamp = s.time.stamp
  bound : ∀ x, (fc.byte B x).isSome → x < N
  synced : Synced B fc s.content l

/-- The same before the size is sent: the server's file may be longer. -/
structure Sizing (B N : Nat) (settled : Prop) (fc : FileCache) (s : SFile) (l : Bytes) : Prop where
  fresh : fc.stale = false
  stamp : fc.attr.time.stamp = s.time.stamp
  bound : ∀ x, (fc.byte B x).isSome → x < N
  size : l.length = fc.attr.size
  byte : ∀ {x v}, fc.byte B x = some v → v = byteAt l x
  rest : ∀ x, x < fc.attr.size → (fc.byte B x = none ∨ ¬ fc.dirtyAt B x) → byteAt s.content x = byteAt l x
  clean : settled → fc.AllClean

/-- The same between two callbacks. -/
structure Tidy (B N : Nat) (settled : Prop) (fc : FileCache) (s : SFile) (l : Bytes) : Prop where
  stands : Stands B N fc s l
  length : fc.AllClean → s.content.length = l.length
  clean : settled → fc.AllClean

section
variable {B N : Nat} {fc fc' : FileCache} {s s' : SFile} {l : Bytes} {settled : Prop}

theorem Stands.ofAttr {attr : FileAttr} (hsize : attr.size = s.content.length) (ht : attr.time = s.time) :
    Stands B N (.ofAttr attr) s s.content := by
  refine ⟨rfl, congrArg FileTime.stamp ht, fun x hx => ?_, .ofAttr hsize.symm⟩
  simp [FileCache.byte, FileCache.ofAttr] at hx

theorem Stands.filled {start n : Nat} {data : Bytes} (h : Stands B N fc s l) (hB : 0 < B)
    (hf : fc.Filled B start n data fc') (hd : ∀ i, i < n * B → byteAt data i = byteAt s.content (start * B + i))
    (hN : start * B + n * B ≤ N) : Stands B N fc' s l := by
  refine ⟨hf.stale.trans h.fresh, by rw [hf.attr]; exact h.stamp, fun x hx => ?_, h.synced.filled hf fun x h₁ h₂ => ?_⟩
  · rw [hf.byte] at hx
    split at hx
    · rename_i hr
      obtain ⟨hle, hlt⟩ := Cache.run_offset hB hr.1 hr.2
      omega
    · exact h.bound x hx
  · obtain ⟨hle, hlt⟩ := Cache.run_offset hB h₁ h₂
    rw [hd _ hlt]
    congr 1
    omega

theorem Stands.stored {off : Nat} {buf : Bytes} (h : Stands B N fc s l) (hne : buf ≠ [])
    (hst : fc.Stored B off buf fc') (hN : off + buf.length ≤ N) : Stands B N fc' s (pwrite l off buf) := by
  refine ⟨hst.stale.trans h.fresh, by rw [hst.attr]; exact h.stamp, fun x hx => ?_, h.synced.stored hne hst⟩
  rw [hst.byte] at hx
  split at hx
  · omega
  · exact h.bound x hx

/-- What is sent lies within the bounds. -/
theorem Stands.extent {off : Nat} {data : Bytes} (h : Stands B N fc s l) (hx : fc.Extent B off data) :
    off + data.length ≤ N := by
  have hpos := List.length_pos_of_ne_nil hx.nonempty
  have hlast := h.bound (off + (data.length - 1)) (by rw [hx.byte _ (by omega)]; rfl)
  omega

theorem Stands.sent {off : Nat} {data : Bytes} (h : Stands B N fc s l) (hx : fc.Extent B off data)
    (hc : s'.content = pwrite s.content off data) : Stands B N (fc.restamp s'.time false) s' l ∧
      ∀ x, off ≤ x → x < off + data.length → byteAt s'.content x = byteAt l x := by
  obtain ⟨hsync, hin⟩ := h.synced.sent (k := data.length) (t := s'.time) (s := false) hx
  rw [List.take_length, ← hc] at hsync hin
  exact ⟨⟨rfl, rfl, h.bound, hsync⟩, hin⟩

theorem Stands.cleaned {S : Nat → Prop} (h : Stands B N fc s l) (hS : ∀ x, S x → byteAt s.content x = byteAt l x)
    (hall : ∀ x, fc.dirtyAt B x → (fc.byte B x).isSome → S x) (hc : fc.Cleaned B fc') : Stands B N fc' s l := by
  refine ⟨hc.stale.trans h.fresh, by rw [hc.attr]; exact h.stamp, fun x hx => ?_, h.synced.cleaned hS hall hc⟩
  rw [hc.byte] at hx
  exact h.bound x hx

theorem Stands.thinned (h : Stands B N fc s l) (hc : fc.AllClean) (ht : fc.Thinned fc') : Stands B N fc' s l := by
  refine ⟨ht.stale.trans h.fresh, by rw [ht.attr]; exact h.stamp, fun x hx => ?_, h.synced.thinned hc ht⟩
  obtain ⟨v, hv⟩ := Option.isSome_iff_exists.mp hx
  obtain ⟨e, he, hv⟩ := Option.bind_eq_some_iff.mp hv
  have hb : fc.byte B x = some v := Option.bind_eq_some_iff.mpr ⟨e, ht.entries _ e he, hv⟩
  exact h.bound x (by rw [hb]; rfl)

theorem Stands.sizing (h : Stands B N fc s l) (hc : settled → fc.AllClean) : Sizing B N settled fc s l :=
  ⟨h.fresh, h.stamp, h.bound, h.synced.size, h.synced.byte, fun x _ => h.synced.rest x, hc⟩

theorem Tidy.filled {start n : Nat} {data : Bytes} (h : Tidy B N settled fc s l) (hB : 0 < B)
    (hf : fc.Filled B start n data fc') (hd : ∀ i, i < n * B → byteAt data i = byteAt s.content (start * B + i))
    (hN : start * B + n * B ≤ N) : Tidy B N settled fc' s l := by
  have hclean : fc'.AllClean ↔ fc.AllClean := by
    rw [FileCache.allClean_iff hB, FileCache.allClean_iff hB]
    exact forall_congr' fun x => not_congr (hf.dirty x)
  exact ⟨h.stands.filled hB hf hd hN, fun hc => h.length (hclean.mp hc), fun hs => hclean.mpr (h.clean hs)⟩

/-- What the cached file stands for is cut, or zeros are added. -/
theorem Synced.cut {srv : Bytes} {n : Nat} (h : Synced B fc srv l) (hr : fc.Resized B n fc')
    (hclean : fc.CutClean B n) : (∀ {x v}, fc'.byte B x = some v → v = byteAt (ftruncate l n) x) ∧
      ∀ x, x < n → (fc'.byte B x = none ∨ ¬ fc'.dirtyAt B x) → byteAt srv x = byteAt (ftruncate l n) x := by
  -- As for any backing; this one holds one file.
  let bk : Backing Unit := ⟨fun _ _ => some srv, fun _ _ _ => True, fun _ _ _ _ => True⟩
  have hco : Coherent bk B False (fun _ => False) (fun _ c => c = l) (fun _ => some fc) () :=
    fun _ => ⟨trivial, fun _ _ => ⟨srv, l, rfl, rfl, h, False.elim⟩⟩
  have hcut : Resizing bk B False (fun _ => False) (fun g c => g = [] → c = ftruncate l n) []
      (Files.set (fun _ => some fc) [] fc') () :=
    hco.resizing rfl hr (fun _ => id) (fun _ => hclean) (by rintro c rfl _; rfl) fun g hg _ _ h => absurd h hg
  obtain ⟨-, fc₁, hf₁, -, hv⟩ := hcut
  rw [Files.set_self] at hf₁
  cases hf₁
  obtain ⟨srv', l', hsrv, hl, -, hby, hrest⟩ := hv id trivial
  cases hsrv
  obtain rfl := hl rfl
  have hsize : fc'.attr.size = n := by rw [hr.attr]
  rw [hsize] at hrest
  exact ⟨hby, hrest⟩

theorem Tidy.cut {n : Nat} (h : Tidy B N settled fc s l) (hr : fc.Resized B n fc') (hclean : fc.CutClean B n) :
    Sizing B N settled fc' s (ftruncate l n) := by
  have hold : ∀ {b e}, fc'.entries.lookup b = some e → fc.entries.lookup b = some e := by
    intro b e he
    rw [hr.entries] at he
    split at he
    · cases he
    · exact he
  obtain ⟨hby, hrest⟩ := h.stands.synced.cut hr hclean
  have hsize : fc'.attr.size = n := by rw [hr.attr]
  refine ⟨hr.stale.trans h.stands.fresh, by rw [hr.attr]; exact h.stands.stamp, fun x hx => ?_,
    by rw [length_ftruncate, hsize], hby, by rw [hsize]; exact hrest, fun hs b e he => h.clean hs b e (hold he)⟩
  obtain ⟨v, hv⟩ := Option.isSome_iff_exists.mp hx
  obtain ⟨e, he, hv⟩ := Option.bind_eq_some_iff.mp hv
  have hb : fc.byte B x = some v := Option.bind_eq_some_iff.mpr ⟨e, hold he, hv⟩
  exact h.stands.bound x (by rw [hb]; rfl)

/-- The size is sent. -/
theorem Sizing.done (h : Sizing B N settled fc s l) (hc : s'.content = ftruncate s.content fc.attr.size) :
    Tidy B N settled { fc with attr := { fc.attr with time := s'.time }, stale := false } s' l := by
  refine ⟨⟨rfl, rfl, h.bound, ?_⟩, fun _ => ?_, h.clean⟩
  · rw [hc]
    exact .resized h.size h.byte h.rest rfl
  · rw [hc, length_ftruncate, h.size]

end

/-! ## All files -/

section
variable (T : Tree) (B N : Nat) (D : Disk)

/-- The server's file `o`, cached or not, and the disk's. -/
def Backed (f : Str) (o : Option SFile) : Option FileCache → Prop
  | none => o.map (·.content) = D.files f
  | some fc => ∃ s l, o = some s ∧ D.files f = some l ∧ Tidy B N (¬ D.unsent f) fc s l

/-- The invariant, for the names that satisfy `P`. -/
structure MountedOn (P : Str → Prop) (V : Files) (w : Server) : Prop where
  held : ∀ f, IsFile T f → P f → Backed B N D f (w.files f) (V f)
  name : ∀ f fc, V f = some fc → T.Named f ∧ IsFile T f
  fits : ∀ f l, IsFile T f → D.files f = some l → l.length ≤ N

/-- **The invariant.** -/
abbrev Mounted : Files → Server → Prop := MountedOn T B N D fun _ => True

/-- The invariant while `f` is worked on. -/
def Amid (f : Str) (R : FileCache → SFile → Bytes → Prop) (V : Files) (w : Server) : Prop :=
  MountedOn T B N D (· ≠ f) V w ∧ ∃ fc s l, V f = some fc ∧ w.files f = some s ∧ D.files f = some l ∧ R fc s l

/-- How far a write-back has come. -/
def During (settled : Prop) : Phase → FileCache → SFile → Bytes → Prop
  | .sending S, fc, s, l => Stands B N fc s l ∧ ∀ x, S x → byteAt s.content x = byteAt l x
  | .owing, fc, s, l => Sizing B N settled fc s l

end

section
variable {T : Tree} {B N : Nat} {D D' : Disk} {V V' : Files} {w w' : Server} {f g : Str} {P P' : Str → Prop}
  {fc fc' : FileCache} {s s' : SFile} {l : Bytes} {o : Option SFile} {c : Option FileCache}
  {R R' : FileCache → SFile → Bytes → Prop}

theorem Backed.disk (h : Backed B N D f o c) (hf : D'.files f = D.files f) (hu : D.unsent f → D'.unsent f) :
    Backed B N D' f o c := by
  cases c with
  | none => exact Eq.trans h hf.symm
  | some fc =>
    obtain ⟨s, l, ho, hl, hst, hlen, hclean⟩ := h
    exact ⟨s, l, ho, hf.trans hl, hst, hlen, fun hn => hclean fun h => hn (hu h)⟩

/-- The file has been read. -/
theorem Backed.peek {t : TimeSpec} (h : Backed B N D f o c) :
    Backed B N D f (o.map fun s => { s with time := { s.time with atime := t } }) c := by
  cases c with
  | none =>
    show (o.map _).map _ = _
    rw [Option.map_map]
    exact h
  | some fc =>
    obtain ⟨s, l, rfl, hl, hst, hlen, hclean⟩ := h
    exact ⟨_, l, rfl, hl, ⟨hst.fresh, hst.stamp, hst.bound, hst.synced⟩, hlen, hclean⟩

/-- The file is on the server if it is on the disk. -/
theorem Backed.files_none (h : Backed B N D f o c) (ho : o = none) : D.files f = none ∧ c = none := by
  subst ho
  cases c with
  | none => exact ⟨Eq.symm h, rfl⟩
  | some fc =>
    obtain ⟨s, l, ho, -⟩ := h
    cases ho

theorem Backed.not_cached (h : Backed B N D f o c) (hD : D.files f = none) : o = none ∧ c = none := by
  cases c with
  | none => exact ⟨Option.map_eq_none_iff.mp (Eq.trans h hD), rfl⟩
  | some fc =>
    obtain ⟨s, l, -, hl, -⟩ := h
    rw [hD] at hl
    cases hl

/-- A file of which everything is sent is as the server has it. -/
theorem Backed.sent (h : Backed B N D f o c) (hu : ¬ D.unsent f) : o.map (·.content) = D.files f := by
  cases c with
  | none => exact h
  | some fc =>
    obtain ⟨s, l, rfl, hl, hst, hlen, hclean⟩ := h
    have hc := hclean hu
    have heq : s.content = l := ext_byteAt (hlen hc) fun x => hst.synced.rest x (.inr hc.not_dirtyAt)
    rw [hl, ← heq]
    rfl

theorem Mounted.but (h : Mounted T B N D V w) (f : Str) : MountedOn T B N D (· ≠ f) V w :=
  ⟨fun g hg _ => h.held g hg trivial, h.name, h.fits⟩

theorem MountedOn.whole (h : MountedOn T B N D (· ≠ f) V w)
    (hf : IsFile T f → Backed B N D f (w.files f) (V f)) : Mounted T B N D V w := by
  refine ⟨fun g hg _ => ?_, h.name, h.fits⟩
  by_cases hgf : g = f
  · subst hgf
    exact hf hg
  · exact h.held g hg hgf

/-- Whatever happens to `f`. -/
theorem MountedOn.update (h : MountedOn T B N D (· ≠ f) V w)
    (hw : ∀ g, IsFile T g → g ≠ f → w'.files g = w.files g) (hV : ∀ g, g ≠ f → V' g = V g)
    (hn : ∀ fc, V' f = some fc → T.Named f ∧ IsFile T f)
    (hD : ∀ g, g ≠ f → D'.files g = D.files g ∧ (D.unsent g → D'.unsent g))
    (hfits : ∀ l, IsFile T f → D'.files f = some l → l.length ≤ N) : MountedOn T B N D' (· ≠ f) V' w' := by
  refine ⟨fun g hg hgf => ?_, fun g fc hfc => ?_, fun g l hg hl => ?_⟩
  · rw [hw g hg hgf, hV g hgf]
    exact (h.held g hg hgf).disk (hD g hgf).1 (hD g hgf).2
  · by_cases hgf : g = f
    · subst hgf
      exact hn fc hfc
    · rw [hV g hgf] at hfc
      exact h.name g fc hfc
  · by_cases hgf : g = f
    · subst hgf
      exact hfits l hg hl
    · rw [(hD g hgf).1] at hl
      exact h.fits g l hg hl

theorem MountedOn.set (h : MountedOn T B N D (· ≠ f) V w) (hn : T.Named f ∧ IsFile T f)
    (hw : ∀ g, g ≠ f → w'.files g = w.files g) : MountedOn T B N D (· ≠ f) (V.set f fc) w' :=
  h.update (fun g _ hgf => hw g hgf) (fun _ hgf => Files.set_other hgf) (fun _ _ => hn) (fun _ _ => ⟨rfl, id⟩)
    fun l => h.fits f l

/-- The invariant, at a file that is cached. -/
theorem Mounted.file (h : Mounted T B N D V w) (hf : V f = some fc) :
    ∃ s l, w.files f = some s ∧ D.files f = some l ∧ Tidy B N (¬ D.unsent f) fc s l := by
  have hb := h.held f (h.name f fc hf).2 trivial
  rwa [hf] at hb

theorem Amid.file (h : Amid T B N D f R V w) (hf : V f = some fc) :
    ∃ s l, w.files f = some s ∧ D.files f = some l ∧ R fc s l := by
  obtain ⟨-, fc₁, s, l, hf₁, hs, hl, hR⟩ := h
  cases hf.symm.trans hf₁
  exact ⟨s, l, hs, hl, hR⟩

theorem Mounted.set (h : MountedOn T B N D (· ≠ f) V w) (hn : T.Named f ∧ IsFile T f)
    (hw : ∀ g, g ≠ f → w'.files g = w.files g) (hs : w'.files f = some s) (hl : D.files f = some l)
    (hR : Tidy B N (¬ D.unsent f) fc s l) : Mounted T B N D (V.set f fc) w' := by
  refine (h.set hn hw).whole fun _ => ?_
  rw [Files.set_self]
  exact ⟨s, l, hs, hl, hR⟩

theorem Amid.set (h : MountedOn T B N D (· ≠ f) V w) (hn : T.Named f ∧ IsFile T f)
    (hw : ∀ g, g ≠ f → w'.files g = w.files g) (hs : w'.files f = some s) (hl : D.files f = some l)
    (hR : R fc s l) : Amid T B N D f R (V.set f fc) w' :=
  ⟨h.set hn hw, fc, s, l, Files.set_self, hs, hl, hR⟩

theorem Files.drop_none (h : V f = none) : V.drop f = V := by
  funext g
  by_cases hg : g = f
  · subst hg
    rw [Files.drop_self, h]
  · exact Files.drop_other hg

theorem Files.of_drop (h : V.drop f g = some fc) : V g = some fc := by
  unfold Files.drop at h
  split at h
  · cases h
  · exact h

/-- A file of the server is on the disk. -/
theorem Mounted.isSome (h : Mounted T B N D V w) (hf : IsFile T f) (hs : w.files f = some s) :
    (D.files f).isSome := by
  cases hD : D.files f with
  | none =>
    rw [((h.held f hf trivial).not_cached hD).1] at hs
    cases hs
  | some l => rfl

theorem Mounted.agrees (h : Mounted T B N D V w) (hs : w.files f = some s) : V.Agrees f s.time := by
  intro fc hfc
  obtain ⟨s₁, l, hs₁, -, hR⟩ := h.file hfc
  cases hs.symm.trans hs₁
  exact ⟨hR.stands.fresh, hR.stands.stamp⟩

/-- What is not on the server is not cached. -/
theorem Mounted.drop_missing (h : Mounted T B N D V w) (hs : w.files f = none) : V.drop f = V := by
  refine Files.drop_none ?_
  cases hV : V f with
  | none => rfl
  | some fc =>
    obtain ⟨s, l, hs', -⟩ := h.file hV
    cases hs.symm.trans hs'

theorem Mounted.drop_dir (h : Mounted T B N D V w) (hf : T.dirs f) : V.drop f = V := by
  refine Files.drop_none ?_
  cases hV : V f with
  | none => rfl
  | some fc => exact absurd hf (h.name f fc hV).2.1

theorem Mounted.world (h : Mounted T B N D V w) (hw : ∀ g, IsFile T g → w'.files g = w.files g) :
    Mounted T B N D V w' := by
  refine ⟨fun g hg _ => ?_, h.name, h.fits⟩
  rw [hw g hg]
  exact h.held g hg trivial

/-- Reading changes nothing that is held. -/
theorem Mounted.peek (h : Mounted T B N D V w) (hp : w.Peek f w') : Mounted T B N D V w' := by
  obtain ⟨-, ho, t, hf⟩ := hp
  refine ⟨fun g hg _ => ?_, h.name, h.fits⟩
  by_cases hgf : g = f
  · subst hgf
    rw [hf]
    exact (h.held g hg trivial).peek
  · rw [ho g hgf]
    exact h.held g hg trivial

theorem Mounted.thinned (h : Mounted T B N D V w) (hclean : ∀ f fc, V f = some fc → fc.AllClean)
    (ht : V.Thinned V') : Mounted T B N D V' w := by
  refine ⟨fun f hf _ => ?_, fun f fc' hf' => ?_, h.fits⟩
  · have hb := h.held f hf trivial
    obtain ⟨hn, hn'⟩ | ⟨fc, fc', hfc, hfc', hth⟩ := ht f
    · rw [hn] at hb
      rw [hn']
      exact hb
    · rw [hfc] at hb
      rw [hfc']
      obtain ⟨s, l, hs, hl, hst, hlen, -⟩ := hb
      have hc := hclean f fc hfc
      exact ⟨s, l, hs, hl, hst.thinned hc hth, fun _ => hlen hc, fun _ => hth.allClean hc⟩
  · obtain ⟨fc, hfc, -⟩ := ht.file hf'
    exact h.name f fc hfc

/-! ### What the operations do -/

/-- Bytes are stored in the cache. -/
theorem Mounted.stored {off : Nat} {buf : Bytes} (hne : buf ≠ []) (hle : off + buf.length ≤ N)
    (h : Mounted T B N D V w) (hf : V f = some fc) (hst : fc.Stored B off buf fc') :
    Mounted T B N ((D.modify f (pwrite · off buf)).mark f) (V.set f fc') w := by
  obtain ⟨s, l, hs, hl, hR⟩ := h.file hf
  have hn := h.name f fc hf
  have hD : (D.modify f (pwrite · off buf)).files f = some (pwrite l off buf) := Disk.modify_some hl
  have hpos := List.length_pos_of_ne_nil hne
  have hdirty : ¬ fc'.AllClean := fun hc =>
    hc.not_dirtyAt ((hst.dirty off).mpr (.inr ⟨off, le_refl _, by omega, rfl⟩))
  refine .set ((h.but f).update (fun _ _ _ => rfl) (fun _ _ => rfl) (fun _ _ => hn)
    (fun g hg => ⟨Disk.put_other hg, .inr⟩) fun l' _ hl' => ?_) hn (fun _ _ => rfl) hs hD
    ⟨hR.stands.stored hne hst hle, fun hc => absurd hc hdirty, fun hu => absurd (.inl rfl) hu⟩
  cases hD.symm.trans hl'
  have hfit := h.fits f l hn.2 hl
  rw [length_pwrite hne]
  omega

/-- Another size is stored in the cache. -/
theorem Mounted.resized {n : Nat} (hle : n ≤ N) (h : Mounted T B N D V w) (hf : V f = some fc)
    (hcut : fc.CutClean B n) (hr : fc.Resized B n fc') :
    Amid T B N (D.modify f (ftruncate · n)) f (Sizing B N (¬ D.unsent f)) (V.set f fc') w := by
  obtain ⟨s, l, hs, hl, hR⟩ := h.file hf
  have hn := h.name f fc hf
  have hD : (D.modify f (ftruncate · n)).files f = some (ftruncate l n) := Disk.modify_some hl
  refine .set ((h.but f).update (fun _ _ _ => rfl) (fun _ _ => rfl) (fun _ _ => hn)
    (fun g hg => ⟨Disk.put_other hg, id⟩) fun l' _ hl' => ?_) hn (fun _ _ => rfl) hs hD (hR.cut hr hcut)
  cases hD.symm.trans hl'
  rwa [length_ftruncate]

/-- Everything of `f` is sent. -/
theorem Mounted.settled (h : Mounted T B N D V w) (hc : ∀ fc, V f = some fc → fc.AllClean) :
    Mounted T B N (D.settle f) V w := by
  have hbut : MountedOn T B N (D.settle f) (· ≠ f) V w := (h.but f).update (fun _ _ _ => rfl) (fun _ _ => rfl)
    (h.name f) (fun g hg => ⟨rfl, fun hu => ⟨hg, hu⟩⟩) (h.fits f)
  refine hbut.whole fun hf => ?_
  have hb := h.held f hf trivial
  cases hV : V f with
  | none =>
    rw [hV] at hb
    exact hb
  | some fc =>
    obtain ⟨s, l, hs, hl, hR⟩ := h.file hV
    exact ⟨s, l, hs, hl, hR.stands, hR.length, fun _ => hc fc hV⟩

/-- `f` holds something else on the server, and is cached no more. -/
theorem Mounted.replaced {c : Option Bytes} (h : Mounted T B N D V w)
    (hw : ∀ g, IsFile T g → g ≠ f → w'.files g = w.files g) (hc : w'.content f = c)
    (hfit : ∀ l, c = some l → l.length ≤ N) : Mounted T B N ((D.put f c).settle f) (V.drop f) w' := by
  have hbut : MountedOn T B N ((D.put f c).settle f) (· ≠ f) (V.drop f) w' := by
    refine (h.but f).update hw (fun g hg => Files.drop_other hg) (fun fc hfc => ?_)
      (fun g hg => ⟨Disk.put_other hg, fun hu => ⟨hg, hu⟩⟩) fun l _ hl => hfit l (Disk.put_self.symm.trans hl)
    rw [Files.drop_self] at hfc
    cases hfc
  refine hbut.whole fun _ => ?_
  rw [Files.drop_self]
  exact hc.trans Disk.put_self.symm

/-- A change of the tree leaves the other files alone. -/
theorem Server.Relink.file (h : w.Relink f w') (hf : ∀ x, Above f x → T.dirs x) (hg : IsFile T g) (hne : g ≠ f) :
    w'.files g = w.files g :=
  h.other g hne fun ha => hg.1 (hf g ha)

/-- A directory has come or gone. -/
theorem Mounted.relinked (h : Mounted T B N D V w) (hf : IsDir T f) (hl : w.Relink f w') :
    Mounted T B N D V w' :=
  h.world fun _ hg => hl.file hf.2 hg fun he => hg.1 (he ▸ hf.1)

/-- `f`, all sent, has become `g`. -/
theorem Mounted.moved (h : Mounted T B N D V w) (hm : w.Move f g w') (hf : IsFile T f) (hg : IsFile T g)
    (hu : ¬ D.unsent f) (hl : D.files f = some l) :
    Mounted T B N (((D.put f none).put g (some l)).settle g) ((V.drop f).drop g) w' := by
  have hcont : w.content f = some l := ((h.held f hf trivial).sent hu).trans hl
  have hmoved : w'.content g = some l := by
    have := hm.moved.content [] (.inl rfl)
    rwa [List.append_nil, List.append_nil, hcont] at this
  have hgone : f ≠ g → w'.files f = none := by
    intro hne
    have := hm.gone hne [] (.inl rfl)
    rwa [List.append_nil] at this
  -- No file lies below another.
  have hbelow : ∀ {x y}, IsFile T x → IsFile T y → x ≠ y → ¬ Under y x :=
    fun hx hy hne hu => hy.1 (hx.2 _ ⟨hne.symm, hu⟩)
  refine ⟨fun x hx _ => ?_, fun x fc hfc => h.name x fc (Files.of_drop (Files.of_drop hfc)), fun x l' hx hl' => ?_⟩
  · by_cases hxg : x = g
    · subst hxg
      rw [Files.drop_self]
      exact hmoved.trans Disk.put_self.symm
    rw [Files.drop_other hxg]
    by_cases hxf : x = f
    · subst hxf
      rw [Files.drop_self, hgone hxg]
      exact ((Disk.put_other hxg).trans Disk.put_self).symm
    · rw [Files.drop_other hxf, hm.other x (hbelow hx hf hxf) (hbelow hx hg hxg) (fun ha => hx.1 (hf.2 x ha))
        fun ha => hx.1 (hg.2 x ha)]
      exact (h.held x hx trivial).disk ((Disk.put_other hxg).trans (Disk.put_other hxf)) fun hu => ⟨hxg, hu⟩
  · have hl' : ((D.put f none).put g (some l)).files x = some l' := hl'
    by_cases hxg : x = g
    · subst hxg
      rw [Disk.put_self] at hl'
      cases hl'
      exact h.fits f l hf hl
    rw [Disk.put_other hxg] at hl'
    by_cases hxf : x = f
    · subst hxf
      rw [Disk.put_self] at hl'
      cases hl'
    · rw [Disk.put_other hxf] at hl'
      exact h.fits x l' hx hl'

end

end Nfs
