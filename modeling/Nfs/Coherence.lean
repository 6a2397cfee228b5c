/-
When a cache shows the right bytes.

A cached file stands for a logical content: its size is the length, and
every valid byte is the byte there (past the end, zero). What is not valid,
and what is valid in a clean block, is what the server holds (`Synced`).
This is kept by every operation of the cache, over any world that answers
the callbacks as a file server does (`Backs`).

Such a world may be shared. It says which cached stamps it still vouches
for (`Backing.trusts`), and the invariant is about vouched files only: a
world that another client moves stops vouching for the stamps of the files
that changed. `Spec` says which logical content a file may have, so that
one invariant serves a client that is alone (the content of a local file)
and clients that are not (any content). `exact` worlds vouch for nothing
after a failed write-back; with them a clean vouched file has the server's
length too.
-/
import Nfs.FlushRules

namespace Nfs

open PlainFile Resume

/-- What the callbacks reach, as far as content is concerned. -/
structure Backing (W : Type) where
  content : W → Str → Option Bytes
  /-- The stamp is one the file has had. -/
  known : W → Str → FileTime → Prop
  /-- The stamp and the stale flag vouch for the cached file. -/
  trusts : W → Str → FileTime → Bool → Prop

section
variable {W : Type} {bk : Backing W} {B : Nat} {exact fails : Prop} {cut : Str → Prop}
  {Spec : Str → Bytes → Prop} {V V' : Files} {w w' : W} {f : Str} {fc fc' : FileCache} {srv l : Bytes}

/-- The world has moved without changing what is vouched for of `f`. -/
structure Backing.Still (bk : Backing W) (Spec : Str → Bytes → Prop) (w w' : W) (f : Str) : Prop where
  known : ∀ {t}, bk.known w f t → bk.known w' f t
  trusts : ∀ {t s}, bk.known w f t → bk.trusts w' f t s → bk.trusts w f t s ∧ bk.content w' f = bk.content w f
  spec : (∀ c, bk.content w f = some c → Spec f c) → ∀ c, bk.content w' f = some c → Spec f c

/-- The world answers the callbacks as a file server does. A failed content
write may have stored a prefix of the data. -/
structure Backs (E : Env Cache W Call.Ans) (bk : Backing W) (Spec : Str → Bytes → Prop) (exact fails : Prop) :
    Prop where
  seen : ∀ c w, E.seen c w
  rely : ∀ {w w'}, E.rely w w' → ∀ g, bk.Still Spec w w' g
  attrFt : ∀ {w w' f} {a : AttrFtAns}, E.serve w (.attrFt f) a w' →
    (∀ g, bk.Still Spec w w' g) ∧ (a.err ≠ 0 → fails) ∧
    (a.err = 0 → bk.known w' f a.attr.time ∧ ∃ c, bk.content w' f = some c ∧ c.length = a.attr.size)
  contentFt : ∀ {w w' f off n} {a : ContentFtAns}, E.serve w (.contentFt f off n) a w' →
    (∀ g, bk.Still Spec w w' g) ∧ (a.err ≠ 0 → fails) ∧
    (a.err = 0 → ∃ c, bk.content w' f = some c ∧ ∀ i, i < n → byteAt a.data i = byteAt c (off + i))
  contentWb : ∀ {w w' f off data t s} {a : ContentWbAns}, E.serve w (.contentWb f off data t s) a w' →
    bk.known w f t → (∀ g, g ≠ f → bk.Still Spec w w' g) ∧ (a.err ≠ 0 → fails) ∧ bk.known w' f a.time ∧
    (bk.trusts w' f a.time a.stale → bk.trusts w f t s ∧ (exact → a.err = 0) ∧
      ∀ c, bk.content w f = some c → ∃ k, k ≤ data.length ∧ (a.err = 0 → k = data.length) ∧
        bk.content w' f = some (pwrite c off (data.take k)))
  attrWb : ∀ {w w' f attr s} {a : AttrWbAns}, E.serve w (.attrWb f attr s) a w' →
    bk.known w f attr.time → (∀ g, g ≠ f → bk.Still Spec w w' g) ∧ (a.err ≠ 0 → fails) ∧
    a.attr.size = attr.size ∧ bk.known w' f a.attr.time ∧
    (bk.trusts w' f a.attr.time a.stale → bk.trusts w f attr.time s ∧ (exact → a.err = 0) ∧
      ∀ c, bk.content w f = some c →
        bk.content w' f = some (if a.err = 0 then ftruncate c attr.size else c))

/-! ## One file -/

/-- The cached file stands for `l`, the server holding `srv`. -/
structure Synced (B : Nat) (fc : FileCache) (srv l : Bytes) : Prop where
  size : l.length = fc.attr.size
  byte : ∀ {x v}, fc.byte B x = some v → v = byteAt l x
  rest : ∀ x, (fc.byte B x = none ∨ ¬ fc.dirtyAt B x) → byteAt srv x = byteAt l x

/-- The bytes a read returns are those of the logical content. -/
theorem Synced.pread (h : Synced B fc srv l) {off n : Nat} {data : Bytes}
    (hlen : data.length = min n (fc.attr.size - off))
    (hby : ∀ i, i < data.length → fc.byte B (off + i) = some (byteAt data i)) : data = PlainFile.pread l off n := by
  refine ext_byteAt (by rw [length_pread, hlen, h.size]) fun i => ?_
  rw [byteAt_pread]
  by_cases hi : i < data.length
  · rw [if_pos (by omega)]
    exact h.byte (hby i hi)
  · rw [byteAt_of_le (by omega)]
    split
    · rename_i hn
      rw [byteAt_of_le (by rw [h.size]; omega)]
    · rfl

/-- Attributes just fetched. -/
theorem Synced.ofAttr {attr : FileAttr} (h : srv.length = attr.size) : Synced B (.ofAttr attr) srv srv := by
  refine ⟨h, fun {x v} hx => ?_, fun x _ => rfl⟩
  simp [FileCache.byte, FileCache.ofAttr] at hx

theorem Synced.filled (h : Synced B fc srv l) {start n : Nat} {data : Bytes} (hf : fc.Filled B start n data fc')
    (hd : ∀ x, start ≤ x / B → x / B < start + n → byteAt data (x - start * B) = byteAt srv x) :
    Synced B fc' srv l := by
  refine ⟨by rw [hf.attr]; exact h.size, fun {x v} hx => ?_, fun x hx => ?_⟩
  · rw [hf.byte] at hx
    split at hx
    · rename_i hin
      cases hb : fc.byte B x with
      | none =>
        rw [hb] at hx
        simp only [Option.getD_none, Option.some.injEq] at hx
        rw [← hx, hd x hin.1 hin.2]
        exact h.rest x (.inl hb)
      | some u =>
        rw [hb] at hx
        simp only [Option.getD_some, Option.some.injEq] at hx
        rw [← hx]
        exact h.byte hb
    · exact h.byte hx
  · rw [hf.dirty] at hx
    refine h.rest x (hx.imp_left fun hn => ?_)
    rw [hf.byte] at hn
    split at hn
    · cases hn
    · exact hn

theorem Synced.stored (h : Synced B fc srv l) {off : Nat} {buf : Bytes} (hne : buf ≠ [])
    (hs : fc.Stored B off buf fc') : Synced B fc' srv (pwrite l off buf) := by
  refine ⟨?_, fun {x v} hx => ?_, fun x hx => ?_⟩
  · rw [length_pwrite hne, hs.attr, h.size]
  · rw [hs.byte] at hx
    rw [byteAt_pwrite]
    split at hx
    · rename_i hin
      rw [if_pos hin]
      simpa using hx.symm
    · rename_i hin
      rw [if_neg hin]
      exact h.byte hx
  · rw [hs.byte, hs.dirty] at hx
    rw [byteAt_pwrite]
    split
    · rename_i hin
      rw [if_pos hin] at hx
      rcases hx with hx | hx
      · cases hx
      · exact absurd (.inr ⟨x, hin.1, hin.2, rfl⟩) hx
    · rename_i hin
      rw [if_neg hin] at hx
      exact h.rest x (hx.imp_right fun hd => fun h' => hd (.inl h'))

/-- A content write-back of an extent, or of a prefix of it. -/
theorem Synced.sent (h : Synced B fc srv l) {off k : Nat} {data : Bytes} (hx : fc.Extent B off data) {t : FileTime}
    {s : Bool} : Synced B (fc.restamp t s) (pwrite srv off (data.take k)) l ∧
      ∀ x, off ≤ x → x < off + (data.take k).length → byteAt (pwrite srv off (data.take k)) x = byteAt l x := by
  have hin : ∀ x, off ≤ x → x < off + (data.take k).length →
      byteAt (pwrite srv off (data.take k)) x = byteAt l x := by
    intro x h₁ h₂
    rw [List.length_take] at h₂
    rw [byteAt_pwrite, if_pos ⟨h₁, by rw [List.length_take]; omega⟩, byteAt_take, if_pos (by omega)]
    have := h.byte (hx.byte (x - off) (by omega))
    rwa [show off + (x - off) = x by omega] at this
  refine ⟨⟨h.size, h.byte, fun x hr => ?_⟩, hin⟩
  by_cases hc : off ≤ x ∧ x < off + (data.take k).length
  · exact hin x hc.1 hc.2
  · rw [byteAt_pwrite, if_neg hc]
    exact h.rest x hr

theorem Synced.cleaned (h : Synced B fc srv l) {S : Nat → Prop} (hS : ∀ x, S x → byteAt srv x = byteAt l x)
    (hall : ∀ x, fc.dirtyAt B x → (fc.byte B x).isSome → S x) (hc : fc.Cleaned B fc') : Synced B fc' srv l := by
  refine ⟨by rw [hc.attr]; exact h.size, fun {x v} hx => h.byte (hc.byte x ▸ hx), fun x _ => ?_⟩
  by_cases hd : fc.dirtyAt B x
  · cases hb : fc.byte B x with
    | none => exact h.rest x (.inl hb)
    | some v => exact hS x (hall x hd (by rw [hb]; rfl))
  · exact h.rest x (.inr hd)

/-- The size is written back: the server's file gets the logical length. -/
theorem Synced.resized (hsize : l.length = fc.attr.size) (hb : ∀ {x v}, fc.byte B x = some v → v = byteAt l x)
    (hr : ∀ x, x < fc.attr.size → (fc.byte B x = none ∨ ¬ fc.dirtyAt B x) → byteAt srv x = byteAt l x)
    {attr : FileAttr} {s : Bool} (ha : attr.size = fc.attr.size) :
    Synced B { fc with attr := attr, stale := s } (ftruncate srv fc.attr.size) l := by
  refine ⟨hsize.trans ha.symm, fun {x v} hx => hb hx, fun x hx => ?_⟩
  rw [byteAt_ftruncate]
  split
  · rename_i hlt; exact hr x hlt hx
  · rw [byteAt_of_le (by omega)]

/-- Nothing but clean blocks is lost. -/
theorem Synced.thinned (h : Synced B fc srv l) (hc : fc.AllClean) (ht : fc.Thinned fc') : Synced B fc' srv l := by
  have hby : ∀ {x v}, fc'.byte B x = some v → fc.byte B x = some v := by
    intro x v hx
    obtain ⟨e, he, hv⟩ := Option.bind_eq_some_iff.mp hx
    exact Option.bind_eq_some_iff.mpr ⟨e, ht.entries _ e he, hv⟩
  exact ⟨by rw [ht.attr]; exact h.size, fun hx => h.byte (hby hx), fun x _ => h.rest x (.inr hc.not_dirtyAt)⟩

/-! ## All files -/

/-- What the invariant says of a cached file, `R` being asked of the server's
and the logical content on top. -/
def Vouched (bk : Backing W) (B : Nat) (cut : Str → Prop) (Spec : Str → Bytes → Prop) (w : W) (f : Str)
    (R : FileCache → Bytes → Bytes → Prop) (fc : FileCache) : Prop :=
  bk.known w f fc.attr.time ∧ (¬ cut f → bk.trusts w f fc.attr.time fc.stale →
    ∃ srv l, bk.content w f = some srv ∧ Spec f l ∧ Synced B fc srv l ∧ R fc srv l)

/-- Between operations: a clean file of an exact world has the server's
length. -/
def AtRest (exact : Prop) (fc : FileCache) (srv l : Bytes) : Prop :=
  exact → fc.AllClean → srv.length = l.length

def FileOk (bk : Backing W) (B : Nat) (exact : Prop) (cut : Str → Prop) (Spec : Str → Bytes → Prop) (w : W)
    (f : Str) : Option FileCache → Prop
  | none => ∀ c, bk.content w f = some c → Spec f c
  | some fc => Vouched bk B cut Spec w f (AtRest exact) fc

/-- **The coherence invariant.** -/
def Coherent (bk : Backing W) (B : Nat) (exact : Prop) (cut : Str → Prop) (Spec : Str → Bytes → Prop) (V : Files)
    (w : W) : Prop :=
  ∀ f, FileOk bk B exact cut Spec w f (V f)

/-- In the course of a write-back: what has been sent is on the server. -/
def Reached : Phase → FileCache → Bytes → Bytes → Prop
  | .sending S, _, srv, l => ∀ x, S x → byteAt srv x = byteAt l x
  | .owing, _, _, _ => True

/-- The invariant while `f` is written back. -/
def Flushing (bk : Backing W) (B : Nat) (exact : Prop) (cut : Str → Prop) (Spec : Str → Bytes → Prop) (f : Str)
    (p : Phase) (V : Files) (w : W) : Prop :=
  (∀ g, g ≠ f → FileOk bk B exact cut Spec w g (V g)) ∧
    ∃ fc, V f = some fc ∧ Vouched bk B cut Spec w f (Reached p) fc

theorem Vouched.still {R : FileCache → Bytes → Bytes → Prop} (h : Vouched bk B cut Spec w f R fc)
    (hs : bk.Still Spec w w' f) : Vouched bk B cut Spec w' f R fc := by
  refine ⟨hs.known h.1, fun hc ht => ?_⟩
  obtain ⟨ht', he⟩ := hs.trusts h.1 ht
  rw [he]
  exact h.2 hc ht'

theorem FileOk.still {o : Option FileCache} (h : FileOk bk B exact cut Spec w f o) (hs : bk.Still Spec w w' f) :
    FileOk bk B exact cut Spec w' f o := by
  cases o with
  | none => exact hs.spec h
  | some fc => exact Vouched.still h hs

theorem Coherent.still (h : Coherent bk B exact cut Spec V w) (hs : ∀ g, bk.Still Spec w w' g) :
    Coherent bk B exact cut Spec V w' :=
  fun g => (h g).still (hs g)

theorem Flushing.still {p : Phase} (h : Flushing bk B exact cut Spec f p V w) (hs : ∀ g, bk.Still Spec w w' g) :
    Flushing bk B exact cut Spec f p V w' := by
  obtain ⟨ho, fc, hf, hv⟩ := h
  exact ⟨fun g hg => (ho g hg).still (hs g), fc, hf, hv.still (hs f)⟩

/-- One file changes, the others are as still as the world. -/
theorem Coherent.set (h : ∀ g, g ≠ f → FileOk bk B exact cut Spec w g (V g)) (hs : ∀ g, g ≠ f → bk.Still Spec w w' g)
    (hf : FileOk bk B exact cut Spec w' f (some fc)) : Coherent bk B exact cut Spec (V.set f fc) w' := by
  exact Files.forall_set hf fun g hg => (h g hg).still (hs g hg)

theorem Flushing.set {p : Phase} (h : ∀ g, g ≠ f → FileOk bk B exact cut Spec w g (V g))
    (hs : ∀ g, g ≠ f → bk.Still Spec w w' g) (hf : Vouched bk B cut Spec w' f (Reached p) fc) :
    Flushing bk B exact cut Spec f p (V.set f fc) w' :=
  ⟨fun g hg => by rw [Files.set_other hg]; exact (h g hg).still (hs g hg), fc, Files.set_self, hf⟩

variable {E : Env Cache W Call.Ans}

theorem Coherent.fetches (cut : Str → Prop) (hK : Backs E bk Spec exact fails) (hB : 0 < B) (f : Str) :
    Fetches E B (Coherent bk B exact cut Spec) (fun V w => fails ∧ Coherent bk B exact cut Spec V w) f := by
  refine ⟨fun _ _ => hK.seen _ _, ?_, ?_⟩
  · intro V w w₁ w₂ a h hf hr hs
    have h₁ := h.still (hK.rely hr)
    obtain ⟨hstill, hfail, hok⟩ := hK.attrFt hs
    refine ⟨fun he => ?_, fun he => ⟨hfail he, h₁.still hstill⟩⟩
    obtain ⟨hk, c, hc, hlen⟩ := hok he
    refine .set (fun g _ => h₁ g) (fun g _ => hstill g) ⟨hk, fun _ _ => ⟨c, c, hc, ?_, .ofAttr hlen, fun _ _ => rfl⟩⟩
    have hn := (h₁ f).still (hstill f)
    rw [hf] at hn
    exact hn c hc
  · intro V w w₁ w₂ fc start n a h hf hr hs
    have h₁ := h.still (hK.rely hr)
    obtain ⟨hstill, hfail, hok⟩ := hK.contentFt hs
    refine ⟨fun he fc' hfill => ?_, fun he => ⟨hfail he, h₁.still hstill⟩⟩
    obtain ⟨c, hc, hdata⟩ := hok he
    have hv := (h₁ f).still (hstill f)
    rw [hf] at hv
    refine .set (fun g _ => h₁ g) (fun g _ => hstill g) ⟨by rw [hfill.attr]; exact hv.1, fun hcut ht => ?_⟩
    rw [hfill.attr, hfill.stale] at ht
    obtain ⟨srv, l, hsrv, hspec, hsync, hrest⟩ := hv.2 hcut ht
    obtain rfl : c = srv := by rw [hc] at hsrv; exact Option.some.inj hsrv
    refine ⟨c, l, hc, hspec, hsync.filled hfill fun x h₁ h₂ => ?_, fun hx hclean => hrest hx ?_⟩
    · obtain ⟨hle, hlt⟩ := Cache.run_offset hB h₁ h₂
      rw [hdata _ hlt]
      congr 1; omega
    · exact (FileCache.allClean_iff hB).mpr fun x hd => hclean.not_dirtyAt ((hfill.dirty x).mpr hd)

theorem Flushing.file {p : Phase} (h : Flushing bk B exact cut Spec f p V w) (hf : V f = some fc) :
    (∀ g, g ≠ f → FileOk bk B exact cut Spec w g (V g)) ∧ Vouched bk B cut Spec w f (Reached p) fc := by
  obtain ⟨ho, fc₁, hf₁, hv⟩ := h
  cases hf.symm.trans hf₁
  exact ⟨ho, hv⟩

/-- Data has been sent: all of it, or a part. -/
theorem Vouched.contentWb {S : Nat → Prop} {off : Nat} {data : Bytes} {a : ContentWbAns}
    (hK : Backs E bk Spec exact fails) (hv : Vouched bk B cut Spec w f (Reached (.sending S)) fc)
    (hx : fc.Extent B off data) (hs : E.serve w (.contentWb f off data fc.attr.time fc.stale) a w') :
    (a.err = 0 → Vouched bk B cut Spec w' f
      (Reached (.sending fun x => S x ∨ (off ≤ x ∧ x < off + data.length))) (fc.restamp a.time a.stale)) ∧
    (a.err ≠ 0 → Vouched bk B cut Spec w' f (AtRest exact) (fc.restamp a.time a.stale)) := by
  obtain ⟨-, -, hk, hcont⟩ := hK.contentWb hs hv.1
  refine ⟨fun he => ⟨hk, fun hc ht => ?_⟩, fun he => ⟨hk, fun hc ht => ?_⟩⟩
  · obtain ⟨ht', -, hc'⟩ := hcont ht
    obtain ⟨srv, l, hsrv, hspec, hsync, hS⟩ := hv.2 hc ht'
    obtain ⟨k, -, hfull, hsrv'⟩ := hc' srv hsrv
    obtain rfl := hfull he
    obtain ⟨hsync', hin⟩ := hsync.sent (k := data.length) hx
    rw [List.take_length] at hsync' hin hsrv'
    refine ⟨_, l, hsrv', hspec, hsync', fun x hx' => ?_⟩
    by_cases hin' : off ≤ x ∧ x < off + data.length
    · exact hin x hin'.1 hin'.2
    · rw [byteAt_pwrite, if_neg hin']
      exact hS x (hx'.resolve_right hin')
  · obtain ⟨ht', hex, hc'⟩ := hcont ht
    obtain ⟨srv, l, hsrv, hspec, hsync, hS⟩ := hv.2 hc ht'
    obtain ⟨k, hk, -, hsrv'⟩ := hc' srv hsrv
    exact ⟨_, l, hsrv', hspec, (hsync.sent hx).1, fun hx => absurd (hex hx) he⟩

/-- The attributes have been sent, taken or not. -/
theorem Vouched.attrWb {a : AttrWbAns} (hK : Backs E bk Spec exact fails)
    (hv : Vouched bk B cut Spec w f (Reached .owing) fc) (hs : E.serve w (.attrWb f fc.attr fc.stale) a w') :
    Vouched bk B cut Spec w' f (AtRest exact) { fc with attr := a.attr, stale := a.stale } := by
  obtain ⟨-, -, hsize, hk, hcont⟩ := hK.attrWb hs hv.1
  refine ⟨hk, fun hc ht => ?_⟩
  obtain ⟨ht', hex, hc'⟩ := hcont ht
  obtain ⟨srv, l, hsrv, hspec, hsync, -⟩ := hv.2 hc ht'
  have hsrv' := hc' srv hsrv
  by_cases he : a.err = 0
  · rw [if_pos he] at hsrv'
    refine ⟨_, l, hsrv', hspec, .resized hsync.size hsync.byte (fun x _ hx => hsync.rest x hx) hsize, fun _ _ => ?_⟩
    rw [length_ftruncate, hsync.size]
  · rw [if_neg he] at hsrv'
    exact ⟨_, l, hsrv', hspec, ⟨hsync.size.trans hsize.symm, hsync.byte, hsync.rest⟩, fun hx => absurd (hex hx) he⟩

theorem Coherent.flushes (B : Nat) (cut : Str → Prop) (hK : Backs E bk Spec exact fails) (f : Str) :
    Flushes E B (Coherent bk B exact cut Spec) (fun V w => fails ∧ Coherent bk B exact cut Spec V w)
      (Flushing bk B exact cut Spec f) f := by
  refine ⟨fun _ _ => hK.seen _ _, ?_, ?_, ?_, ?_, fun h => h.2⟩
  · intro V w fc h hf _
    have hv := h f
    rw [hf] at hv
    refine ⟨fun g _ => h g, fc, hf, hv.1, fun hc ht => ?_⟩
    obtain ⟨srv, l, hsrv, hspec, hsync, -⟩ := hv.2 hc ht
    exact ⟨srv, l, hsrv, hspec, hsync, fun x hx => hx.elim⟩
  · intro V w w₁ w₂ S fc off data a h hf hx hr hs
    obtain ⟨ho, hv⟩ := (h.still (hK.rely hr)).file hf
    obtain ⟨hstill, hfail, -⟩ := hK.contentWb hs hv.1
    obtain ⟨hok, herr⟩ := hv.contentWb hK hx hs
    exact ⟨fun he => .set ho hstill (hok he), fun he => ⟨hfail he, .set ho hstill (herr he)⟩⟩
  · intro V w S fc fc' h hf hall hcl
    obtain ⟨ho, hv⟩ := h.file hf
    refine .set ho (fun g _ => ⟨id, fun _ h => ⟨h, rfl⟩, id⟩) ⟨by rw [hcl.attr]; exact hv.1, fun hc ht => ?_⟩
    rw [hcl.attr, hcl.stale] at ht
    obtain ⟨srv, l, hsrv, hspec, hsync, hS⟩ := hv.2 hc ht
    exact ⟨srv, l, hsrv, hspec, hsync.cleaned hS hall hcl, trivial⟩
  · intro V w w₁ w₂ fc a h hf hr hs
    obtain ⟨ho, hv⟩ := (h.still (hK.rely hr)).file hf
    obtain ⟨hstill, hfail, -⟩ := hK.attrWb hs hv.1
    have hset := Coherent.set ho hstill (hv.attrWb hK hs)
    exact ⟨fun _ => hset, fun he => ⟨hfail he, hset⟩⟩

/-- What a read returns of a file that is vouched for. -/
theorem Coherent.readResult {c : Cache} {off n : Nat} {data : Bytes} (h : Coherent bk B exact cut Spec c.file w)
    (hr : Cache.ReadResult B f off n c data) : ∃ fc, c.file f = some fc ∧ (¬ cut f →
      bk.trusts w f fc.attr.time fc.stale → ∃ l, Spec f l ∧ data = pread l off n) := by
  obtain ⟨fc, hf, hlen, hby⟩ := hr
  have hv := h f
  rw [hf] at hv
  refine ⟨fc, hf, fun hc ht => ?_⟩
  obtain ⟨srv, l, -, hspec, hsync, -⟩ := hv.2 hc ht
  exact ⟨l, hspec, hsync.pread hlen hby⟩

/-- Eviction: only clean blocks go. -/
theorem Coherent.thinned (h : Coherent bk B exact cut Spec V w) (hclean : ∀ f fc, V f = some fc → fc.AllClean)
    (ht : V.Thinned V') : Coherent bk B exact cut Spec V' w := by
  intro f
  rcases ht f with ⟨hn, hn'⟩ | ⟨fc, fc', hf, hf', hth⟩
  · have := h f
    rw [hn] at this
    rw [hn']
    exact this
  · have hv := h f
    rw [hf] at hv
    rw [hf']
    refine ⟨by rw [hth.attr]; exact hv.1, fun hc htr => ?_⟩
    rw [hth.attr, hth.stale] at htr
    obtain ⟨srv, l, hsrv, hspec, hsync, hrest⟩ := hv.2 hc htr
    exact ⟨srv, l, hsrv, hspec, hsync.thinned (hclean f fc hf) hth, fun hx _ => hrest hx (hclean f fc hf)⟩

section
variable {Spec' : Str → Bytes → Prop} {cut' : Str → Prop}

theorem FileOk.mono {o : Option FileCache} (h : FileOk bk B exact cut Spec w f o)
    (hs : ∀ c, Spec f c → Spec' f c) (hc : cut f → cut' f) : FileOk bk B exact cut' Spec' w f o := by
  cases o with
  | none => exact fun c hc => hs c (h c hc)
  | some fc =>
    refine ⟨h.1, fun hcut ht => ?_⟩
    obtain ⟨srv, l, hsrv, hspec, hr⟩ := h.2 (fun h => hcut (hc h)) ht
    exact ⟨srv, l, hsrv, hs l hspec, hr⟩

/-- A write changes the logical content as it would a plain file. -/
theorem Coherent.stored (h : Coherent bk B exact cut Spec V w) (hf : V f = some fc) {off : Nat} {buf : Bytes}
    (hne : buf ≠ []) (hst : fc.Stored B off buf fc') (hspec : ∀ l, Spec f l → Spec' f (pwrite l off buf))
    (hother : ∀ g, g ≠ f → ∀ c, Spec g c → Spec' g c) : Coherent bk B exact cut Spec' (V.set f fc') w := by
  have hv := h f
  rw [hf] at hv
  refine .set (fun g hg => (h g).mono (hother g hg) id) (fun g _ => ⟨id, fun _ h => ⟨h, rfl⟩, id⟩)
    ⟨by rw [hst.attr]; exact hv.1, fun hc ht => ?_⟩
  rw [hst.attr, hst.stale] at ht
  obtain ⟨srv, l, hsrv, hl, hsync, -⟩ := hv.2 hc ht
  refine ⟨srv, _, hsrv, hspec l hl, hsync.stored hne hst, fun _ hclean => ?_⟩
  have hlen := List.length_pos_iff.mpr hne
  exact absurd ((hst.dirty off).mpr (.inr ⟨off, le_refl _, by omega, rfl⟩)) hclean.not_dirtyAt

/-! ## Truncation -/

/-- Where the file is cut to `n`, no byte from `n` on is left valid and
non-zero in the block `n` cuts. -/
def FileCache.CutClean (B n : Nat) (fc : FileCache) : Prop :=
  n < fc.attr.size → ∀ x v, n ≤ x → x / B < Cache.endBlock B n → fc.byte B x = some v → v = 0

/-- A cut at a block boundary leaves no such byte. -/
theorem FileCache.CutClean.of_dvd (hB : 0 < B) {n : Nat} (h : B ∣ n) : fc.CutClean B n := by
  intro _ x v hx hlt _
  obtain ⟨k, rfl⟩ := h
  unfold Cache.endBlock at hlt
  split at hlt
  · exact absurd hlt (Nat.not_lt_zero _)
  · rename_i hne
    have hk : 0 < k := Nat.pos_of_ne_zero fun h => hne (by rw [h, Nat.mul_zero])
    have h₁ : (B * k - 1) / B < k := Nat.div_lt_of_lt_mul (Nat.sub_lt (Nat.mul_pos hB hk) Nat.one_pos)
    have h₂ : k ≤ x / B := (Nat.le_div_iff_mul_le hB).mpr (by rw [Nat.mul_comm]; exact hx)
    omega

/-- The invariant between the change of a file's size and the answer to its
attributes: the server need not have cut its file yet. -/
def Resizing (bk : Backing W) (B : Nat) (exact : Prop) (cut : Str → Prop) (Spec : Str → Bytes → Prop) (f : Str)
    (V : Files) (w : W) : Prop :=
  (∀ g, g ≠ f → FileOk bk B exact cut Spec w g (V g)) ∧ ∃ fc, V f = some fc ∧ bk.known w f fc.attr.time ∧
    (¬ cut f → bk.trusts w f fc.attr.time fc.stale → ∃ srv l, bk.content w f = some srv ∧ Spec f l ∧
      l.length = fc.attr.size ∧ (∀ {x v}, fc.byte B x = some v → v = byteAt l x) ∧
      ∀ x, x < fc.attr.size → (fc.byte B x = none ∨ ¬ fc.dirtyAt B x) → byteAt srv x = byteAt l x)

theorem Coherent.resizing (h : Coherent bk B exact cut Spec V w) (hf : V f = some fc) {n : Nat}
    (hr : fc.Resized B n fc') (hcut : ∀ g, cut g → cut' g) (hclean : ¬ cut' f → fc.CutClean B n)
    (hspec : ∀ l, Spec f l → Spec' f (ftruncate l n)) (hother : ∀ g, g ≠ f → ∀ c, Spec g c → Spec' g c) :
    Resizing bk B exact cut' Spec' f (V.set f fc') w := by
  have hv := h f
  rw [hf] at hv
  refine ⟨fun g hg => by rw [Files.set_other hg]; exact (h g).mono (hother g hg) (hcut g), fc', Files.set_self,
    by rw [hr.attr]; exact hv.1, fun hc ht => ?_⟩
  rw [hr.attr, hr.stale] at ht
  obtain ⟨srv, l, hsrv, hl, hsync, -⟩ := hv.2 (fun h => hc (hcut f h)) ht
  -- What is valid now was valid before, and lies in a block that stays.
  have hold : ∀ {x}, ¬ (n < fc.attr.size ∧ Cache.endBlock B n ≤ x / B) →
      fc'.byte B x = fc.byte B x ∧ (fc'.dirtyAt B x ↔ fc.dirtyAt B x) := by
    intro x hx
    have hl := hr.entries (x / B)
    rw [if_neg hx] at hl
    exact ⟨by rw [FileCache.byte, FileCache.byte, hl], by rw [FileCache.dirtyAt, FileCache.dirtyAt, hl]⟩
  refine ⟨srv, _, hsrv, hspec l hl, by rw [hr.attr, length_ftruncate], fun {x v} hx => ?_, fun x hx hrest => ?_⟩
  · have hkept : ¬ (n < fc.attr.size ∧ Cache.endBlock B n ≤ x / B) := by
      intro hg
      rw [FileCache.byte, hr.entries, if_pos hg] at hx
      cases hx
    rw [(hold hkept).1] at hx
    rw [byteAt_ftruncate]
    split
    · exact hsync.byte hx
    · rename_i hge
      by_cases hlt : n < fc.attr.size
      · exact hclean hc hlt x v (by omega) (by omega) hx
      · rw [hsync.byte hx, byteAt_of_le (by rw [hsync.size]; omega)]
  · rw [hr.attr] at hx
    simp only at hx
    rw [byteAt_ftruncate, if_pos hx]
    have hkept : ¬ (n < fc.attr.size ∧ Cache.endBlock B n ≤ x / B) := by
      rintro ⟨-, hg⟩
      have h₁ : x / B ≤ (n - 1) / B := Nat.div_le_div_right (by omega)
      unfold Cache.endBlock at hg
      rw [if_neg (by omega)] at hg
      omega
    rw [(hold hkept).1, (hold hkept).2] at hrest
    exact hsync.rest x hrest

/-- The answer to the attributes of a resized file. -/
theorem Resizing.attrWb (hK : Backs E bk Spec exact fails) {w₁ w₂ : W} {a : AttrWbAns}
    (h : Resizing bk B exact cut Spec f V w) (hf : V f = some fc) (hr : E.rely w w₁)
    (hs : E.serve w₁ (.attrWb f fc.attr fc.stale) a w₂) :
    (a.err = 0 → Coherent bk B exact cut Spec (V.set f { fc with attr := a.attr, stale := a.stale }) w₂) ∧
    (a.err ≠ 0 → fails ∧
      (exact → Coherent bk B exact cut Spec (V.set f { fc with attr := a.attr, stale := a.stale }) w₂)) := by
  obtain ⟨ho, fc₁, hf₁, hk₀, hv₀⟩ := h
  rw [hf] at hf₁
  cases hf₁
  have hst := hK.rely hr f
  have ho₁ := fun g hg => (ho g hg).still (hK.rely hr g)
  obtain ⟨hstill, hfail, hsize, hk, hcont⟩ := hK.attrWb hs (hst.known hk₀)
  refine ⟨fun he => .set ho₁ hstill ⟨hk, fun hc ht => ?_⟩,
    fun he => ⟨hfail he, fun hx => .set ho₁ hstill ⟨hk, fun hc ht => absurd ((hcont ht).2.1 hx) he⟩⟩⟩
  obtain ⟨ht', -, hc'⟩ := hcont ht
  obtain ⟨ht₀, hsame⟩ := hst.trusts hk₀ ht'
  obtain ⟨srv, l, hsrv, hspec, hl, hby, hrest⟩ := hv₀ hc ht₀
  have hsrv' := hc' srv (hsame.trans hsrv)
  rw [if_pos he] at hsrv'
  refine ⟨_, l, hsrv', hspec, .resized hl hby hrest hsize, fun _ _ => ?_⟩
  rw [length_ftruncate, hl]

end

end

end Nfs
