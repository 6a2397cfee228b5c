/-
What a client shows of a file in a given state, whatever led to it.

Of a cached file that is the cached size, and of every byte the cached value
or, where there is none, the server's (`Files.view`). A read that returns 0
returns bytes of the view (`NetFS.read_view`). Filling the cache does not
change the view, and neither does writing back, at no point and whatever
fails (`view_fetches`, `view_flushes`).

Nothing is said about how good a view is: it may be out of date, or wrong
after a truncate. `Coherent` is about that.
-/
import Nfs.Plain
import Nfs.Server

namespace Nfs

open PlainFile Resume

/-- A callback fails when the response carries an error, and only then. -/
theorem Call.failed_ans {r : Call} {resp : r.req.Resp} : Plain.failed r (r.ans resp) ↔ r.req.error resp ≠ 0 := by
  cases r with
  | attrFt => exact Iff.rfl
  | contentFt => exact not_congr (doRead_error ▸ Iff.rfl)
  | contentWb => exact not_congr (doWrite_error ▸ Iff.rfl)
  | attrWb => exact not_congr (doWriteAttr_error ▸ Iff.rfl)

/-! ## One file -/

namespace FileCache

variable {B : Nat} {fc fc' : FileCache} {srv srv' : Bytes}

/-- What is shown of a cached file, the server holding `srv`. -/
def view (B : Nat) (fc : FileCache) (srv : Bytes) : Bytes :=
  (List.range fc.attr.size).map fun x => (fc.byte B x).getD (byteAt srv x)

@[simp] theorem length_view : (fc.view B srv).length = fc.attr.size := by simp [view]

theorem byteAt_view {x : Nat} : byteAt (fc.view B srv) x =
    if x < fc.attr.size then (fc.byte B x).getD (byteAt srv x) else 0 := by
  split
  · rename_i h
    rw [byteAt_of_lt (by simpa using h)]
    simp [view]
  · rename_i h
    exact byteAt_of_le (by simpa using h)

theorem view_congr (hsize : fc'.attr.size = fc.attr.size)
    (h : ∀ x, x < fc.attr.size → (fc'.byte B x).getD (byteAt srv' x) = (fc.byte B x).getD (byteAt srv x)) :
    fc'.view B srv' = fc.view B srv := by
  refine ext_byteAt (by simp [hsize]) fun x => ?_
  rw [byteAt_view, byteAt_view, hsize]
  split
  · rename_i hx
    exact h x hx
  · rfl

theorem view_ofAttr {attr : FileAttr} (h : srv.length = attr.size) : (ofAttr attr).view B srv = srv := by
  refine ext_byteAt (by simp [ofAttr, h]) fun x => ?_
  rw [byteAt_view]
  split
  · simp [byte, ofAttr]
  · rename_i hx
    exact (byteAt_of_le (by rw [h]; exact not_lt.mp hx)).symm

theorem Filled.view {start n : Nat} {data : Bytes} (h : fc.Filled B start n data fc')
    (hd : ∀ x, start ≤ x / B → x / B < start + n → byteAt data (x - start * B) = byteAt srv x) :
    fc'.view B srv = fc.view B srv := by
  refine view_congr (by rw [h.attr]) fun x _ => ?_
  rw [h.byte]
  split
  · rename_i hin
    rw [hd x hin.1 hin.2, Option.getD_some]
  · rfl

/-- Sending cached bytes, or some of them, changes nothing that is shown. -/
theorem Extent.view {off k : Nat} {data : Bytes} (h : fc.Extent B off data) :
    fc.view B (pwrite srv off (data.take k)) = fc.view B srv := by
  refine view_congr rfl fun x _ => ?_
  rw [byteAt_pwrite]
  split
  · rename_i hin
    rw [List.length_take] at hin
    have := h.byte (x - off) (by omega)
    rw [show off + (x - off) = x by omega] at this
    rw [this, Option.getD_some, Option.getD_some]
  · rfl

/-- Only the size and the server's bytes below it matter. -/
theorem view_attr {attr : FileAttr} {stale : Bool} (hsize : attr.size = fc.attr.size)
    (h : ∀ x, x < fc.attr.size → byteAt srv' x = byteAt srv x) :
    ({ fc with attr := attr, stale := stale } : FileCache).view B srv' = fc.view B srv :=
  view_congr hsize fun x hx => congrArg _ (h x hx)

/-- What a read returns of the file. -/
theorem view_pread {off n : Nat} {data : Bytes} (hlen : data.length = min n (fc.attr.size - off))
    (hby : ∀ i, i < data.length → fc.byte B (off + i) = some (byteAt data i)) :
    data = pread (fc.view B srv) off n := by
  refine ext_byteAt (by simp [hlen]) fun i => ?_
  rw [byteAt_pread, byteAt_view]
  by_cases hi : i < data.length
  · rw [if_pos (by omega), if_pos (by omega), hby i hi, Option.getD_some]
  · rw [byteAt_of_le (by omega)]
    split
    · rw [if_neg (by omega)]
    · rfl

end FileCache

/-! ## All files -/

/-- What is shown of `f`, the server holding `srv`. -/
def Files.view (B : Nat) (V : Files) (f : Str) (srv : Option Bytes) : Option Bytes :=
  match V f with
  | none => srv
  | some fc => some (fc.view B (srv.getD []))

section
variable {B : Nat} {V : Files} {f g : Str} {fc fc' : FileCache} {srv srv' : Option Bytes}

theorem Files.view_none (h : V f = none) : V.view B f srv = srv := by rw [Files.view, h]

theorem Files.view_some (h : V f = some fc) : V.view B f srv = some (fc.view B (srv.getD [])) := by rw [Files.view, h]

theorem Files.view_set_self : (V.set f fc).view B f srv = some (fc.view B (srv.getD [])) :=
  view_some Files.set_self

theorem Files.view_set_other (h : f ≠ g) : (V.set g fc).view B f srv = V.view B f srv := by
  rw [Files.view, Files.set_other h, Files.view]

/-- A cached file is replaced by one that shows the same, and the server's
other files stay as they are. -/
theorem Files.view_replace (hg : V g = some fc) (ho : f ≠ g → srv' = srv)
    (hv : f = g → fc'.view B (srv'.getD []) = fc.view B (srv.getD [])) :
    (V.set g fc').view B f srv' = V.view B f srv := by
  by_cases hfg : f = g
  · subst hfg
    rw [Files.view_set_self, Files.view_some hg, hv rfl]
  · rw [Files.view_set_other hfg, ho hfg]

end

/-- The requests that write back. -/
def Req.WritesBack : Req → Prop
  | .write .. => True
  | .truncate .. => True
  | _ => False

instance : DecidablePred Req.WritesBack
  | .write .. | .truncate .. => .isTrue trivial
  | .access _ | .create _ | .stat _ | .statfs | .readdir _ | .read .. => .isFalse id
  | .unlink _ | .rmdir _ | .mkdir .. | .rename .. => .isFalse id

/-- What the answers say and do about the content of the server's files. A
change that fails may have been carried out, a write in part. -/
structure Contents {W : Type} (E : Env Cache W Call.Ans) (content : W → Str → Option Bytes) : Prop where
  seen : ∀ c w, E.seen c w
  rely : ∀ {w w'}, E.rely w w' → content w' = content w
  attrFt : ∀ {w w' f} {a : AttrFtAns}, E.serve w (.attrFt f) a w' → content w' = content w ∧
    (a.err = 0 → ∃ c, content w f = some c ∧ c.length = a.attr.size)
  contentFt : ∀ {w w' f off n} {a : ContentFtAns}, E.serve w (.contentFt f off n) a w' → content w' = content w ∧
    (a.err = 0 → ∃ c, content w f = some c ∧ ∀ i, i < n → byteAt a.data i = byteAt c (off + i))
  contentWb : ∀ {w w' f off data t s} {a : ContentWbAns}, E.serve w (.contentWb f off data t s) a w' →
    (∀ g, g ≠ f → content w' g = content w g) ∧
      ∃ k, content w' f = (content w f).map (pwrite · off (data.take k))
  attrWb : ∀ {w w' f attr s} {a : AttrWbAns}, E.serve w (.attrWb f attr s) a w' → a.attr.size = attr.size ∧
    (∀ g, g ≠ f → content w' g = content w g) ∧
      (content w' f = (content w f).map (ftruncate · attr.size) ∨ (a.err ≠ 0 ∧ content w' f = content w f))

section
variable {W : Type} {E : Env Cache W Call.Ans} {content : W → Str → Option Bytes} {B : Nat} {Q : Option Bytes → Prop}

theorem view_fetches (hK : Contents E content) (hB : 0 < B) (f g : Str) :
    Fetches E B (fun V w => Q (V.view B f (content w f))) (fun V w => Q (V.view B f (content w f))) g := by
  refine ⟨fun _ _ => hK.seen _ _, ?_, ?_⟩
  · intro V w w₁ w₂ a hQ hg hr hs
    obtain ⟨hc, hok⟩ := hK.attrFt hs
    rw [← hK.rely hr, ← hc] at hQ
    refine ⟨fun he => ?_, fun _ => hQ⟩
    obtain ⟨c, hcf, hlen⟩ := hok he
    by_cases hfg : f = g
    · subst hfg
      rw [Files.view_none hg] at hQ
      rw [hc, hcf] at hQ ⊢
      rw [Files.view_set_self, Option.getD_some, FileCache.view_ofAttr hlen]
      exact hQ
    · rw [Files.view_set_other hfg]
      exact hQ
  · intro V w w₁ w₂ fc start n a hQ hg hr hs
    obtain ⟨hc, hok⟩ := hK.contentFt hs
    rw [← hK.rely hr, ← hc] at hQ
    refine ⟨fun he fc' hfill => ?_, fun _ => hQ⟩
    obtain ⟨c, hcf, hdata⟩ := hok he
    rw [Files.view_replace hg (fun _ => rfl) fun hfg => hfill.view fun x h₁ h₂ => ?_]
    · exact hQ
    · obtain ⟨hle, hlt⟩ := Cache.run_offset hB h₁ h₂
      rw [hc, hfg, hcf, Option.getD_some, hdata _ hlt]
      congr 1; omega

/-- `fails` is what is known when a write-back has failed. -/
theorem view_flushes (hK : Contents E content) (fails : W → Prop)
    (hfail : ∀ {w r a w'}, E.serve w r a w' → r.req.WritesBack → Plain.failed r a → fails w') (f g : Str) :
    Flushes E B (fun V w => Q (V.view B f (content w f))) (fun V w => Q (V.view B f (content w f)) ∧ fails w)
      (fun _ V w => Q (V.view B f (content w f))) g := by
  refine ⟨fun _ _ => hK.seen _ _, fun hQ _ _ => hQ, ?_, ?_, ?_, And.left⟩
  · intro V w w₁ w₂ S fc off data a hQ hg hx hr hs
    obtain ⟨ho, k, hk⟩ := hK.contentWb hs
    rw [← hK.rely hr] at hQ
    have hview : (V.set g (fc.restamp a.time a.stale)).view B f (content w₂ f) = V.view B f (content w₁ f) := by
      refine Files.view_replace hg (ho f) fun hfg => ?_
      subst hfg
      rw [hk]
      cases content w₁ f with
      | none => rfl
      | some c => exact hx.view
    rw [hview]
    exact ⟨fun _ => hQ, fun he => ⟨hQ, hfail hs trivial he⟩⟩
  · intro V w S fc fc' hQ hg _ hclean
    have hview : fc'.view B ((content w f).getD []) = fc.view B ((content w f).getD []) :=
      FileCache.view_congr (by rw [hclean.attr]) fun x _ => by rw [hclean.byte]
    rw [Files.view_replace hg (fun _ => rfl) fun _ => hview]
    exact hQ
  · intro V w w₁ w₂ fc a hQ hg hr hs
    obtain ⟨hsize, ho, hcont⟩ := hK.attrWb hs
    rw [← hK.rely hr] at hQ
    have hview : (V.set g { fc with attr := a.attr, stale := a.stale }).view B f (content w₂ f) =
        V.view B f (content w₁ f) := by
      refine Files.view_replace hg (ho f) fun hfg => ?_
      subst hfg
      refine FileCache.view_attr hsize fun x hx => ?_
      obtain hcut | ⟨-, hsame⟩ := hcont
      · rw [hcut]
        cases content w₁ f with
        | none => rfl
        | some c => exact byteAt_ftruncate.trans (if_pos hx)
      · rw [hsame]
    rw [hview]
    exact ⟨fun _ => hQ, fun he => ⟨hQ, hfail hs trivial he⟩⟩

end

/-! ## Over the server -/

/-- What the server does to the content of its files. -/
theorem Server.contents {W : Type} {S : Service W} (world : W → Server) (hseen : ∀ c w, S.seen c w)
    (hrely : ∀ {w w'}, S.rely w w' → (world w').content = (world w).content)
    (hserve : ∀ {w r a w'}, S.serve w r a w' → (world w).Serve r a (world w')) :
    Contents S.back fun w => (world w).content := by
  refine ⟨hseen, hrely, ?_, ?_, ?_, ?_⟩
  · rintro w w' f _ ⟨resp, hs, rfl⟩
    exact ⟨by rw [(hserve hs).1], (hserve hs).stat_content⟩
  · rintro w w' f off n _ ⟨resp, hs, rfl⟩
    exact ⟨(hserve hs).1.content, (hserve hs).read_content⟩
  · rintro w w' f off data t b _ ⟨resp, hs, -⟩
    obtain hw | ⟨k, s, s', hc⟩ := (hserve hs).write_change
    · exact ⟨fun g _ => by rw [hw], 0, by simp [hw]⟩
    · exact ⟨hc.content_other, k, hc.content⟩
  · rintro w w' f attr b _ ⟨resp, hs, rfl⟩
    refine ⟨doWriteAttr_size, ?_⟩
    obtain ⟨hw, he⟩ | ⟨s, s', hc⟩ := (hserve hs).truncate_change
    · exact ⟨fun g _ => by rw [hw], .inr ⟨doWriteAttr_error.trans_ne he, by rw [hw]⟩⟩
    · exact ⟨hc.content_other, .inl hc.content⟩

/-- A client that has the world to itself. -/
def Service.solo {W : Type} (serve : W → (r : Req) → r.Resp → W → Prop) : Service W where
  serve := serve
  rely := Eq
  seen _ _ := True

theorem Service.solo_contents {W : Type} {serve : W → (r : Req) → r.Resp → W → Prop} (world : W → Server)
    (hserve : ∀ {w r a w'}, serve w r a w' → (world w).Serve r a (world w')) :
    Contents (Service.solo serve).back fun w => (world w).content :=
  Server.contents world (fun _ _ => trivial) (fun hr => by rw [show _ = _ from hr]) hserve

/-- What the client shows of `f`. -/
def NetFS.view (cfg : Config) (s : NetFS) (w : Server) (f : Str) : Option Bytes :=
  s.files.view cfg.blockSize f (w.content f)

/-- **A read returns what is shown.** -/
theorem NetFS.read_view {W : Type} {serve : W → (r : Req) → r.Resp → W → Prop} (world : W → Server)
    (hserve : ∀ {w r a w'}, serve w r a w' → (world w).Serve r a (world w')) {cfg : Config} (hB : 0 < cfg.blockSize)
    {s s' : NetFS} {w w' : W} {f : Str} {off n : Nat} {data : Bytes} (h : s.cache.Wf cfg.blockSize)
    (hx : Exec serve (NetFS.read cfg f off n s) w s' (.ok data) w') :
    ∃ l, s.view cfg (world w) f = some l ∧ data = pread l off n := by
  have hK := Service.solo_contents world hserve
  have hF := view_fetches (Q := (· = s.view cfg (world w) f)) hK hB f f
  have hU := fun g => Flushes.nothing (E := (Service.solo serve).back) (B := cfg.blockSize) (fun _ => trivial) g
  have hQ : (NetFS.read cfg f off n s).wp (Service.solo serve).net
      (fun _ _ o => ∀ data, o = .ok data → ∃ l, s.view cfg (world w) f = some l ∧ data = pread l off n) w := by
    refine NetFS.Ends.seq (NetFS.onCache_rule
      (P := fun data => ∃ l, s.view cfg (world w) f = some l ∧ data = pread l off n)
      (Cache.read_rule hF hB h rfl) ?_) ?_ fun _ _ _ _ _ _ he => by cases he
    · rintro c w₁ data - hJ ⟨fc, hf, hlen, hby⟩
      rw [Files.view_some hf] at hJ
      exact ⟨_, hJ.symm, FileCache.view_pread hlen hby⟩
    · intro s₁ w₁ data h₁ _ hd
      refine NetFS.Ends.seq (NetFS.evict_rule hB hU (fun _ _ _ => trivial) h₁ trivial) ?_
        fun _ _ _ _ _ _ he => by cases he
      rintro _ _ _ - - - _ ⟨⟩
      exact hd
  exact Act.wp.exec hQ hx data rfl

/-- Every read of `f` that returns 0 returns bytes of what is shown. -/
def ReadsShown (cfg : Config) (s : NetFS) (w : Server) (f : Str) : Prop :=
  ∀ off n s' data w', Exec Server.Serve (NetFS.read cfg f off n s) w s' (.ok data) w' →
    ∃ l, s.view cfg w f = some l ∧ data = pread l off n

theorem ReadsShown.of_wf {cfg : Config} (hB : 0 < cfg.blockSize) {s : NetFS} {w : Server} {f : Str}
    (h : s.cache.Wf cfg.blockSize) : ReadsShown cfg s w f :=
  fun _ _ _ _ _ hx => NetFS.read_view id id hB h hx

end Nfs
