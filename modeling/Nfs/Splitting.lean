/-
Writing a buffer in two pieces.

The loop of `write` cuts its buffer at the block boundaries. `writeFrom` is
that loop as a recursion on the bytes that are left, and it turns a
concatenation into a sequence (`writeFrom_append`): where the split falls on
a boundary the two loops do the same calls, and inside a block two calls of
`writeBlock` for adjacent ranges do what one does for both, since the valid
ranges are merged. The size is raised once or twice, to the same end.
-/
import Nfs.Representation

namespace Nfs

open PlainFile Resume Intervals

/-! ## One entry -/

theorem copyInto_append {dst a b : Bytes} {off : Nat} (h : off + a.length ≤ dst.length) :
    copyInto (copyInto dst off a) (off + a.length) b = copyInto dst off (a ++ b) := by
  have hlen : (dst.take off ++ a).length = off + a.length := by simp; omega
  unfold copyInto
  rw [List.take_left' hlen, List.append_assoc (dst.take off), List.drop_append, List.drop_append]
  rw [List.drop_eq_nil_of_le (by simp; omega), List.drop_eq_nil_of_le (by simp; omega)]
  simp only [List.nil_append, List.append_assoc, List.drop_drop, List.length_append, List.length_take]
  congr 4
  omega

/-- Two adjacent writes into a block. -/
theorem CacheEntry.write_append {B : Nat} {e : CacheEntry} (h : e.Wf B) {off : Nat} {a b : Bytes} (ha : a ≠ [])
    (hb : b ≠ []) (hle : off + a.length + b.length ≤ B) :
    (e.write off a).bind (·.write (off + a.length) b) = e.write off (a ++ b) := by
  have hpa := List.length_pos_iff.mpr ha
  have hpb := List.length_pos_iff.mpr hb
  have hlen := h.length
  obtain ⟨rs, hrs, -⟩ := RangeList.insertRange_spec h.gapped (show off < off + a.length by omega)
  have hboth := RangeList.insertRange_insertRange h.gapped (show off < off + a.length by omega)
    (show off + a.length < off + a.length + b.length by omega)
  rw [hrs, Option.bind_some] at hboth
  simp only [write, blockSize, hlen, hrs, Option.bind_eq_bind, List.length_append, ← Nat.add_assoc, hle,
    show off + a.length ≤ B by omega, if_true, Option.bind_some,
    length_copyInto (show off + a.length ≤ e.data.length by omega),
    hboth, copyInto_append (show off + a.length ≤ e.data.length by omega)]

namespace Cache

variable {B : Nat} {c : Cache} {f : Str} {fc : FileCache} {b off : Nat} {buf a a' : Bytes}

/-! ## One block -/

/-- Two changes of one block. -/
theorem touchEntry_touchEntry {u v : CacheEntry → Option CacheEntry} :
    (touchEntry B f b u c).bind (touchEntry B f b v) = touchEntry B f b (fun e => (u e).bind v) c := by
  rw [touchEntry_eq, touchEntry_eq]
  cases hf : c.file f with
  | none => rfl
  | some fc =>
    simp only [Option.bind_some]
    cases hu : u (entryOrNew B c fc b) with
    | none => rfl
    | some e =>
      have hlook : (fc.entries.insert b e).lookup b = some e := AList.lookup_insert _
      simp only [Option.map_some, Option.bind_some, touchEntry_eq, file_setFile_self, entryOrNew, hlook,
        Option.getD_some, AList.insert_insert]
      have hhas : ((c.withRecord f b).setFile f { fc with entries := fc.entries.insert b e }).withRecord f b =
          (c.withRecord f b).setFile f { fc with entries := fc.entries.insert b e } := by
        refine if_pos ?_
        rw [entry_setFile, if_pos rfl, hlook]
        rfl
      simp only [hhas, setFile_setFile]

/-- What is done to a block depends on its entry only. -/
theorem touchEntry_congr {u v : CacheEntry → Option CacheEntry} (hf : c.file f = some fc)
    (h : u (entryOrNew B c fc b) = v (entryOrNew B c fc b)) : touchEntry B f b u c = touchEntry B f b v c := by
  simp only [touchEntry_eq, hf, Option.bind_some, h]

theorem writeBlock_append (h : c.Wf B) (hf : c.file f = some fc) (ha : a ≠ []) (ha' : a' ≠ [])
    (hle : off + a.length + a'.length ≤ B) :
    (writeBlock B f b off a c).bind (writeBlock B f b (off + a.length) a') = writeBlock B f b off (a ++ a') c := by
  have h₁ : writeBlock B f b off a c = touchEntry B f b (·.write off a) c := if_pos (by omega)
  have h₂ : writeBlock B f b (off + a.length) a' = touchEntry B f b (·.write (off + a.length) a') := by
    funext c
    exact if_pos hle
  have h₃ : writeBlock B f b off (a ++ a') c = touchEntry B f b (·.write off (a ++ a')) c :=
    if_pos (by rw [List.length_append]; omega)
  rw [h₁, h₂, h₃, touchEntry_touchEntry]
  exact touchEntry_congr hf (CacheEntry.write_append (entryOrNew_wf h hf) ha ha' hle)

/-! ## The loop -/

/-- The loop of `write` for `buf` at `off`. -/
def writeFrom (B : Nat) (f : Str) (off : Nat) (buf : Bytes) (c : Cache) : Option Cache :=
  writeLoop B f buf buf.length (off / B) (off % B) (min (B - off % B) buf.length) 0 c

theorem writeLoop_nil (fuel cur bstart bsize written : Nat) :
    writeLoop B f [] fuel cur bstart bsize written c = some c := by
  cases fuel <;> simp [writeLoop]

theorem writeFrom_nil : writeFrom B f off [] c = some c := writeLoop_nil ..

/-- What has been written plays no part in the rest. -/
theorem writeLoop_drop : ∀ (fuel : Nat) (buf : Bytes) (cur bstart bsize written : Nat) (c : Cache),
    writeLoop B f buf fuel cur bstart bsize written c =
      writeLoop B f (buf.drop written) fuel cur bstart bsize 0 c
  | 0, buf, cur, bstart, bsize, written, c => by simp only [writeLoop, List.length_drop, Nat.sub_pos_iff_lt]
  | fuel + 1, buf, cur, bstart, bsize, written, c => by
    simp only [writeLoop, List.length_drop, List.drop_zero, Nat.zero_add, Nat.sub_pos_iff_lt]
    by_cases hlt : written < buf.length
    · rw [if_pos hlt, if_pos hlt]
      refine congrArg _ (funext fun c₁ => ?_)
      rw [writeLoop_drop fuel buf, writeLoop_drop fuel (buf.drop written), List.drop_drop, Nat.sub_sub]
    · rw [if_neg hlt, if_neg hlt]

/-- Any number of iterations that is enough is the same. -/
theorem writeLoop_fuel (hB : 0 < B) : ∀ (fuel fuel' : Nat) (buf : Bytes) (cur bstart bsize : Nat) (c : Cache),
    0 < bsize → buf.length ≤ fuel → buf.length ≤ fuel' →
    writeLoop B f buf fuel cur bstart bsize 0 c = writeLoop B f buf fuel' cur bstart bsize 0 c
  | 0, fuel', buf, cur, bstart, bsize, c, _, h, _ => by
    obtain rfl := List.eq_nil_of_length_eq_zero (Nat.le_zero.mp h)
    rw [writeLoop_nil, writeLoop_nil]
  | fuel + 1, 0, buf, cur, bstart, bsize, c, _, _, h => by
    obtain rfl := List.eq_nil_of_length_eq_zero (Nat.le_zero.mp h)
    rw [writeLoop_nil, writeLoop_nil]
  | fuel + 1, fuel' + 1, buf, cur, bstart, bsize, c, hpos, h, h' => by
    simp only [writeLoop]
    by_cases hlt : 0 < buf.length
    · rw [if_pos hlt, if_pos hlt]
      refine congrArg _ (funext fun c₁ => ?_)
      rw [writeLoop_drop fuel, writeLoop_drop fuel']
      by_cases hend : buf.length ≤ 0 + bsize
      · rw [List.drop_eq_nil_of_le hend, writeLoop_nil, writeLoop_nil]
      · exact writeLoop_fuel hB fuel fuel' _ _ _ _ _ (by omega) (by rw [List.length_drop]; omega)
          (by rw [List.length_drop]; omega)
    · rw [if_neg hlt, if_neg hlt]

/-- The loop as a recursion on the bytes that are left: up to the end of the
block, and then from the next block on. -/
theorem writeFrom_step (hB : 0 < B) (hne : buf ≠ []) :
    writeFrom B f off buf c = (writeBlock B f (off / B) (off % B) (buf.take (B - off % B)) c).bind
      (writeFrom B f (off + (B - off % B)) (buf.drop (B - off % B))) := by
  have hpos := List.length_pos_iff.mpr hne
  have hmod := Nat.mod_lt off hB
  obtain ⟨n, hn⟩ : ∃ n, buf.length = n + 1 := ⟨buf.length - 1, by omega⟩
  have htake : buf.take (min (B - off % B) buf.length) = buf.take (B - off % B) := by
    rw [← List.take_take, List.take_length]
  unfold writeFrom
  nth_rewrite 1 [hn]
  rw [writeLoop, if_pos hpos, List.drop_zero, htake]
  refine congrArg _ (funext fun c₁ => ?_)
  rw [writeLoop_drop, Nat.zero_add]
  by_cases hend : buf.length ≤ B - off % B
  · rw [Nat.min_eq_right hend, List.drop_length, List.drop_eq_nil_of_le hend, writeLoop_nil, writeLoop_nil]
  · -- The next block starts where this one ends.
    have hnext : off + (B - off % B) = (off / B + 1) * B := by
      have := Nat.div_add_mod off B
      rw [Nat.add_mul, Nat.mul_comm]
      omega
    rw [Nat.min_eq_left (by omega), hnext, Nat.mul_div_cancel _ hB, Nat.mul_mod_left, Nat.sub_zero,
      List.length_drop]
    exact writeLoop_fuel hB _ _ _ _ _ _ _ (by omega) (by rw [List.length_drop]; omega) (by rw [List.length_drop])

/-- **The loop turns a concatenation into a sequence.** By induction on the
length of the first piece: it ends inside the current block, or the first
call writes the same bytes either way. -/
theorem writeFrom_append (hB : 0 < B) (ha' : a' ≠ []) :
    ∀ (n : Nat) {a : Bytes} {c : Cache} {fc : FileCache} (off : Nat), a.length = n → c.Wf B → c.file f = some fc →
    (writeFrom B f off a c).bind (writeFrom B f (off + a.length) a') = writeFrom B f off (a ++ a') c := by
  intro n
  induction n using Nat.strong_induction_on with
  | _ n ih =>
  intro a c fc off hn h hf
  by_cases ha : a = []
  · subst ha
    rw [writeFrom_nil, Option.bind_some, List.nil_append, List.length_nil, Nat.add_zero]
  have hpos := List.length_pos_iff.mpr ha
  have hmod := Nat.mod_lt off hB
  have hboth : a ++ a' ≠ [] := by simp [ha]
  rw [writeFrom_step hB hboth, writeFrom_step hB ha]
  by_cases hlt : a.length < B - off % B
  · -- The first piece ends inside the block, where the second one goes on.
    have hdiv : (off + a.length) / B = off / B ∧ (off + a.length) % B = off % B + a.length := by
      rw [Nat.div_mod_unique hB]
      have := Nat.div_add_mod off B
      exact ⟨by omega, by omega⟩
    have hrest : B - (off % B + a.length) = B - off % B - a.length := by omega
    have hnext : off + a.length + (B - off % B - a.length) = off + (B - off % B) := by omega
    have htake : a'.take (B - off % B - a.length) ≠ [] := by
      have := List.length_pos_iff.mpr ha'
      exact List.ne_nil_of_length_pos (by rw [List.length_take]; omega)
    rw [List.take_of_length_le (le_of_lt hlt), List.drop_eq_nil_of_le (le_of_lt hlt), List.take_append,
      List.drop_append, List.take_of_length_le (le_of_lt hlt), List.drop_eq_nil_of_le (le_of_lt hlt),
      List.nil_append, ← writeBlock_append h hf ha htake (by rw [List.length_take]; omega)]
    have hnil : writeFrom B f (off + (B - off % B)) [] = some := funext fun _ => writeFrom_nil
    rw [hnil, Option.bind_fun_some, Option.bind_assoc]
    refine congrArg _ (funext fun c₁ => ?_)
    rw [writeFrom_step hB ha', hdiv.1, hdiv.2, hrest, hnext]
  · -- The first piece fills the block.
    have hle : B - off % B ≤ a.length := not_lt.mp hlt
    have hne : a.take (B - off % B) ≠ [] := List.ne_nil_of_length_pos (by rw [List.length_take]; omega)
    obtain ⟨c₁, fc₁, h₁, hc₁, -⟩ := writeBlock_spec hB h hf (off / B) (off % B) hne (by rw [List.length_take]; omega)
    rw [List.take_append_of_le_length hle, List.drop_append_of_le_length hle, h₁, Option.bind_some, Option.bind_some,
      ← ih (a.drop (B - off % B)).length (by rw [List.length_drop]; omega) _ rfl hc₁.wf hc₁.file, List.length_drop]
    rw [show off + (B - off % B) + (a.length - (B - off % B)) = off + a.length by omega]

/-! ## The size -/

/-- The part of `write` that raises the size. -/
def grow (f : Str) (size : Nat) (c : Cache) : Option Cache :=
  (c.file f).bind fun fc => if size > fc.attr.size then setSize f size c else some c

theorem store_eq : store B f off buf c = (grow f (off + buf.length) c).bind (writeFrom B f off buf) := by
  unfold store grow
  cases c.file f with
  | none => rfl
  | some fc =>
    simp only [Option.bind_eq_bind, Option.bind_some]
    split <;> rfl

theorem grow_eq (hf : c.file f = some fc) {n : Nat} : grow f n c =
    if n > fc.attr.size then some (c.setFile f { fc with attr := { fc.attr with size := n } }) else some c := by
  rw [grow, hf, Option.bind_some, setSize_file hf]

theorem grow_grow {m n : Nat} (h : m ≤ n) : (grow f m c).bind (grow f n) = grow f n c := by
  cases hf : c.file f with
  | none => simp only [grow, hf, Option.bind_none]
  | some fc =>
    rw [grow_eq hf]
    by_cases hm : m > fc.attr.size
    · rw [grow_eq hf, if_pos hm, if_pos (show n > fc.attr.size by omega), Option.bind_some,
        grow_eq file_setFile_self, setFile_setFile]
      obtain rfl | hlt := Nat.eq_or_lt_of_le h
      · exact if_neg (Nat.lt_irrefl m)
      · exact if_pos hlt
    · rw [if_neg hm, Option.bind_some]

/-- Raising the size and changing a block do not depend on one another. -/
theorem touchEntry_grow {u : CacheEntry → Option CacheEntry} {n : Nat} :
    (touchEntry B f b u c).bind (grow f n) = (grow f n c).bind (touchEntry B f b u) := by
  cases hf : c.file f with
  | none => simp only [touchEntry_eq, grow, hf, Option.bind_none]
  | some fc =>
    have hafter : ∀ e, grow f n ((c.withRecord f b).setFile f { fc with entries := fc.entries.insert b e }) =
        if n > fc.attr.size then some ((c.withRecord f b).setFile f
          { fc with attr := { fc.attr with size := n }, entries := fc.entries.insert b e })
        else some ((c.withRecord f b).setFile f { fc with entries := fc.entries.insert b e }) := by
      intro e
      rw [grow_eq file_setFile_self, setFile_setFile]
    rw [grow_eq hf, touchEntry_eq, hf, Option.bind_some]
    by_cases hn : n > fc.attr.size
    · have hrec : (c.setFile f { fc with attr := { fc.attr with size := n } }).withRecord f b =
          (c.withRecord f b).setFile f { fc with attr := { fc.attr with size := n } } := by
        unfold withRecord
        rw [entry_setFile, if_pos rfl, entry_of_file hf]
        split <;> rfl
      rw [if_pos hn, Option.bind_some, touchEntry_eq, file_setFile_self, Option.bind_some, hrec]
      simp only [setFile_setFile, entryOrNew]
      show Option.bind (Option.map _ (u ((fc.entries.lookup b).getD (CacheEntry.new B c.nextAddr)))) _ =
        Option.map _ (u ((fc.entries.lookup b).getD (CacheEntry.new B c.nextAddr)))
      cases u ((fc.entries.lookup b).getD (CacheEntry.new B c.nextAddr)) with
      | none => rfl
      | some e => simp only [Option.map_some, Option.bind_some, hafter, hn, if_true]
    · rw [if_neg hn, Option.bind_some, touchEntry_eq, hf, Option.bind_some]
      cases u (entryOrNew B c fc b) with
      | none => rfl
      | some e => simp only [Option.map_some, Option.bind_some, hafter, hn, if_false]

theorem writeLoop_grow {n : Nat} : ∀ (fuel cur bstart bsize written : Nat) (c : Cache),
    (writeLoop B f buf fuel cur bstart bsize written c).bind (grow f n) =
      (grow f n c).bind (writeLoop B f buf fuel cur bstart bsize written)
  | 0, cur, bstart, bsize, written, c => by
    by_cases hlt : written < buf.length
    · simp only [writeLoop, hlt, if_true, Option.bind_none, Option.bind_fun_none]
    · simp only [writeLoop, hlt, if_false, Option.bind_some, Option.bind_fun_some]
  | fuel + 1, cur, bstart, bsize, written, c => by
    by_cases hlt : written < buf.length
    · simp only [writeLoop, hlt, if_true, Option.bind_eq_bind, Option.bind_assoc, writeLoop_grow fuel]
      rw [← Option.bind_assoc, ← Option.bind_assoc]
      congr 1
      unfold writeBlock
      split
      · exact touchEntry_grow
      · simp only [Option.bind_none, Option.bind_fun_none]
    · simp only [writeLoop, hlt, if_false, Option.bind_some, Option.bind_fun_some]

theorem grow_wf (h : c.Wf B) (hf : c.file f = some fc) (n : Nat) :
    ∃ c' fc', grow f n c = some c' ∧ c'.Wf B ∧ c'.file f = some fc' := by
  rw [grow_eq hf]
  split
  · exact ⟨_, _, rfl, h.setFile hf rfl, file_setFile_self⟩
  · exact ⟨c, fc, rfl, h, hf⟩

/-- `write` of a concatenation, once the attributes are there. -/
theorem store_append (hB : 0 < B) (h : c.Wf B) (hf : c.file f = some fc) (ha' : a' ≠ []) :
    (store B f off a c).bind (store B f (off + a.length) a') = store B f off (a ++ a') c := by
  obtain ⟨c₁, fc₁, h₁, hw₁, hf₁⟩ := grow_wf h hf (off + a.length + a'.length)
  have hstore : ∀ c', store B f (off + a.length) a' c' =
      (grow f (off + a.length + a'.length) c').bind (writeFrom B f (off + a.length) a') := fun _ => store_eq
  calc (store B f off a c).bind (store B f (off + a.length) a')
      = ((grow f (off + a.length) c).bind fun c' => (writeFrom B f off a c').bind
          (grow f (off + a.length + a'.length))).bind (writeFrom B f (off + a.length) a') := by
        rw [store_eq, funext hstore]
        simp only [Option.bind_assoc]
    _ = (((grow f (off + a.length) c).bind (grow f (off + a.length + a'.length))).bind (writeFrom B f off a)).bind
          (writeFrom B f (off + a.length) a') := by
        simp only [writeFrom, writeLoop_grow, Option.bind_assoc]
    _ = (writeFrom B f off a c₁).bind (writeFrom B f (off + a.length) a') := by
        rw [grow_grow (by omega), h₁, Option.bind_some]
    _ = store B f off (a ++ a') c := by
        rw [writeFrom_append hB ha' _ _ rfl hw₁ hf₁, store_eq, List.length_append, ← Nat.add_assoc, h₁,
          Option.bind_some]

theorem cacheFileAttr_ask (hf : c.file f = none) : cacheFileAttr f c = .ask c (Call.attrFt f) fun ans =>
    if (ans : AttrFtAns).err ≠ 0 then .done c (.err ans.err)
    else .done (c.setFile f (.ofAttr ans.attr)) (.ok ()) := by
  simp only [cacheFileAttr, bind, Prog.get, Act.bind, hf]
  refine congrArg (Act.ask c (Call.attrFt f)) (funext fun ans => ?_)
  show (if _ then _ else _ : CacheM Unit) c = _
  split <;> rfl

/-- `write` on a cached file asks for nothing. -/
theorem write_done {c' : Cache} (hf : c.file f = some fc) (hs : store B f off buf c = some c') :
    write B f off buf c = .done c' (.ok ()) := by
  simp only [write, bind, cacheFileAttr_done hf, Act.bind, local_, Prog.step, hs, Option.map_some]

/-- Otherwise it asks for the attributes first. -/
theorem write_ask (hf : c.file f = none) : write B f off buf c = .ask c (Call.attrFt f) fun ans =>
    if (ans : AttrFtAns).err ≠ 0 then .done c (.err ans.err)
    else write B f off buf (c.setFile f (.ofAttr ans.attr)) := by
  simp only [write, bind, cacheFileAttr_ask hf, Act.bind]
  refine congrArg (Act.ask c (Call.attrFt f)) (funext fun ans => ?_)
  split
  · rfl
  · rw [cacheFileAttr_done file_setFile_self]

/-- Two writes on a cached file. -/
theorem write_append (hB : 0 < B) (h : c.Wf B) (hf : c.file f = some fc) (ha' : a' ≠ []) :
    write B f off (a ++ a') c = (do write B f off a; write B f (off + a.length) a' : CacheM Unit) c := by
  obtain ⟨c₁, fc₁, h₁, hw₁, -, hf₁, -⟩ := store_spec hB h hf off a
  obtain ⟨c₂, -, h₂, -⟩ := store_spec hB hw₁ hf₁ (off + a.length) a'
  have hboth : store B f off (a ++ a') c = some c₂ := by rw [← store_append hB h hf ha', h₁, Option.bind_some, h₂]
  simp only [bind, write_done hf h₁, Act.bind, write_done hf₁ h₂, write_done hf hboth]

end Cache

/-- **A write may be split.** From every state of a run, `write` of a
concatenation is the same computation as `write` of the first piece followed
by `write` of the second: it issues the same request, if any, and for every
answer it ends with the same result and the same cache. -/
theorem write_splits {B : Nat} {order : HashOrder} {S : LoneCache} (hB : 0 < B) (h : CacheReach B order S) (f : Str)
    (off : Nat) (a : Bytes) {b : Bytes} (hb : b ≠ []) :
    Cache.write B f off (a ++ b) S.cache =
      (do Cache.write B f off a; Cache.write B f (off + a.length) b : CacheM Unit) S.cache := by
  have hw := h.wf hB
  cases hf : S.cache.file f with
  | some fc => exact Cache.write_append hB hw hf hb
  | none =>
    simp only [bind, Cache.write_ask hf, Act.bind]
    refine congrArg (Act.ask S.cache (Call.attrFt f)) (funext fun ans => ?_)
    split
    · rfl
    · exact Cache.write_append hB (hw.newFile hf) Cache.file_setFile_self hb

/-- Three bytes from offset 1 on, split in the middle of a block. -/
theorem write_splits_inside : ∃ S : LoneCache, CacheReach 2 .inserted S ∧ S.cache.countDirtyBlocks = 1 ∧
    Cache.write 2 [102] 1 ([1, 2] ++ [3]) S.cache =
      (do Cache.write 2 [102] 1 [1, 2]; Cache.write 2 [102] 3 [3] : CacheM Unit) S.cache := by
  obtain ⟨S, h, hS⟩ := exists_written
  exact ⟨S, h, by rw [LoneCache.cache, hS]; decide +kernel, write_splits (by decide) h [102] 1 [1, 2] (by simp)⟩

end Nfs
