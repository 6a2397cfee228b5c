/-
`FileOp::read` and `FileOp::write` at large offsets.

Both keep the result of `lseek` in an `int` and take a negative one for a
failure. So an offset whose bit 31 is set makes them give up although the
call has succeeded, and then they return whatever `errno` holds, which may
well be 0.
-/
import Mathlib.Algebra.Ring.Int.Defs
import Nfs.Host

namespace Nfs

open PlainFile Resume

namespace Kernel

/-- A call that succeeds, as all calls do here; what is written is written as a
whole, and what is read may be less than was asked for. Of the calls that
neither `read` nor `write` makes nothing is said. -/
def Succeeds (k : Kernel) : (c : HostCall) → c.Ans → Kernel → Prop
  | .sys (.write fd buf), a, k' => a = .ok buf.length ∧ k.Sys (.write fd buf) a k'
  | .sys c, a, k' => (∃ v, a = .ok v) ∧ k.Sys c a k'
  | .openR p, a, k' => ∃ fd, a = .ok fd ∧ k.fds fd = none ∧ (k.fs.files p).isSome ∧
      k' = { k with fds := Function.update k.fds fd (some (p, 0)) }
  | .read fd size, a, k' => ∃ got p o s, a = .ok got ∧ k.fds fd = some (p, o) ∧ k.fs.files p = some s ∧
      got.1 = pread s.content o got.1.length ∧ (got.1 = [] → size = 0 ∨ s.content.length ≤ o) ∧
      k'.fds = Function.update k.fds fd (some (p, o + got.1.length)) ∧ k.fs.Peek p k'.fs
  | _, a, _ => ∃ v, a = .ok v

/-- What only `SysCall` is used for. -/
def SysSucceeds (k : Kernel) (c : SysCall) (a : c.Ans) (k' : Kernel) : Prop := k.Succeeds (.sys c) a k'

theorem Succeeds.ok {k k' : Kernel} {q : HostCall} {a : q.Ans} (h : k.Succeeds q a k') : ∃ v, a = .ok v := by
  cases q with
  | sys c =>
    cases c with
    | write fd buf => exact ⟨_, h.1⟩
    | _ => exact h.1
  | openR p => exact h.imp fun _ h => h.1
  | read fd size => exact h.imp fun _ ⟨_, _, _, h, _⟩ => h
  | _ => exact h

end Kernel

/-- The conversion to `int` keeps an offset that is not negative from becoming
so just when bit 31 is not set. -/
theorem toInt_nonneg {offset : Int} : 0 ≤ toInt offset ↔ offset % 2 ^ 32 < 2 ^ 31 := by
  have hm : ((2 ^ 32 : Nat) : Int) = 4294967296 := rfl
  rw [toInt, Int.bmod_def, hm]
  split <;> omega

section
variable {k : Kernel} {errno : Int} {c : Bytes} {p : Str}

theorem host_wp {q : HostCall} {Q : Int → Kernel → Outcome (Option q.Val) → Prop}
    (h : ∀ v k', k.Succeeds q (.ok v) k' → Q errno k' (.ok (some v))) :
    ((host q) errno).wp (Env.solo Kernel.Succeeds) Q k := by
  refine ⟨trivial, ?_⟩
  rintro _ rfl a k' hs
  obtain ⟨v, rfl⟩ := Kernel.Succeeds.ok hs
  exact h v k' hs

theorem sys_wp {q : SysCall} {Q : Int → Kernel → Outcome (Option q.Val) → Prop}
    (h : ∀ v k', k.SysSucceeds q (.ok v) k' → Q errno k' (.ok (some v))) :
    ((sys q) errno).wp (Env.solo Kernel.SysSucceeds) Q k := by
  refine ⟨trivial, ?_⟩
  rintro _ rfl a k' hs
  obtain ⟨v, rfl⟩ := Kernel.Succeeds.ok hs
  exact h v k' hs

/-! ## Reading -/

/-- What the loop keeps: the descriptor stands where the next byte is, and the
file holds what it held. -/
def Reading (p : Str) (c : Bytes) (fd off : Nat) (buf : Bytes) (k : Kernel) : Prop :=
  k.fs.content p = some c ∧ k.fds fd = some (p, off + buf.length) ∧ buf = pread c off buf.length

/-- **The loop** gets everything up to the end of the file. -/
theorem readLoop_wp {fd off size : Nat} : ∀ (rounds : Nat) {readSize : Int} {buf : Bytes} {k : Kernel},
    Reading p c fd off buf k → 0 ≤ readSize → buf.length ≤ size → size ≤ buf.length + rounds →
    ((FileOp.readLoop fd size rounds readSize buf) errno).wp (Env.solo Kernel.Succeeds)
      (Returns fun r e _ => e = errno ∧ 0 ≤ r.1 ∧ r.2 = pread c off size) k
  | 0, readSize, buf, k, ⟨_, _, hb⟩, h0, hle, hr => by
    obtain rfl : size = buf.length := by omega
    exact ⟨rfl, h0, hb⟩
  | rounds + 1, readSize, buf, k, ⟨hc, hfd, hb⟩, h0, hle, hr => by
    rw [FileOp.readLoop]
    split
    · rename_i hlt
      refine wp_bind.mpr (host_wp fun got k' hs => ?_)
      obtain ⟨_, q, o, s, ⟨⟩, hfd', hs, hgot, hend, hfds', hpeek⟩ := hs
      cases hfd.symm.trans hfd'
      have hsc : s.content = c := by
        rw [Server.content, hs] at hc
        exact Option.some.inj hc
      rw [hsc] at hgot hend
      show Act.wp _ _ ((if _ then _ else _ : HostM (Int × Bytes)) errno) k'
      split
      · -- Nothing was got, so the file ends here.
        rename_i hnil
        have hnil : got.1 = [] := List.eq_nil_of_length_eq_zero (by omega)
        have hlen : c.length ≤ off + buf.length := (hend hnil).resolve_left (by omega)
        refine ⟨rfl, by simp, ?_⟩
        show buf = _
        rw [hb, pread, pread, List.take_of_length_le (by simp; omega), List.take_of_length_le (by simp; omega)]
      · have hlen' := got.2
        refine readLoop_wp rounds ⟨?_, ?_, ?_⟩ (by omega) (by simp; omega) (by simp; omega)
        · obtain ⟨-, -, t, hf⟩ := hpeek
          rw [Server.content, hf, hs, ← hsc]
          rfl
        · rw [hfds', Function.update_self, List.length_append, Nat.add_assoc]
        · rw [List.length_append, pread_add, ← hb, ← hgot]
    · have hlen : buf.length = size := by omega
      exact ⟨rfl, h0, hlen ▸ hb⟩

/-- **`read`**, of a file that holds `c`. -/
theorem read_wp {root fpath : Str} {offset : Int} {size : Nat} (hc : k.fs.content (cStr (root ++ fpath)) = some c) :
    ((FileOp.read root fpath offset size) errno).wp (Env.solo Kernel.Succeeds)
      (Returns fun r _ _ => r = if 0 ≤ toInt offset then (0, pread c offset.toNat size) else (errno, [])) k := by
  unfold FileOp.read
  refine wp_bind.mpr (host_wp fun fd k₁ hs => ?_)
  obtain ⟨fd', hfd', -, -, rfl⟩ := hs
  cases hfd'
  refine wp_bind.mpr (host_wp fun pos k₂ hs => ?_)
  obtain ⟨-, -, hpos, p, o, hfd, rfl⟩ := hs
  obtain ⟨rfl, rfl⟩ : cStr (root ++ fpath) = p ∧ 0 = o := by simpa using hfd
  show Act.wp _ _ ((if toInt pos < 0 then _ else _ : HostM (Int × Bytes)) errno) _
  rw [hpos]
  by_cases hneg : toInt offset < 0
  · rw [if_pos hneg]
    refine wp_bind.mpr (host_wp fun _ k₃ _ => ?_)
    exact (if_neg (by omega)).symm
  · rw [if_neg hneg]
    refine wp_returns (readLoop_wp (c := c) (p := cStr (root ++ fpath)) size ⟨hc, Function.update_self .., rfl⟩ le_rfl
      (Nat.zero_le _) (by simp)) ?_
    rintro _ k₃ ⟨readSize, buf⟩ ⟨rfl, hread, rfl⟩
    refine wp_bind.mpr ((wp_assert (by simp)).mpr ?_)
    refine wp_bind.mpr (host_wp fun _ k₄ _ => ?_)
    show Act.wp _ _ ((if readSize ≥ 0 then _ else _ : HostM (Int × Bytes)) _) _
    rw [if_pos hread]
    exact (if_pos (by omega)).symm

/-! ## Writing -/

/-- What has been written is there. -/
theorem Kernel.Succeeds.content {k' : Kernel} {fd o n : Nat} {buf : Bytes}
    (h : k.SysSucceeds (.write fd buf) (.ok n) k') (hfd : k.fds fd = some (p, o)) (hc : k.fs.content p = some c) :
    n = buf.length ∧ k'.fs.content p = some (pwrite c o buf) := by
  obtain ⟨hn, -, p', o', hfd', -, hmod⟩ := h
  cases hn
  cases hfd.symm.trans hfd'
  refine ⟨rfl, ?_⟩
  rcases hmod with ⟨hlen, hfs⟩ | ⟨-, s, s', hch, -⟩
  · rw [hfs, List.eq_nil_of_length_eq_zero hlen, pwrite_nil]
    exact hc
  · have h := hch.content
    rw [List.take_length] at h
    exact h.trans (congrArg _ hc)

theorem loadAfter_wp {filename : Str} {before after : FileTime} :
    ((FileOp.loadAfter filename before after) errno).wp (Env.solo Kernel.SysSucceeds)
      (Returns fun r _ k' => r.error = 0 ∧ k' = k) k := by
  unfold FileOp.loadAfter loadTime
  refine wp_bind.mpr (wp_bind.mpr (sys_wp fun st k' hs => ?_))
  obtain ⟨-, rfl, -⟩ := hs
  exact ⟨rfl, rfl⟩

/-- **`write`**, to a file that holds `c`. -/
theorem write_wp {root fpath : Str} {offset : Int} {buf : Bytes} {before after : FileTime}
    (hc : k.fs.content (cStr (root ++ fpath)) = some c) :
    ((FileOp.write root fpath offset buf before after) errno).wp (Env.solo Kernel.SysSucceeds)
      (Returns fun r _ k' =>
        r.error = (if 0 ≤ toInt offset then 0 else errno) ∧
          k'.fs.content (cStr (root ++ fpath)) =
            some (if 0 ≤ toInt offset then pwrite c offset.toNat buf else c)) k := by
  unfold FileOp.write FileOp.loadBefore loadTime
  refine wp_bind.mpr (wp_bind.mpr (sys_wp fun st k' hs => ?_))
  obtain ⟨-, rfl, -⟩ := hs
  refine wp_bind.mpr (sys_wp fun fd k₁ hs => ?_)
  obtain ⟨-, -, hfds, hfs⟩ := hs
  have hfs : k₁.fs = k'.fs := by
    rcases hfs with ⟨-, hfs⟩ | ⟨_, hnone, -⟩
    · exact hfs
    · rw [Server.content, hnone] at hc
      cases hc
  refine wp_bind.mpr (sys_wp fun pos k₂ hs => ?_)
  obtain ⟨-, -, hpos, p, o, hfd, rfl⟩ := hs
  obtain ⟨rfl, rfl⟩ : cStr (root ++ fpath) = p ∧ 0 = o := by simpa [hfds] using hfd
  show Act.wp _ _ ((if toInt pos < 0 then _ else _ : ServerM ChangeResp) errno) _
  rw [hpos]
  by_cases hneg : toInt offset < 0
  · rw [if_pos hneg]
    refine wp_bind.mpr (sys_wp fun _ k₃ hs => ?_)
    obtain ⟨-, -, rfl⟩ := hs
    refine ⟨(if_neg (by omega)).symm, ?_⟩
    rw [if_neg (by omega)]
    exact hfs ▸ hc
  · rw [if_neg hneg]
    refine wp_bind.mpr (sys_wp fun n k₃ hs => ?_)
    obtain ⟨rfl, hc₃⟩ := Kernel.Succeeds.content hs (Function.update_self ..) (hfs ▸ hc)
    refine wp_bind.mpr (sys_wp fun _ k₄ hs => ?_)
    obtain ⟨-, -, rfl⟩ := hs
    show Act.wp _ _ ((if buf.length < buf.length then _ else _ : ServerM ChangeResp) errno) _
    rw [if_neg (Nat.lt_irrefl buf.length)]
    refine loadAfter_wp.returns ?_
    rintro r _ _ ⟨hr, rfl⟩
    refine ⟨hr.trans (if_pos (by omega)).symm, ?_⟩
    rw [if_pos (by omega)]
    exact hc₃

end

/-! ## Bit 31 -/

/-- **The data is transferred** just when bit 31 of the offset is not set, or
when there is nothing to transfer and `errno` happens to be 0. Every call
succeeds; reads may be short. -/
theorem transferred_iff {k : Kernel} {root fpath : Str} {c : Bytes} {offset errno : Int}
    (hc : k.fs.content (cStr (root ++ fpath)) = some c) :
    (∀ size e o k', Exec Kernel.Succeeds (FileOp.read root fpath offset size errno) k e o k' →
      (o = .ok (0, pread c offset.toNat size) ↔
        offset % 2 ^ 32 < 2 ^ 31 ∨ errno = 0 ∧ pread c offset.toNat size = [])) ∧
    (∀ buf before after e o k',
      Exec Kernel.SysSucceeds (FileOp.write root fpath offset buf before after errno) k e o k' →
      ((∃ r, o = .ok r ∧ r.error = 0 ∧
          k'.fs.content (cStr (root ++ fpath)) = some (pwrite c offset.toNat buf)) ↔
        offset % 2 ^ 32 < 2 ^ 31 ∨ errno = 0 ∧ pwrite c offset.toNat buf = c)) := by
  refine ⟨fun size e o k' hx => ?_, fun buf before after e o k' hx => ?_⟩
  · have h := (read_wp hc).exec hx
    cases o with
    | ok r =>
      obtain rfl : r = _ := h
      rw [← toInt_nonneg]
      split
      · simp [*]
      · rw [Outcome.ok.injEq, Prod.mk.injEq, eq_comm (a := [])]
        simp [*]
    | err _ => exact h.elim
    | fault => exact h.elim
  · have h := (write_wp hc).exec hx
    cases o with
    | ok r =>
      obtain ⟨he, hc'⟩ := h
      rw [← toInt_nonneg]
      simp only [Outcome.ok.injEq, exists_eq_left', he, hc', Option.some.injEq]
      split
      · simp [*]
      · rw [eq_comm (a := c)]
        simp [*]
    | err _ => exact h.elim
    | fault => exact h.elim

/-- One file, and nothing open. -/
def hostWith (c : Bytes) : Kernel where
  fs := { files := fun f => if f = [102] then some { content := c, mode := 0, time := .epoch } else none
          had := fun f t => f = [102] ∧ t = FileTime.epoch.stamp
          own := fun {f s} h => by
            split at h
            · rename_i hf
              cases h
              exact ⟨hf, rfl⟩
            · cases h }
  fds := fun _ => none

/-- The file is open, at the offset `o`. -/
def opened (c : Bytes) (o : Nat) : Kernel :=
  { hostWith c with fds := Function.update (fun _ => none) 0 (some ([102], o)) }

theorem opened_again {c : Bytes} {o o' : Nat} :
    Function.update (opened c o).fds 0 (some ([102], o')) = (opened c o').fds :=
  Function.update_idem ..

/-- The end of a file, read from an offset that does without bit 31. -/
theorem transferred_iff_byte : ∃ e k',
    Exec Kernel.Succeeds (FileOp.read [] [102] 1 1 0) (hostWith [1, 2]) e (.ok (0, [2])) k' ∧
      ((Outcome.ok ((0 : Int), [(2 : UInt8)]) = .ok (0, pread [1, 2] (1 : Int).toNat 1)) ↔
        (1 : Int) % 2 ^ 32 < 2 ^ 31 ∨ (0 : Int) = 0 ∧ pread [1, 2] (1 : Int).toNat 1 = []) := by
  have hread : (opened [1, 2] 1).Succeeds (.read 0 1) (.ok ⟨[2], by decide⟩) (opened [1, 2] 2) :=
    ⟨_, [102], 1, _, rfl, rfl, rfl, rfl, nofun, opened_again.symm, rfl, fun _ _ => rfl, ⟨0, 0⟩, rfl⟩
  have hseek : (opened [1, 2] 0).Succeeds (.sys (.lseek 0 1)) (.ok 1) (opened [1, 2] 1) :=
    ⟨⟨1, rfl⟩, by decide, rfl, [102], 0, rfl, congrArg (Kernel.mk _) opened_again.symm⟩
  obtain ⟨k', hx⟩ : ∃ k', Exec Kernel.Succeeds (FileOp.read [] [102] 1 1 0) (hostWith [1, 2]) 0 (.ok (0, [2])) k' :=
    ⟨_, .ask 0 ⟨0, rfl, rfl, rfl, rfl⟩ (.ask 0 hseek (.ask 0 hread (.ask 0 ⟨⟨(), rfl⟩, nofun, rfl⟩ (.done ..))))⟩
  exact ⟨0, _, hx, (transferred_iff rfl).1 1 0 _ _ hx⟩

/-- **With bit 31 set** neither call transfers anything, and both return 0. -/
theorem high_offset_skipped :
    (∃ e k', Exec Kernel.Succeeds (FileOp.read [] [102] (2 ^ 31) 1 0) (hostWith (List.replicate (2 ^ 31 + 1) 1)) e
      (.ok (0, [])) k' ∧ pread (List.replicate (2 ^ 31 + 1) 1) (2 ^ 31) 1 = [1]) ∧
    ∃ e r k', Exec Kernel.SysSucceeds (FileOp.write [] [102] (2 ^ 31) [1] .epoch .epoch 0) (hostWith []) e
      (.ok r) k' ∧ r.error = 0 ∧ k'.fs.content [102] ≠ some (pwrite [] (2 ^ 31) [1]) := by
  constructor
  · refine ⟨_, _, .ask _ ⟨0, rfl, rfl, rfl, rfl⟩ (.ask _ ⟨⟨_, rfl⟩, by decide, rfl, [102], 0, rfl, rfl⟩
      (.ask _ ⟨⟨(), rfl⟩, by simp, rfl⟩ (.done ..))), ?_⟩
    rw [pread, List.drop_replicate, List.take_replicate, Nat.add_sub_cancel_left]
    rfl
  · have hopen : (hostWith []).SysSucceeds (.openW [102]) (.ok 0) (opened [] 0) :=
      ⟨⟨0, rfl⟩, rfl, rfl, .inl ⟨rfl, rfl⟩⟩
    refine ⟨_, _, _, .ask _ ⟨⟨_, rfl⟩, rfl, _, rfl, rfl⟩ (.ask _ hopen
      (.ask _ ⟨⟨_, rfl⟩, by decide, rfl, [102], 0, rfl, rfl⟩
        (.ask _ ⟨⟨(), rfl⟩, by simp, rfl⟩ (.done ..)))), rfl, fun h => ?_⟩
    have h' := congrArg List.length (Option.some.inj h)
    rw [length_pwrite (by decide)] at h'
    change 0 = max 0 (2 ^ 31 + 1) at h'
    omega

end Nfs
