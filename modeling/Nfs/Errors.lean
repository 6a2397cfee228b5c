/-
Which error an operation of the client returns.

No function of the client goes on after a request that has failed: the error
is returned through all its callers, and nothing else is asked for. So of
the requests of an operation only the last can have failed, and its error is
what the operation returns. `flush` and the flush at the end of `write` are
the exceptions; they say nothing.
-/
import Nfs.Lib.Requests
import Nfs.Responses

namespace Nfs

open PlainFile Resume

/-- The code a callback returned. -/
def Call.err : (r : Call) → r.Ans → Int
  | .contentWb .., a => a.err
  | .attrWb .., a => a.err
  | .contentFt .., a => a.err
  | .attrFt _, a => a.err

theorem Call.err_ans (r : Call) (a : r.req.Resp) : r.err (r.ans a) = r.req.error a := by
  cases r with
  | contentWb => exact doWrite_error
  | attrWb => exact doWriteAttr_error
  | contentFt => exact doRead_error
  | attrFt => rfl

/-! ## The cache -/

namespace Cache

abbrev Stops {α : Type} (p : CacheM α) : Prop := p.Stops Call.err False

variable {B : Nat} {f : Str}

theorem local_stops {m : Cache → Option Cache} : Stops (local_ m) := stops_step

theorem fileAt_stops : Stops (fileAt f) := stops_get.bind fun _ => stops_check

theorem entryAt_stops {b : Nat} : Stops (entryAt f b) := stops_get.bind fun _ => stops_check

theorem putFile_stops {fc : FileCache} : Stops (putFile f fc) := stops_get.bind fun _ => stops_set

/-- The error of an answer, thrown at once. -/
theorem throw_stops {r : Call} {k : r.Ans → CacheM Unit} (hok : ∀ a, r.err a = 0 → Stops (k a)) :
    Stops (Prog.ask r >>= fun a => if r.err a ≠ 0 then Prog.throw (r.err a) else k a) := by
  refine stops_ask (fun a h0 => ?_) fun a hne s => ⟨s, .err (r.err a), ?_, .inl rfl⟩
  · rw [if_neg (not_not.mpr h0)]
    exact hok a h0
  · rw [if_pos hne]
    rfl

theorem cacheFileAttr_stops : Stops (cacheFileAttr f) := by
  refine stops_get.bind fun c => ?_
  cases hf : c.file f with
  | none => exact throw_stops (r := .attrFt f) fun a _ => putFile_stops
  | some fc => exact stops_pure

/-- The answer is stored, then its error is thrown. -/
theorem putAnswer_stops {r : Call} {g : r.Ans → FileCache} :
    Stops (Prog.ask r >>= fun a => do
      putFile f (g a)
      if r.err a ≠ 0 then Prog.throw (r.err a)) := by
  refine stops_ask (fun a h0 => putFile_stops.bind fun _ => ?_) fun a hne c =>
    ⟨c.setFile f (g a), .err (r.err a), ?_, .inl rfl⟩
  · rw [if_neg (not_not.mpr h0)]
    exact stops_pure
  · rw [if_pos hne]
    rfl

theorem contentWb_stops {off : Nat} {data : Bytes} : Stops (contentWb f off data) :=
  fileAt_stops.bind fun fc => putAnswer_stops (r := .contentWb f off data fc.attr.time fc.stale)

theorem attrWb_stops : Stops (attrWb f) :=
  fileAt_stops.bind fun fc => putAnswer_stops (r := .attrWb f fc.attr fc.stale)

theorem write_stops {off : Nat} {buf : Bytes} : Stops (write B f off buf) :=
  cacheFileAttr_stops.bind fun _ => local_stops

theorem truncate_stops {n : Nat} : Stops (truncate B f n) := by
  refine cacheFileAttr_stops.bind fun _ => fileAt_stops.bind fun fc => ?_
  refine .ite (local_stops.bind fun _ => local_stops.bind fun _ => attrWb_stops) ?_
  exact .ite (local_stops.bind fun _ => attrWb_stops) stops_pure

theorem fetchRuns_stops : ∀ rgs : List Range, Stops (fetchRuns B f rgs)
  | [] => stops_pure
  | rg :: rgs => throw_stops (r := .contentFt f (rg.start * B) ((rg.stop - rg.start) * B)) fun _ _ =>
      local_stops.bind fun _ => fetchRuns_stops rgs

theorem read_stops {off size : Nat} : Stops (read B f off size) := by
  refine cacheFileAttr_stops.bind fun _ => fileAt_stops.bind fun fc => .ite stops_pure ?_
  refine Prog.Stops.bind ?_ fun _ => stops_step
  refine fileAt_stops.bind fun fc => .ite stops_pure ?_
  exact stops_check.bind fun rgs => stops_get.bind fun c => stops_set.bind fun _ => fetchRuns_stops rgs

/-! ### Writing back -/

theorem extendOrSend_stops {a z : Nat} {piece data : Bytes} {flushRange : RangeList} :
    Stops (extendOrSend f a z piece flushRange data) := by
  unfold extendOrSend
  split
  · refine .ite (stops_check.bind fun _ => stops_pure) ?_
    exact stops_assert.bind fun _ => contentWb_stops.bind fun _ => stops_pure
  · exact stops_pure

theorem seed_stops {a z : Nat} {piece data : Bytes} {flushRange : RangeList} :
    Stops (seed a z piece flushRange data) :=
  .ite (stops_check.bind fun _ => stops_assert.bind fun _ => stops_pure) stops_pure

theorem flushRanges_stops {b : Nat} {e : CacheEntry} : ∀ (rgs : List Range) {flushRange : RangeList} {data : Bytes},
    Stops (flushRanges B f b e rgs flushRange data)
  | [], _, _ => stops_pure
  | _ :: rgs, _, _ => extendOrSend_stops.bind fun _ => seed_stops.bind fun _ => flushRanges_stops rgs

theorem flushData_stops : ∀ (bs : List Nat) {flushRange : RangeList} {data : Bytes},
    Stops (flushData B f bs flushRange data)
  | [], _, _ => stops_pure
  | _ :: bs, _, _ => entryAt_stops.bind fun _ => (flushRanges_stops _).bind fun _ => flushData_stops bs

theorem sendPending_stops {flushRange : RangeList} {data : Bytes} : Stops (sendPending f flushRange data) := by
  refine stops_assert.bind fun _ => ?_
  split
  · exact stops_assert.bind fun _ => contentWb_stops
  · exact stops_pure

theorem flushBlocks_stops {bs : List Nat} : Stops (flushBlocks B f bs) :=
  fileAt_stops.bind fun _ => (flushData_stops bs).bind fun _ => sendPending_stops.bind fun _ =>
    local_stops.bind fun _ => attrWb_stops

theorem flushFiles_stops : ∀ fblocks : List (Str × List Nat), Stops (flushFiles B fblocks)
  | [] => stops_pure
  | (_, _) :: fblocks => flushBlocks_stops.bind fun _ => flushFiles_stops fblocks

theorem flushDirtyBlocks_stops {order : HashOrder} : Stops (flushDirtyBlocks B order) :=
  stops_get.bind fun _ => stops_check.bind fun _ => flushFiles_stops _

theorem evictBlocks_stops {order : HashOrder} {count : Nat} : Stops (evictBlocks B order count) :=
  stops_get.bind fun _ => flushDirtyBlocks_stops.bind fun _ => local_stops

theorem flush_stops : (flush B f).Stops Call.err True := by
  refine stops_get.bind fun c => ?_
  cases hf : c.file f with
  | none => exact stops_pure
  | some fc => exact .ite (fun s => (flushBlocks_stops s).swallow) stops_pure

end Cache

/-! ## The operations -/

namespace NetFS

abbrev Stops {α : Type} (p : NetFSM α) : Prop := p.Stops Req.error False

variable {cfg : Config} {f : Str}

theorem onCache_stops {α : Type} {quiet : Prop} {p : CacheM α} (h : p.Stops Call.err quiet) :
    (onCache p).Stops Req.error quiet := fun s => (h s.cache).lift Call.err_ans

theorem invalidate_stops : Stops (invalidate f) := onCache_stops Cache.local_stops

theorem checkTime_stops {time : FileTime} : Stops (checkTime f time) := by
  refine stops_get.bind fun s => .ite invalidate_stops ?_
  split
  · exact .ite invalidate_stops stops_pure
  · exact stops_pure

/-- The file is invalidated before the error is returned. -/
theorem invalidate_throw {α : Type} {e : Int} (s : NetFS) : ∃ s' o,
    (invalidate f >>= fun _ => Prog.throw e : NetFSM α) s = .done s' o ∧ EndsWith False e o := by
  cases hc : Cache.invalidate f s.cache with
  | none =>
    have hrun : invalidate f s = .done s .fault := by simp [invalidate, onCache, Cache.local_, Prog.step, hc, Act.lift]
    refine ⟨s, .fault, ?_, .inr (.inl rfl)⟩
    show (invalidate f s).bind _ = _
    rw [hrun]
    rfl
  | some c =>
    have hrun : invalidate f s = .done { s with cache := c } (.ok ()) := by
      simp [invalidate, onCache, Cache.local_, Prog.step, hc, Act.lift]
    refine ⟨{ s with cache := c }, .err e, ?_, .inl rfl⟩
    show (invalidate f s).bind _ = _
    rw [hrun]
    rfl

theorem access_stops : Stops (access f) := by
  refine stops_ask (r := Req.access f) (fun a h0 => ?_) fun a hne s => ?_
  · have h0 : a.error = 0 := h0
    rw [if_neg (not_not.mpr h0)]
    exact checkTime_stops
  · have hne : a.error ≠ 0 := hne
    rw [if_pos hne]
    exact invalidate_throw s

theorem stat_stops : Stops (stat f) := by
  refine stops_ask (r := Req.stat f) (fun a h0 => ?_) fun a hne s => ?_
  · have h0 : (doReadAttr a).err = 0 := h0
    rw [if_neg (not_not.mpr h0)]
    exact checkTime_stops.bind fun _ => stops_pure
  · have hne : (doReadAttr a).err ≠ 0 := hne
    rw [if_pos hne]
    exact invalidate_throw s

/-- A request whose error is returned at once. -/
theorem ask_stops {α : Type} {r : Req} {k : r.Resp → NetFSM α} (hok : ∀ a, Stops (k a)) :
    Stops (Prog.ask r >>= fun a => if r.error a ≠ 0 then Prog.throw (r.error a) else k a) := by
  refine stops_ask (fun a h0 => ?_) fun a hne s => ⟨s, .err (r.error a), ?_, .inl rfl⟩
  · rw [if_neg (not_not.mpr h0)]
    exact hok a
  · rw [if_pos hne]
    rfl

theorem evict_stops : Stops (evict cfg) :=
  stops_get.bind fun _ => .ite (onCache_stops Cache.evictBlocks_stops) stops_pure

theorem countWrite_stops : (countWrite cfg).Stops Req.error True := by
  refine stops_get.bind fun s => stops_set.bind fun _ => .ite (stops_set.bind fun _ => fun s => ?_) stops_pure
  exact (onCache_stops Cache.flushDirtyBlocks_stops s).swallow

end NetFS

/-- The operation may have failed without a word. -/
def Op.Quiet : Op → Prop
  | .write .. => True
  | .flush _ => True
  | _ => False

/-- **Every operation.** -/
theorem Op.run_stops (cfg : Config) (op : Op) : (op.run cfg).Stops Req.error op.Quiet := by
  cases op with
  | access f => exact NetFS.access_stops
  | create f => exact NetFS.ask_stops (r := .create f) fun _ => stops_pure
  | stat f => exact NetFS.stat_stops
  | statfs => exact NetFS.ask_stops (r := .statfs) fun _ => stops_pure
  | readdir f => exact NetFS.ask_stops (r := .readdir f) fun _ => stops_pure
  | read f off size =>
    exact (NetFS.onCache_stops Cache.read_stops).bind fun _ => NetFS.evict_stops.bind fun _ => stops_pure
  | write f off buf =>
    exact (NetFS.onCache_stops Cache.write_stops).bind fun _ => NetFS.evict_stops.bind fun _ => NetFS.countWrite_stops
  | truncate f n => exact NetFS.onCache_stops Cache.truncate_stops
  | unlink f => exact NetFS.ask_stops (r := .unlink f) fun _ => NetFS.invalidate_stops
  | rmdir f => exact NetFS.ask_stops (r := .rmdir f) fun _ => NetFS.invalidate_stops
  | mkdir f mode => exact NetFS.ask_stops (r := .mkdir f mode) fun _ => stops_pure
  | flush f => exact NetFS.onCache_stops Cache.flush_stops
  | rename f g flags =>
    exact NetFS.ask_stops (r := .rename f g flags) fun _ => NetFS.invalidate_stops.bind fun _ => NetFS.invalidate_stops

/-- How the operation, which has got `w` from `s` to `s'`, may have passed over an
error: it is a `flush`, or a `write` that has stored its bytes and made room
for them without an error, and for which it was time to flush. -/
def Op.PassesOver (cfg : Config) (s s' : NetFS) (w : Responses) : Op → Prop
  | .write f off buf => ∃ s₁ w₁ s₂ w₂,
      Exec logged.serve (NetFS.onCache (Cache.write cfg.blockSize f off buf) s) [] s₁ (.ok ()) w₁ ∧
      Exec logged.serve (NetFS.evict cfg s₁) w₁ s₂ (.ok ()) w₂ ∧ (∀ q ∈ w₂, q.1.error q.2 = 0) ∧
      cfg.flushInterval ≤ s₂.writeOpCount + 1 ∧ Exec logged.serve (NetFS.countWrite cfg s₂) w₂ s' (.ok ()) w
  | .flush _ => True
  | _ => False

theorem NetFS.write_passesOver {cfg : Config} {s s' : NetFS} {f : Str} {off : Nat} {buf : Bytes} {w : Responses}
    {q : (r : Req) × r.Resp} (hx : Exec logged.serve (NetFS.write cfg f off buf s) [] s' (.ok ()) w)
    (hq : w.head? = some q) (hne : q.1.error q.2 ≠ 0) : (Op.write f off buf).PassesOver cfg s s' w := by
  obtain ⟨s₁, _, w₁, hstore, hx⟩ := Exec.of_bind (f := fun _ => evict cfg >>= fun _ => countWrite cfg) hx
  obtain ⟨s₂, _, w₂, hevict, hcount⟩ := Exec.of_bind (f := fun _ => countWrite cfg) hx
  obtain ⟨new₁, rfl, hnew₁⟩ := (onCache_stops Cache.write_stops s).exec_ok hstore
  obtain ⟨new₂, rfl, hnew₂⟩ := (evict_stops s₁).exec_ok hevict
  have hall : ∀ q ∈ new₂ ++ (new₁ ++ []), q.1.error q.2 = 0 := by
    rw [List.append_nil]
    exact List.forall_mem_append.mpr ⟨hnew₂, hnew₁⟩
  refine ⟨s₁, _, s₂, _, hstore, hevict, hall, ?_, hcount⟩
  by_contra hlt
  -- No flush, so the last response is one of those before.
  have hdone : countWrite cfg s₂ = .done { s₂ with writeOpCount := s₂.writeOpCount + 1 } (.ok ()) := by
    show (if s₂.writeOpCount + 1 ≥ cfg.flushInterval then _ else _ : NetFSM Unit) _ = _
    rw [if_neg hlt]
    rfl
  rw [hdone] at hcount
  cases hcount
  exact hne (hall q (List.mem_of_mem_head? hq))

/-- **An operation returns the first error it gets, and gets no second one.**
In every state of a run, whatever is answered: none but the last of the
responses is an error; an operation returns an error only if the last
response was this error; and if it was one, the operation returns it, unless
it is a `flush`, or a `write` that has got the error in the flush it ends
with. -/
theorem first_error_returned {cfg : Config} {hist : List (Op × NetFS)} {s s' : NetFS} {op : Op} {o : Outcome op.Ret}
    {w : Responses} (hB : 0 < cfg.blockSize) (h : NetRun cfg (fun _ => True) hist s)
    (hx : Exec logged.serve (op.run cfg s) [] s' o w) :
    (∀ q ∈ w.tail, q.1.error q.2 = 0) ∧
      (∀ e, o = .err e → ∃ q, w.head? = some q ∧ q.1.error q.2 = e ∧ e ≠ 0) ∧
      ∀ q, w.head? = some q → q.1.error q.2 ≠ 0 →
        o = .err (q.1.error q.2) ∨ op.PassesOver cfg s s' w ∧ ∃ a, o = .ok a := by
  obtain ⟨new, hw, htail, herr, hhead⟩ := (op.run_stops cfg s).exec hx
  obtain rfl : w = new := by rw [hw, List.append_nil]
  refine ⟨htail, herr, fun q hq hne => ?_⟩
  obtain he | hfault | ⟨hquiet, a, rfl⟩ := hhead q hq hne
  · exact .inl he
  · exact absurd hfault (Op.exec_wf hB (h.wf hB) hx).1
  · refine .inr ⟨?_, a, rfl⟩
    cases op with
    | write f off buf => exact NetFS.write_passesOver hx hq hne
    | flush f => trivial
    | _ => exact hquiet.elim

/-- Every write is followed by a flush. -/
def flushEveryWrite : Config := { smallCache true with flushInterval := 1 }

/-- The server refuses the bytes of a write in the flush the write ends with. -/
theorem first_error_returned_write :
    Exec logged.serve ((Op.write [102] 0 [9]).run flushEveryWrite .new) []
      (notedRun (.write [102] 0 [9]) flushEveryWrite .new oneFile).1 (.ok ())
      (notedRun (.write [102] 0 [9]) flushEveryWrite .new oneFile).2.2 ∧
    (Op.write [102] 0 [9]).PassesOver flushEveryWrite .new
      (notedRun (.write [102] 0 [9]) flushEveryWrite .new oneFile).1
      (notedRun (.write [102] 0 [9]) flushEveryWrite .new oneFile).2.2 := by
  have hx := exec_notedRun (.write [102] 0 [9]) flushEveryWrite .new oneFile (o := .ok ()) (by decide +kernel)
  have hlast : ((notedRun (.write [102] 0 [9]) flushEveryWrite .new oneFile).2.2.head?.map
      fun q => q.1.error q.2) = some 30 := by
    decide +kernel
  obtain ⟨q, hq, he⟩ := Option.map_eq_some_iff.mp hlast
  obtain hret | ⟨hpass, -⟩ := (first_error_returned (by decide) .start hx).2.2 q hq (by rw [he]; decide)
  · cases hret
  · exact ⟨hx, hpass⟩

end Nfs
