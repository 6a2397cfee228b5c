/-
The recency list as an order of last use.

Beside a run of cache calls goes the history of the blocks they have used:
those that a `read` returned bytes of and those that a `write` stored bytes
in. Reading moves blocks to the hot end, which keeps the list in the order of
this history (`LastUse.InOrder`), and so does taking blocks out. Writing
leaves blocks where they are and puts new ones at the cold end. So the list
stays in order only when what is written is at the hot end already, or is all
that is cached (`CacheCall.InPlace`).
-/
import Nfs.Eviction
import Nfs.Fetching
import Nfs.Lib.LastUse

namespace Nfs

open PlainFile Resume Intervals LastUse

namespace Cache

variable {B : Nat} {c c' : Cache} {f : Str} {fc : FileCache} {off n : Nat} {w : Replies}

/-! ## The calls that use no block -/

theorem attrWb_recents {l : List UseRecord} (h : c.Wf B) (hf : c.file f = some fc) (hl : c.recentList.Sublist l) :
    (attrWb f c).wp (Env.solo Noted) (fun c' _ _ => c'.Wf B ∧ c'.recentList.Sublist l) w :=
  attrWb_wp hf trivial fun _ _ => ⟨fun _ => ⟨h.setFile hf rfl, hl⟩, fun _ => ⟨h.setFile hf rfl, hl⟩⟩

theorem truncate_recents (h : c.Wf B) (n : Nat) : (truncate B f n c).wp (Env.solo Noted)
    (fun c' _ _ => c'.Wf B ∧ c'.recentList.Sublist c.recentList) w := by
  refine wp_seq (cacheFileAttr_ends h) ?_ (fun c₁ w₁ e h₁ => ?_) fun _ _ hfault => hfault.elim
  · intro c₁ w₁ _ h₁
    obtain ⟨hA, hw₁, -⟩ := h₁
    obtain ⟨fc, hf, -⟩ := hA.file
    have hr₁ : c₁.recentList.Sublist c.recentList := hA.recents ▸ List.Sublist.refl _
    refine wp_bind.mpr ((fileAt_wp hf).mpr ?_)
    show Act.wp _ _ ((if _ then _ else _ : CacheM Unit) c₁) w₁
    split
    · obtain ⟨c₂, fc₂, h₂, hc₂, -⟩ := deleteEntryBeyond_spec hw₁ hf (if n = 0 then 0 else endBlock B n)
      refine wp_bind.mpr ((local_wp h₂).mpr (wp_bind.mpr ((local_wp (setSize_file hc₂.file n)).mpr ?_)))
      exact attrWb_recents (hc₂.wf.setFile hc₂.file rfl) file_setFile_self ((deleteEntryBeyond_recents h₂).trans hr₁)
    · show Act.wp _ _ ((if _ then _ else _ : CacheM Unit) c₁) w₁
      split
      · refine wp_bind.mpr ((local_wp (setSize_file hf n)).mpr ?_)
        exact attrWb_recents (hw₁.setFile hf rfl) file_setFile_self hr₁
      · exact ⟨hw₁, hr₁⟩
  · rw [h₁.1]
    exact ⟨h, List.Sublist.refl _⟩

theorem flush_recents (h : c.Wf B) (f : Str) : (flush B f c).wp (Env.solo Noted)
    (fun c' _ _ => c'.Wf B ∧ c'.recentList.Sublist c.recentList) w := by
  refine flush_wp (fun _ => ⟨h, List.Sublist.refl _⟩) fun fc hf _ => wp_swallow.mpr ?_
  have hall : ∀ b ∈ fc.dirtyBlocks, (fc.entries.lookup b).isSome := fun b hb =>
    ((mem_dirtyBlocks hf).mp hb).cached hf
  refine (flushBlocks_ends h hf hall).mono fun c' w' o hend => ?_
  obtain ⟨hw', hk, -⟩ := flushBlocks_keeps h hf (fun b => mem_dirtyBlocks hf) hend
  exact ⟨hw', hk.recents ▸ List.Sublist.refl _⟩

theorem flushDirtyBlocks_recents (order : HashOrder) (h : c.Wf B) : (flushDirtyBlocks B order c).wp (Env.solo Noted)
    (fun c' _ _ => c'.Wf B ∧ c'.recentList.Sublist c.recentList) w :=
  (flushDirtyBlocks_keeps order h).mono fun _ _ _ hQ => ⟨hQ.1, hQ.2.1.recents ▸ List.Sublist.refl _⟩

theorem evictBlocks_recents (order : HashOrder) (h : c.Wf B) (n : Nat) :
    (evictBlocks B order n c).wp (Env.solo Noted) (fun c' _ _ => c'.Wf B ∧ c'.recentList.Sublist c.recentList) w := by
  refine (evictBlocks_ends order h n).mono fun c₁ _ o hQ => ?_
  cases o with
  | ok _ =>
    refine ⟨hQ.1, ?_⟩
    rw [hQ.2.recents]
    exact List.take_sublist _ _
  | err e => exact ⟨hQ.1, hQ.2.recents ▸ List.Sublist.refl _⟩
  | fault => exact hQ.elim

/-! ## Writing -/

theorem write_ends (hB : 0 < B) (h : c.Wf B) (off : Nat) (buf : Bytes) :
    (write B f off buf c).wp (Env.solo Noted) (fun c' _ o => match o with
      | .ok _ => c'.Wf B ∧ c'.ids = c.ids ++ (touches B f off buf.length).filter (· ∉ c.ids)
      | .err _ => c' = c
      | .fault => False) w := by
  refine wp_seq (cacheFileAttr_ends h) ?_ (fun c₁ w₁ e h₁ => h₁.1) fun _ _ hfault => hfault
  intro c₁ w₁ _ h₁
  obtain ⟨hA, hw₁, -⟩ := h₁
  obtain ⟨fc, hf, -⟩ := hA.file
  obtain ⟨c₂, fc₂, h₂, hw₂, -⟩ := store_spec hB hw₁ hf off buf
  have hids : c₁.ids = c.ids := by rw [ids, hA.recents]; rfl
  refine (local_wp h₂).mpr ⟨hw₂, ?_⟩
  rw [store_ids hB hw₁ hf h₂, hids]

theorem touches_nodup (B : Nat) (f : Str) (off n : Nat) : (touches B f off n).Nodup := by
  unfold touches span
  split
  · exact List.nodup_nil
  · refine (List.nodup_range' ..).map fun b b' hbb => ?_
    simpa using hbb

end Cache

/-! ## Runs with their history -/

/-- The blocks that a call has used, the last one first. -/
def CacheCall.used (B : Nat) : CacheCall → Outcome Bytes → List CacheEntryID
  | .ofOp (.read f off _), .ok data => (Cache.touches B f off data.length).reverse
  | .ofOp (.write f off buf), .ok _ => (Cache.touches B f off buf.length).reverse
  | _, _ => []

/-- A run from an empty cache, whatever the callbacks reply: the blocks it
has used, the last one first, and the cache it has come to. -/
inductive UseRun (B : Nat) (order : HashOrder) (allowed : Cache → CacheCall → Replies → Prop) :
    List CacheEntryID → Cache → Prop
  | start : UseRun B order allowed [] .empty
  | call : UseRun B order allowed uses c → allowed c call w → Exec Noted (call.run B order c) [] c' o w →
      UseRun B order allowed (call.used B o ++ uses) c'

/-- What is written is at the hot end, the last block first, or it is that
and one block more while nothing else is cached; and a read that fails has
fetched nothing. -/
def CacheCall.InPlace (B : Nat) (c : Cache) : CacheCall → Replies → Prop
  | .ofOp (.write f off buf), _ => (Cache.touches B f off buf.length).reverse <+: c.ids ∨
      c.ids = (Cache.touches B f off buf.length).reverse.dropLast
  | .ofOp (.read ..), w => w.Failed → ¬ w.Fetched
  | _, _ => True

section
variable {B : Nat} {order : HashOrder} {c c' : Cache} {uses : List CacheEntryID} {w : Replies} {o : Outcome Bytes}

/-- A write keeps the list in order if it is in place, and only then. -/
theorem inOrder_write_iff {f : Str} {off : Nat} {buf : Bytes} (h : c.Wf B) (hin : InOrder uses c.ids)
    (hids : c'.ids = c.ids ++ (Cache.touches B f off buf.length).filter (· ∉ c.ids)) :
    InOrder ((CacheCall.ofOp (.write f off buf)).used B (.ok []) ++ uses) c'.ids ↔
      (CacheCall.ofOp (.write f off buf)).InPlace B c w := by
  have hiff := inOrder_append_iff hin h.ids_nodup
    (List.nodup_reverse.mpr (Cache.touches_nodup B f off buf.length))
  rw [List.reverse_reverse] at hiff
  rw [hids]
  exact hiff

/-- A call that uses no block. -/
theorem inOrder_unused {p : CacheM Unit} (hin : InOrder uses c.ids)
    (hp : (p c).wp (Env.solo Noted) (fun c' _ _ => c'.Wf B ∧ c'.recentList.Sublist c.recentList) [])
    (hx : Exec Noted ((do p; pure [] : CacheM Bytes) c) [] c' o w) : c'.Wf B ∧ InOrder uses c'.ids := by
  have hwp : ((do p; pure [] : CacheM Bytes) c).wp (Env.solo Noted)
      (fun c' _ _ => c'.Wf B ∧ c'.recentList.Sublist c.recentList) [] :=
    wp_seq hp (fun _ _ _ h => h) (fun _ _ _ h => h) fun _ _ h => h
  obtain ⟨hw', hs⟩ := hwp.exec hx
  exact ⟨hw', hin.sublist (hs.map _)⟩

/-- Reading moves what it used to the hot end. -/
theorem inOrder_read {f : Str} {off n : Nat} (hB : 0 < B) (h : c.Wf B) (hin : InOrder uses c.ids)
    (hcall : w.Failed → ¬ w.Fetched) (hx : Exec Noted (Cache.read B f off n c) [] c' o w) :
    c'.Wf B ∧ InOrder ((CacheCall.ofOp (.read f off n)).used B o ++ uses) c'.ids := by
  have hend := (Cache.read_ends (w := []) hB h off n).exec hx
  cases o with
  | ok data =>
    have htouch := hin.touch (List.nodup_reverse.mpr (Cache.touches_nodup B f off data.length))
    refine ⟨hend.wf, ?_⟩
    rw [hend.ids]
    simpa [CacheCall.used] using htouch
  | err e =>
    refine ⟨hend.1, ?_⟩
    rw [hend.2 hcall]
    exact hin
  | fault => exact hend.elim

theorem inOrder_write {f : Str} {off : Nat} {buf : Bytes} (hB : 0 < B) (h : c.Wf B) (hin : InOrder uses c.ids)
    (hcall : (CacheCall.ofOp (.write f off buf)).InPlace B c w)
    (hx : Exec Noted ((do Cache.write B f off buf; pure [] : CacheM Bytes) c) [] c' o w) :
    c'.Wf B ∧ InOrder ((CacheCall.ofOp (.write f off buf)).used B o ++ uses) c'.ids := by
  have hwp : ((do Cache.write B f off buf; pure [] : CacheM Bytes) c).wp (Env.solo Noted) (fun c' _ o =>
      c'.Wf B ∧ InOrder ((CacheCall.ofOp (.write f off buf)).used B o ++ uses) c'.ids) [] := by
    refine wp_seq (Cache.write_ends hB h off buf) (fun c₁ w₁ _ h₁ => ?_) (fun c₁ w₁ e h₁ => ?_)
      fun _ _ hfault => hfault.elim
    · exact ⟨h₁.1, (inOrder_write_iff h hin h₁.2).mpr hcall⟩
    · rw [show c₁ = c from h₁]
      exact ⟨h, hin⟩
  exact hwp.exec hx

/-- **One call** keeps the list in order. -/
theorem CacheCall.run_inOrder (hB : 0 < B) (h : c.Wf B) (hin : InOrder uses c.ids) (call : CacheCall)
    (hcall : call.InPlace B c w) (hx : Exec Noted (call.run B order c) [] c' o w) :
    c'.Wf B ∧ InOrder (call.used B o ++ uses) c'.ids := by
  cases call with
  | invalidate f =>
    obtain ⟨c₁, h₁, hw₁, -⟩ := Cache.invalidate_spec (f := f) h
    exact inOrder_unused hin ((Cache.local_wp h₁).mpr ⟨hw₁, Cache.invalidate_recents h₁⟩) hx
  | ofOp op =>
    cases op with
    | flush f => exact inOrder_unused hin (Cache.flush_recents h f) hx
    | flushDirtyBlocks => exact inOrder_unused hin (Cache.flushDirtyBlocks_recents order h) hx
    | evictBlocks n => exact inOrder_unused hin (Cache.evictBlocks_recents order h n) hx
    | truncate f n => exact inOrder_unused hin (Cache.truncate_recents h n) hx
    | read f off n => exact inOrder_read hB h hin hcall hx
    | write f off buf => exact inOrder_write hB h hin hcall hx

theorem UseRun.inOrder (hB : 0 < B) (h : UseRun B order (fun c call w => call.InPlace B c w) uses c) :
    c.Wf B ∧ InOrder uses c.ids := by
  induction h with
  | start => exact ⟨Cache.empty_wf, .nil⟩
  | call _ hcall hx ih => exact CacheCall.run_inOrder hB ih.1 ih.2 _ hcall hx

/-- **Least recently used.** In a run whose writes are in place the recency
list is in the order of last use, so what an eviction removes was not used
later than what it keeps. -/
theorem evicts_least_recent (hB : 0 < B) (h : UseRun B order (fun c call w => call.InPlace B c w) uses c) :
    InOrder uses c.ids ∧ ∀ n c' w, Exec Noted (Cache.evictBlocks B order n c) [] c' (.ok ()) w →
      ∀ k ∈ c.ids, k ∉ c'.ids → ∀ k' ∈ c'.ids, uses.idxOf k' ≤ uses.idxOf k := by
  obtain ⟨hw, hin⟩ := h.inOrder hB
  refine ⟨hin, fun n c' w hx k hk hgone k' hkept => ?_⟩
  have hend := (Cache.evictBlocks_ends (w := []) order hw n).exec hx
  have hsplit : c.ids = c'.ids ++ (c.recentList.drop (c.countCachedBlocks - min n c.countCachedBlocks)).map (·.id) := by
    rw [Cache.ids, Cache.ids, hend.2.recents, ← List.map_append, List.take_append_drop]
  rw [hsplit] at hin hk
  exact (List.pairwise_append.mp hin).2.2 k' hkept k ((List.mem_append.mp hk).resolve_left hgone)

end

/-- The replies of a file of six bytes, noted. -/
def noteSix (w : Replies) (r : Call) : r.Ans × Replies := (r.replySix, ⟨r, r.replySix⟩ :: w)

/-- What calls come to with these replies, the last call first. -/
def play : List CacheCall → List CacheEntryID × Cache
  | [] => ([], .empty)
  | call :: calls =>
    let r := (call.run 2 .inserted (play calls).2).interp noteSix []
    (call.used 2 r.2.1 ++ (play calls).1, r.1)

/-- `allowed` at every call. -/
def Played (allowed : Cache → CacheCall → Replies → Prop) : List CacheCall → Prop
  | [] => True
  | call :: calls =>
    allowed (play calls).2 call ((call.run 2 .inserted (play calls).2).interp noteSix []).2.2 ∧ Played allowed calls

theorem play_run (allowed : Cache → CacheCall → Replies → Prop) : ∀ calls, Played allowed calls →
    UseRun 2 .inserted allowed (play calls).1 (play calls).2
  | [], _ => .start
  | _ :: calls, h => (play_run allowed calls h.2).call h.1 (exec_answers (h := noteSix) (fun _ _ => rfl) _ _ rfl)

/-- Three blocks are read, and the last one of them is written. -/
theorem evicts_least_recent_read : ∃ uses c c' w,
    UseRun 2 .inserted (fun c call w => call.InPlace 2 c w) uses c ∧ c.countDirtyBlocks = 1 ∧ InOrder uses c.ids ∧
    Exec Noted (Cache.evictBlocks 2 .inserted 1 c) [] c' (.ok ()) w ∧ c'.countCachedBlocks = 2 ∧
    ∀ k ∈ c.ids, k ∉ c'.ids → ∀ k' ∈ c'.ids, uses.idxOf k' ≤ uses.idxOf k := by
  have hrun := play_run (fun c call w => call.InPlace 2 c w)
    [.ofOp (.write [102] 5 [9]), .ofOp (.read [102] 0 6)]
    ⟨.inl (by decide +kernel), fun h => absurd h (by decide +kernel), trivial⟩
  have hx : Exec Noted (Cache.evictBlocks 2 .inserted 1 _) [] _ (.ok ()) _ := exec_answers (h := noteSix)
    (fun _ _ => rfl) (Cache.evictBlocks 2 .inserted 1 (play [.ofOp (.write [102] 5 [9]), .ofOp (.read [102] 0 6)]).2) []
    (by decide +kernel)
  have hall := evicts_least_recent (by decide) hrun
  exact ⟨_, _, _, _, hrun, by decide +kernel, hall.1, hx, by decide +kernel, hall.2 _ _ _ hx⟩

/-- **The block that has just been written goes first**: a block is read, and
another one is written. -/
theorem evicts_just_written : ∃ uses c c' w, UseRun 2 .inserted (fun _ _ _ => True) uses c ∧ ¬ InOrder uses c.ids ∧
    Exec Noted (Cache.evictBlocks 2 .inserted 1 c) [] c' (.ok ()) w ∧
    uses = [⟨[102], 0⟩, ⟨[102], 1⟩] ∧ c.ids = [⟨[102], 1⟩, ⟨[102], 0⟩] ∧ c'.ids = [⟨[102], 1⟩] := by
  have hrun := play_run (fun _ _ _ => True) [.ofOp (.write [102] 0 [9]), .ofOp (.read [102] 2 2)]
    ⟨trivial, trivial, trivial⟩
  have hx : Exec Noted (Cache.evictBlocks 2 .inserted 1 _) [] _ (.ok ()) _ := exec_answers (h := noteSix)
    (fun _ _ => rfl) (Cache.evictBlocks 2 .inserted 1 (play [.ofOp (.write [102] 0 [9]), .ofOp (.read [102] 2 2)]).2) []
    (by decide +kernel)
  exact ⟨_, _, _, _, hrun, by decide +kernel, hx, by decide +kernel, by decide +kernel, by decide +kernel⟩

end Nfs
