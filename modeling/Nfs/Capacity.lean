/-
How many blocks a client caches.

A `read` or `write` that returns 0 has added the blocks of its range that
were not cached, and then, if that is more than `max_cache_entry`, `evict`
has removed `evict_count` of them, once. So the number of blocks is within
`max_cache_entry` afterwards exactly if it would have been so with
`evict_count` to spare (`Op.Fits`).
-/
import Nfs.Isolation
import Nfs.LeastRecent
import Nfs.Responses

namespace Nfs

open PlainFile Resume Intervals

namespace Cache

variable {B : Nat} {c c' : Cache} {f : Str} {off n : Nat} {w : Replies}

/-- How many blocks of a range are not cached. -/
def missing (B : Nat) (f : Str) (off n : Nat) (c : Cache) : Nat :=
  (span B off n).countP fun b => (c.entry f b).isNone

theorem length_ids : c.ids.length = c.countCachedBlocks := List.length_map ..

theorem length_touches (h : c.Wf B) : ((touches B f off n).filter (· ∉ c.ids)).length = c.missing B f off n := by
  rw [touches, List.filter_map, List.length_map, missing, List.countP_eq_length_filter]
  congr 1
  refine List.filter_congr fun b _ => ?_
  have hmem := h.mem_ids ⟨f, b⟩
  cases he : c.entry f b <;> simp_all [ids]

/-- What is used counts once, whether it was there or not. -/
theorem length_touched {α : Type} [DecidableEq α] {l t : List α} (hl : l.Nodup) (ht : t.Nodup) :
    (t.reverse ++ l.filter (· ∉ t)).length = l.length + (t.filter (· ∉ l)).length := by
  have hboth : (l.filter (· ∈ t)).Perm (t.filter (· ∈ l)) := by
    refine (List.perm_ext_iff_of_nodup (hl.filter _) (ht.filter _)).mpr fun a => ?_
    simp [and_comm]
  have h₁ := List.length_eq_length_filter_add (l := l) (· ∈ t)
  have h₂ := List.length_eq_length_filter_add (l := t) (· ∈ l)
  have := hboth.length_eq
  simp only [← decide_not] at h₁ h₂
  rw [List.length_append, List.length_reverse]
  omega

theorem ReadDone.count {w₀ : Replies} {data : Bytes} (h : c.Wf B) (hd : ReadDone B f off n c w₀ c' w data) :
    c'.countCachedBlocks = c.countCachedBlocks + c.missing B f off data.length := by
  have hcount := length_touched (l := c.ids) h.ids_nodup (touches_nodup B f off data.length)
  rw [← hd.ids, length_touches h, length_ids, length_ids] at hcount
  exact hcount

end Cache

/-- The size of a file that an operation goes by: the cached one, or else the
one in the first response. -/
def NetFS.sizeFor (s : NetFS) (f : Str) (w : Responses) : Nat :=
  match s.cache.file f with
  | some fc => fc.attr.size
  | none =>
    match w.getLast? with
    | some ⟨.stat _, resp⟩ => (resp : StatResp).size
    | _ => 0

theorem sizeFor_append {s : NetFS} {f : Str} {rs : Replies} {ws ws' : Responses} {size : Nat}
    (h : Cache.SizeFor f s.cache [] rs size) (hall : List.Forall₂ MadeOf rs ws) : s.sizeFor f (ws' ++ ws) = size := by
  rcases h with ⟨fc, hf, hsize⟩ | ⟨hf, a, ⟨rs', rfl⟩, hsize⟩
  · rw [NetFS.sizeFor, hf]
    exact hsize
  · have hrev := List.forall₂_reverse_iff.mpr hall
    rw [List.reverse_append] at hrev
    obtain ⟨q, qs, hq, -, hws⟩ := List.forall₂_cons_left_iff.mp hrev
    obtain ⟨resp, rfl, ha⟩ : ∃ resp : StatResp, q = ⟨.stat f, resp⟩ ∧ a = doReadAttr resp := hq
    have hlast : (ws' ++ ws).getLast? = some ⟨.stat f, resp⟩ := by
      rw [List.getLast?_eq_head?_reverse, List.reverse_append, hws]
      rfl
    rw [NetFS.sizeFor, hf]
    simp only [hlast]
    rw [← hsize, ha]
    rfl

variable {cfg : Config} {s s' : NetFS} {w : Responses} {f : Str} {off n : Nat}

/-- What `evict` leaves of `k` blocks. -/
def Config.afterEvict (cfg : Config) (k : Nat) : Nat :=
  if k > cfg.maxCacheEntry then k - min cfg.evictCount k else k

theorem afterEvict_le_iff {k : Nat} :
    cfg.afterEvict k ≤ cfg.maxCacheEntry ↔ k ≤ cfg.maxCacheEntry + cfg.evictCount := by
  unfold Config.afterEvict
  split <;> omega

namespace NetFS

theorem evict_count (h : s.cache.Wf cfg.blockSize) : ((evict cfg) s).wp logged.net (fun s' w' o => ∀ a, o = .ok a →
    s'.cache.Wf cfg.blockSize ∧ s'.cache.countCachedBlocks = cfg.afterEvict s.cache.countCachedBlocks ∧
      ∃ ws, w' = ws ++ w) w := by
  refine wp_bind.mpr (wp_get.mpr ?_)
  show Act.wp logged.net _ ((if _ then _ else _ : NetFSM Unit) s) w
  split
  · rename_i hlt
    refine (onCache_logged (Cache.evictBlocks_ends cfg.order h cfg.evictCount)).mono fun s' w' o hQ a ho => ?_
    obtain ⟨c, rs, ws, rfl, hend, -, hw'⟩ := hQ
    subst ho
    refine ⟨hend.1, ?_, ws, hw'⟩
    rw [Config.afterEvict, if_pos hlt, Cache.countCachedBlocks, hend.2.recents, List.length_take]
    simp only [Cache.countCachedBlocks]
    omega
  · rename_i hle
    intro a _
    exact ⟨h, by rw [Config.afterEvict, if_neg hle], [], rfl⟩

theorem countWrite_count (h : s.cache.Wf cfg.blockSize) : ((countWrite cfg) s).wp logged.net (fun s' _ _ =>
    s'.cache.countCachedBlocks = s.cache.countCachedBlocks) w := by
  refine wp_bind.mpr (wp_get.mpr (wp_bind.mpr (wp_set.mpr ?_)))
  show Act.wp logged.net _ ((if _ then _ else _ : NetFSM Unit) _) w
  split
  · refine wp_bind.mpr (wp_set.mpr (wp_swallow.mpr ?_))
    refine (onCache_logged (s := { s with writeOpCount := 0 })
      (Cache.flushDirtyBlocks_keeps cfg.order h)).mono fun s' w' o hQ => ?_
    obtain ⟨c, rs, ws, rfl, ⟨-, hk, -⟩, -⟩ := hQ
    have : c.countCachedBlocks = s.cache.countCachedBlocks := congrArg List.length hk.recents
    cases o <;> exact this
  · rfl

theorem read_count (hB : 0 < cfg.blockSize) (h : s.cache.Wf cfg.blockSize) :
    ((read cfg f off n) s).wp logged.net (fun s' w o => ∀ data, o = .ok data → s'.cache.countCachedBlocks =
      cfg.afterEvict (s.cache.countCachedBlocks +
        s.cache.missing cfg.blockSize f off (min n (s.sizeFor f w - off)))) [] := by
  refine wp_seq (onCache_logged (Cache.read_ends hB h off n)) ?_ (fun _ _ _ _ _ ho => by cases ho)
    fun _ _ _ _ ho => by cases ho
  intro s₁ w₁ data hQ
  obtain ⟨c, rs, ws, rfl, hend, hall, rfl⟩ := hQ
  refine wp_seq (evict_count hend.wf) ?_ (fun _ _ _ _ _ ho => by cases ho) fun _ _ _ _ ho => by cases ho
  intro s₂ w₂ _ h₂ data' ho
  obtain ⟨-, hcount, ws', rfl⟩ := h₂ () rfl
  obtain ⟨fc, hf, hlen, -⟩ := hend.result
  rw [List.append_nil, sizeFor_append (hend.size fc hf) hall, ← hlen, ← hend.count h]
  exact hcount

theorem write_count {buf : Bytes} (hB : 0 < cfg.blockSize) (h : s.cache.Wf cfg.blockSize) :
    ((write cfg f off buf) s).wp logged.net (fun s' _ o => ∀ a, o = .ok a → s'.cache.countCachedBlocks =
      cfg.afterEvict (s.cache.countCachedBlocks + s.cache.missing cfg.blockSize f off buf.length)) [] := by
  refine wp_seq (onCache_logged (Cache.write_ends hB h off buf)) ?_ (fun _ _ _ _ _ ho => by cases ho)
    fun _ _ _ _ ho => by cases ho
  intro s₁ w₁ _ hQ
  obtain ⟨c, rs, ws, rfl, ⟨hw₁, hids⟩, -⟩ := hQ
  refine wp_seq (evict_count hw₁) ?_ (fun _ _ _ _ _ ho => by cases ho) fun _ _ _ _ ho => by cases ho
  intro s₂ w₂ _ h₂
  obtain ⟨hw₂, hcount, -⟩ := h₂ () rfl
  have hadd : c.countCachedBlocks = s.cache.countCachedBlocks + s.cache.missing cfg.blockSize f off buf.length := by
    rw [← Cache.length_ids, hids, List.length_append, Cache.length_touches h, Cache.length_ids]
  refine (countWrite_count hw₂).mono fun s' w' o hc _ _ => ?_
  rw [hc, hcount, ← hadd]

end NetFS

/-- The blocks that the operation is about to add fit, with those that one
eviction removes. -/
def Op.Fits (cfg : Config) (s : NetFS) (w : Responses) : Op → Prop
  | .read f off n => s.cache.countCachedBlocks +
      s.cache.missing cfg.blockSize f off (min n (s.sizeFor f w - off)) ≤ cfg.maxCacheEntry + cfg.evictCount
  | .write f off buf => s.cache.countCachedBlocks +
      s.cache.missing cfg.blockSize f off buf.length ≤ cfg.maxCacheEntry + cfg.evictCount
  | _ => True

/-- **Capacity.** After a read or write that returns 0, in any run, the number
of cached blocks is at most `max_cache_entry` exactly if the blocks fit. -/
theorem within_capacity_iff {allowed : Responses → Prop} {hist : List (Op × NetFS)} {op : Op} {a : op.Ret}
    (hB : 0 < cfg.blockSize) (h : NetRun cfg allowed hist s) (hop : op.Transfers f)
    (hx : Exec logged.serve (op.run cfg s) [] s' (.ok a) w) :
    s'.cache.countCachedBlocks ≤ cfg.maxCacheEntry ↔ op.Fits cfg s w := by
  cases op with
  | read g off n =>
    have hcount := (NetFS.read_count hB (h.wf hB)).exec hx a rfl
    rw [hcount]
    exact afterEvict_le_iff
  | write g off buf =>
    have hcount := (NetFS.write_count hB (h.wf hB)).exec hx a rfl
    rw [hcount]
    exact afterEvict_le_iff
  | _ => exact hop.elim

/-- Blocks of one byte, room for one of them, and one is evicted at a time. -/
def roomForOne : Config :=
  { blockSize := 1, maxCacheEntry := 1, evictCount := 1, flushInterval := 1, order := .inserted }

/-- Two bytes of a new file fit: one of the two blocks goes. -/
theorem within_capacity_iff_two : ∃ s' w, NetRun roomForOne (fun _ => True) [] .new ∧
    Exec logged.serve ((Op.read [102] 0 2).run roomForOne .new) [] s' (.ok [1, 2]) w ∧
    (Op.read [102] 0 2).Fits roomForOne .new w ∧ s'.cache.countCachedBlocks ≤ 1 := by
  have hx := exec_notedRun (.read [102] 0 2) roomForOne .new oneFile (o := .ok [1, 2]) (by decide +kernel)
  have hfits : (Op.read [102] 0 2).Fits roomForOne .new (notedRun (.read [102] 0 2) roomForOne .new oneFile).2.2 := by
    show (_ : Nat) ≤ _
    decide +kernel
  have hrun : NetRun roomForOne (fun _ => True) [] .new := .start
  have hop : (Op.read [102] 0 2).Transfers [102] := rfl
  exact ⟨_, _, hrun, hx, hfits, (within_capacity_iff (by decide) hrun hop hx).mpr hfits⟩

/-- **Three bytes do not**: two blocks stay where one may be. -/
theorem read_exceeds_capacity : ∃ s' w, 1 ≤ roomForOne.evictCount ∧
    Exec logged.serve ((Op.read [102] 0 3).run roomForOne .new) [] s' (.ok [1, 2, 3]) w ∧
    NetRun roomForOne (fun _ => True) [(.read [102] 0 3, s')] s' ∧
    ¬ s'.cache.countCachedBlocks ≤ roomForOne.maxCacheEntry := by
  have hx := exec_notedRun (.read [102] 0 3) roomForOne .new oneFile (o := .ok [1, 2, 3]) (by decide +kernel)
  exact ⟨_, _, by decide, hx, .call .start hx trivial, by decide +kernel⟩

end Nfs
