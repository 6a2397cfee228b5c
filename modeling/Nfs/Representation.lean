/-
Runs of the public operations of the cache, whatever the callbacks answer.

The cache is one thread, whose requests are answered in every way: with an
error or without, with any attributes and any data. So a state of a run is
one between two calls or one in which a callback is running. In every such
state the recency list and the map of files agree (`Cache.Represented`), and
no check has failed: no `assert`, no `.at()` of a map, no iterator.

Sizes and offsets are naturals here. In the source they are 64 bits wide; for
requests that end below 2⁶³ the largest number computed is the end of the
last block touched, which is less than 2⁶³ past the request's.
-/
import Nfs.Lib.Threads
import Nfs.FlushRules
import Nfs.Plain

namespace Nfs

open PlainFile Resume

/-! ## Runs -/

inductive CacheCall
  | ofOp (op : CacheOp)
  | invalidate (f : Str)
  deriving DecidableEq

abbrev CacheCall.Ret (_ : CacheCall) : Type := Bytes

def CacheCall.run (B : Nat) (order : HashOrder) : (call : CacheCall) → CacheM call.Ret
  | .ofOp op => op.run B order
  | .invalidate f => do Cache.local_ (Cache.invalidate f); pure []

/-- One cache, and callbacks that have no state. -/
abbrev LoneCache := Threads Unit Unit Cache Call.Ans CacheCall.Ret

/-- Whatever the callback answers. -/
def AnyReply (_ : Unit) (r : Call) (_ : r.Ans) (_ : Unit) : Prop := True

abbrev CacheStep (B : Nat) (order : HashOrder) :
    LoneCache → Threads.Event Call.Ans CacheCall.Ret → LoneCache → Prop :=
  fun S e S' => Threads.Step AnyReply (fun _ call => call.run B order) S () e S'

/-- A state of a run that starts with nothing cached. -/
inductive CacheReach (B : Nat) (order : HashOrder) : LoneCache → Prop
  | start : S.threads () = .idle .empty → CacheReach B order S
  | step : CacheReach B order S → CacheStep B order S e S' → CacheReach B order S'

def LoneCache.cache (S : LoneCache) : Cache := (S.threads ()).state

/-- A call with replies from a function, as steps of a run. -/
theorem CacheReach.call {B : Nat} {order : HashOrder} {S : LoneCache} {c : Cache} (h : CacheReach B order S)
    (hc : S.threads () = .idle c) (call : CacheCall) (reply : (r : Call) → r.Ans)
    (ho : ((call.run B order c).interp (fun _ r => (reply r, ())) ()).2.1 ≠ .fault) :
    ∃ S', CacheReach B order S' ∧
      S'.threads () = .idle ((call.run B order c).interp (fun _ r => (reply r, ())) ()).1 := by
  have hx : Exec AnyReply (call.run B order c) () _ _ _ := exec_answers (h := fun _ r => (reply r, ()))
    (fun _ _ => trivial) _ () rfl
  obtain ⟨_, S', _, -, h', -, -, ht⟩ := Threads.steps AnyReply (fun _ (call : CacheCall) => call.run B order) () call
    (CacheReach B order) hx (rfl : S.world = ()) hc h (fun _ => trivial) fun h hs _ _ => .step h hs
  refine ⟨S', h', ht.trans ?_⟩
  cases ho' : ((call.run B order c).interp (fun _ r => (reply r, ())) ()).2.1 with
  | ok _ => rfl
  | err _ => rfl
  | fault => exact absurd ho' ho

/-- The replies of the callbacks, the last one first. -/
abbrev Replies := List ((r : Call) × r.Ans)

/-- Any reply, which is noted. -/
def Noted (w : Replies) (r : Call) (a : r.Ans) (w' : Replies) : Prop := w' = ⟨r, a⟩ :: w

def Replies.Failed (w : Replies) : Prop := ∃ p ∈ w, Plain.failed p.1 p.2

instance (w : Replies) : Decidable w.Failed := inferInstanceAs (Decidable (∃ p ∈ w, Plain.failed p.1 p.2))

/-! ## What every call keeps -/

variable {B : Nat} {order : HashOrder} {c : Cache} {S S' : LoneCache}

/-- Any reply, and well-formed caches whenever a callback runs. -/
def wfEnv (B : Nat) : Env Cache Unit Call.Ans where
  serve := AnyReply
  rely _ _ := True
  seen c _ := c.Wf B

theorem wfEnv_fetches (f : Str) : Fetches (wfEnv B) B (fun _ _ => True) (fun _ _ => True) f := .nothing id f

theorem wfEnv_flushes (f : Str) : Flushes (wfEnv B) B (fun _ _ => True) (fun _ _ => True) (fun _ _ _ => True) f :=
  .nothing id f

/-- **One call** fails no check and keeps the cache well formed. -/
theorem CacheCall.run_wf (hB : 0 < B) (call : CacheCall) (h : c.Wf B) :
    (call.run B order c).wp (wfEnv B) (Cache.Ends B (fun _ _ => True) (fun _ _ => True) fun _ _ _ => True) () := by
  have hret : ∀ {p : CacheM Unit} {R : Cache → Unit → Unit → Prop},
      (p c).wp (wfEnv B) (Cache.Ends B (fun _ _ => True) (fun _ _ => True) R) () →
      ((do p; pure [] : CacheM Bytes) c).wp (wfEnv B)
        (Cache.Ends B (fun _ _ => True) (fun _ _ => True) fun _ _ _ => True) () :=
    fun hp => Cache.Ends.seq hp (fun _ _ _ h _ _ => ⟨h, trivial, trivial⟩) fun _ _ _ h _ => ⟨h, trivial⟩
  cases call with
  | invalidate f =>
    obtain ⟨c', hc', hw', -⟩ := Cache.invalidate_spec (f := f) h
    exact wp_bind.mpr ((Cache.local_wp hc').mpr (show _ ∧ _ from ⟨hw', trivial, trivial⟩))
  | ofOp op =>
    cases op with
    | write f off buf => exact hret (Cache.write_rule (wfEnv_fetches f) hB (fun _ _ _ => trivial) h trivial)
    | read f off size =>
      exact Cache.Ends.conseq (Cache.read_rule (wfEnv_fetches f) hB h trivial)
        (fun _ _ _ h _ _ => ⟨h, trivial, trivial⟩) fun _ _ _ h _ => ⟨h, trivial⟩
    | flush f =>
      exact Cache.Ends.seq (Cache.flush_rule (wfEnv_flushes f) hB h trivial)
        (fun _ _ _ h _ _ => show _ ∧ _ from ⟨h, trivial, trivial⟩) fun _ _ _ _ hX => hX.elim
    | flushDirtyBlocks => exact hret (Cache.flushDirtyBlocks_rule wfEnv_flushes hB order h trivial)
    | evictBlocks count => exact hret (Cache.evictBlocks_rule wfEnv_flushes hB order (fun _ _ _ => trivial) h trivial)
    | truncate f n =>
      exact hret (Cache.truncate_rule (K := fun _ _ => True) (wfEnv_fetches f) (fun _ _ _ => trivial)
        (fun _ _ _ _ _ => trivial) (fun h _ => h) (fun _ _ _ _ => ⟨fun _ => trivial, fun _ => trivial⟩) id h trivial)

theorem CacheReach.keeps (hB : 0 < B) (h : CacheReach B order S) :
    (S.threads ()).Keeps (fun _ _ => wfEnv B) (fun c _ => c.Wf B) (fun _ _ c _ o => o ≠ .fault ∧ c.Wf B) () := by
  induction h with
  | start hidle =>
    rw [hidle]
    exact Cache.empty_wf
  | @step S e S' _ hs ih =>
    refine (hs.keeps ih id (fun _ => trivial) (fun _ _ => rfl) (fun _ _ _ => trivial) fun c _ hc => ?_).1
    exact Cache.Ends.conseq (e.op.run_wf hB hc) (fun _ _ _ h _ _ => ⟨nofun, h⟩) fun _ _ _ h _ => ⟨nofun, h⟩

theorem CacheReach.wf (hB : 0 < B) (h : CacheReach B order S) : S.cache.Wf B :=
  (h.keeps hB).state id id

/-! ## The two structures agree -/

/-- The records of the recency list are those of the entries, each once. -/
structure Cache.Represented (c : Cache) : Prop where
  nodup : (c.recentList.map (·.id)).Nodup
  mem_iff : ∀ f b, ⟨f, b⟩ ∈ c.recentList.map (·.id) ↔ ∃ fc, c.file f = some fc ∧ b ∈ fc.entries.keys
  /-- The node an entry points to is in the list, and holds the entry's block. -/
  useRecord : ∀ f fc b e, c.file f = some fc → fc.entries.lookup b = some e →
    ∃ r ∈ c.recentList, r.addr = e.useRecord ∧ r.id = ⟨f, b⟩ ∧ ∀ q ∈ c.recentList, q.addr = e.useRecord → q = r
  count : c.countCachedBlocks = (c.fileMap.entries.map fun p => p.2.entries.entries.length).sum

/-- The blocks of all files. -/
def Cache.blocks (c : Cache) : List CacheEntryID :=
  c.fileMap.entries.flatMap fun p => p.2.entries.keys.map (⟨p.1, ·⟩)

theorem Cache.mem_blocks {f : Str} {b : Nat} :
    ⟨f, b⟩ ∈ c.blocks ↔ ∃ fc, c.file f = some fc ∧ b ∈ fc.entries.keys := by
  simp only [Cache.blocks, List.mem_flatMap, List.mem_map, CacheEntryID.mk.injEq]
  constructor
  · rintro ⟨⟨g, fc⟩, hg, b', hb, rfl, rfl⟩
    exact ⟨fc, AList.mem_lookup_iff.mpr hg, hb⟩
  · rintro ⟨fc, hf, hb⟩
    exact ⟨⟨f, fc⟩, AList.mem_lookup_iff.mp hf, b, hb, rfl, rfl⟩

theorem Cache.nodup_blocks : c.blocks.Nodup := by
  refine List.nodup_flatMap.mpr ⟨fun p _ => p.2.entries.keys_nodup.map fun b b' h => ?_, ?_⟩
  · exact (CacheEntryID.mk.inj h).2
  · refine (List.nodupKeys_iff_pairwise.mp c.fileMap.nodupKeys).imp fun {p q} hne => ?_
    simp only [Function.onFun, List.disjoint_left, List.mem_map, not_exists, not_and]
    rintro _ ⟨b, -, rfl⟩ b' - h
    exact hne (CacheEntryID.mk.inj h).1.symm

theorem Cache.Wf.represented (h : c.Wf B) : c.Represented := by
  have hentry : ∀ f b, (c.entry f b).isSome ↔ ∃ fc, c.file f = some fc ∧ b ∈ fc.entries.keys := by
    intro f b
    cases hf : c.file f with
    | none => simp [Cache.entry, hf]
    | some fc => simp [Cache.entry_of_file hf, AList.lookup_isSome, AList.mem_keys]
  have hmem : ∀ f b, ⟨f, b⟩ ∈ c.recentList.map (·.id) ↔ ∃ fc, c.file f = some fc ∧ b ∈ fc.entries.keys :=
    fun f b => (h.mem_ids ⟨f, b⟩).trans (hentry f b)
  refine ⟨h.ids_nodup, hmem, fun f fc b e hf he => ?_, ?_⟩
  · have hr := h.mem_record ((Cache.entry_of_file hf).trans he)
    exact ⟨_, hr, rfl, rfl, fun q hq ha => h.addr_inj hq hr ha⟩
  · have hperm : (c.recentList.map (·.id)).Perm c.blocks :=
      (List.perm_ext_iff_of_nodup h.ids_nodup Cache.nodup_blocks).mpr fun k => (hmem _ _).trans Cache.mem_blocks.symm
    have hlen := hperm.length_eq
    simpa [Cache.countCachedBlocks, Cache.blocks, List.length_flatMap, AList.keys, List.keys] using hlen

/-- A reply with the error code `e`, which changes nothing. -/
def Call.reply (e : Int) : (r : Call) → r.Ans
  | .contentWb _ _ _ time stale => { err := e, time := time, stale := stale }
  | .attrWb _ attr stale => { err := e, attr := attr, stale := stale }
  | .contentFt .. => { err := e, data := [] }
  | .attrFt _ => { err := e, attr := { size := 0, mode := 0, time := .epoch } }

/-- The `n`th reply and those after it are failures. -/
def failsFrom (n : Nat) (w : Replies) (r : Call) : r.Ans × Replies :=
  let a := r.reply (if w.length < n then 0 else 5)
  (a, ⟨r, a⟩ :: w)

/-- A cache after one byte has been written to an empty file. -/
def written : Cache :=
  (((CacheOp.write [102] 0 [9]).run 2 .inserted .empty).interp (fun _ r => (r.reply 0, ())) ()).1

theorem exists_written : ∃ S : LoneCache, CacheReach 2 .inserted S ∧ S.threads () = .idle written :=
  (CacheReach.start (rfl : (⟨(), fun _ => .idle .empty⟩ : LoneCache).threads () = _)).call rfl
    (.ofOp (.write [102] 0 [9])) (·.reply 0) (by decide +kernel)

/-- Two blocks of one file and a block of another have been written. -/
def writtenBoth : Cache :=
  let c := (((CacheOp.write [102] 1 [5, 6]).run 2 .inserted written).interp (fun _ r => (r.reply 0, ())) ()).1
  (((CacheOp.write [103] 0 [7]).run 2 .inserted c).interp (fun _ r => (r.reply 0, ())) ()).1

/-- The content is stored, and no new size. -/
def Call.failSize : (r : Call) → r.Ans
  | .attrWb f attr stale => (Call.attrWb f attr stale).reply 5
  | r => r.reply 0

/-- Then a call has failed to write them back, after the first file's content
and before its size. -/
def halfFlushed : Cache × Outcome Bytes × Unit :=
  (CacheOp.flushDirtyBlocks.run 2 .inserted writtenBoth).interp (fun _ r => (r.failSize, ())) ()

theorem exists_halfFlushed : ∃ S : LoneCache, CacheReach 2 .inserted S ∧ S.cache = halfFlushed.1 := by
  obtain ⟨S₁, h₁, hc₁⟩ := exists_written
  obtain ⟨S₂, h₂, hc₂⟩ := h₁.call hc₁ (.ofOp (.write [102] 1 [5, 6])) (·.reply 0) (by decide +kernel)
  obtain ⟨S₃, h₃, hc₃⟩ := h₂.call hc₂ (.ofOp (.write [103] 0 [7])) (·.reply 0) (by decide +kernel)
  obtain ⟨S₄, h₄, hc₄⟩ := h₃.call hc₃ (.ofOp .flushDirtyBlocks) Call.failSize (by decide +kernel)
  exact ⟨S₄, h₄, by rw [LoneCache.cache, hc₄]; rfl⟩

/-- **The recency list and the map agree** in every state of a run. -/
theorem cache_represented (hB : 0 < B) (h : CacheReach B order S) : S.cache.Represented :=
  (h.wf hB).represented

theorem cache_represented_failed : ∃ S : LoneCache, CacheReach 2 .inserted S ∧ halfFlushed.2.1 = .err 5 ∧
    S.cache.countCachedBlocks = 3 ∧ S.cache.fileMap.keys.length = 2 ∧ S.cache.Represented := by
  obtain ⟨S, h, hS⟩ := exists_halfFlushed
  have hcount : halfFlushed.1.countCachedBlocks = 3 ∧ halfFlushed.1.fileMap.keys.length = 2 := by decide +kernel
  rw [← hS] at hcount
  exact ⟨S, h, by decide +kernel, hcount.1, hcount.2, cache_represented (by decide) h⟩

/-- **No check fails**: no state of a run has the cache down. -/
theorem cache_checks_hold (hB : 0 < B) (h : CacheReach B order S) (c : Cache) : S.threads () ≠ .down c := by
  intro hdown
  have hk := h.keeps hB
  rw [hdown] at hk
  exact hk

theorem cache_checks_hold_failed : ∃ S : LoneCache, CacheReach 2 .inserted S ∧ halfFlushed.2.1 = .err 5 ∧
    S.cache.countCachedBlocks = 3 ∧ S.threads () ≠ .down S.cache := by
  obtain ⟨S, h, hS⟩ := exists_halfFlushed
  have hcount : halfFlushed.1.countCachedBlocks = 3 := by decide +kernel
  rw [← hS] at hcount
  exact ⟨S, h, by decide +kernel, hcount, cache_checks_hold (by decide) h S.cache⟩

end Nfs
