/-
What a crash of a client can lose, in a run in which no request fails.

An operation makes no block dirty but those it writes to (`Op.run_dirty`).
`write_op_count` counts the writes, and when it comes to `flush_interval` it
starts again and every block is clean (`Counted`). So a run splits at the
last such moment, or at its start: after it there are `write_op_count`
writes, and the dirty blocks are theirs (`SinceClean`).

A block that is dirty holds bytes that the server has not got. They can be
bytes of a given write only if the block has been dirty ever since it
(`AtRisk`): had it been clean or gone in between, they would have been sent,
or dropped with the block.
-/
import Nfs.Recency
import Nfs.Responses
import Nfs.View
import Nfs.WriteBack

namespace Nfs

open PlainFile Resume

/-! ## Which blocks become dirty -/

/-- Any response that is no error. -/
def unfailing : Service Unit where
  serve _ r a _ := r.error a = 0
  rely _ _ := True
  seen _ _ := True

theorem unfailing_fail {B : Nat} {T : Str → Nat → Prop} : MarksFail unfailing.back B T fun _ _ => False := by
  refine ⟨fun _ _ => trivial, ?_, False.elim⟩
  intro V _ _ r a hs hf _
  obtain ⟨resp, hs, rfl⟩ := hs
  exact Call.failed_ans.mp hf hs

/-- The marks of dirty blocks outlast every operation but a write. -/
theorem Marked.lasting (B : Nat) (T : Str → Nat → Prop) :
    Lasting unfailing B (Marked B T) (fun _ _ => False) fun _ _ => Marked B T where
  seen _ _ := trivial
  fetches := Marked.fetches unfailing_fail
  flushes := Marked.flushes unfailing_fail
  thinned h _ ht := h.thinned ht
  asks _ h _ _ := h
  drop := by
    intro V w f h g fc hg x hd
    by_cases hgf : g = f
    · rw [hgf, Files.drop_self] at hg
      cases hg
    · rw [Files.drop_other hgf] at hg
      exact h g fc hg x hd

/-- The blocks that an operation writes to. -/
def Op.touched (B : Nat) : Op → List CacheEntryID
  | .write f off buf => Cache.touches B f off buf.length
  | _ => []

section
variable {cfg : Config} {s s' : NetFS}

theorem marked_iff (hB : 0 < cfg.blockSize) {T : Str → Nat → Prop} :
    Marked cfg.blockSize T s.files () ↔ ∀ f b, s.cache.IsDirty f b → T f b := by
  constructor
  · intro h f b hd
    obtain ⟨fc, hf, -⟩ := Cache.exists_file_of_entry hd.choose_spec.1
    have := h f fc hf _ ((Cache.isDirty_iff hB hf).mp hd)
    rwa [Nat.mul_div_cancel _ hB] at this
  · intro h f fc hf x hd
    refine h f (x / cfg.blockSize) ?_
    obtain ⟨e, he, hs⟩ := hd
    exact ⟨e, by rw [Cache.entry_of_file hf]; exact he, hs⟩

/-- **An operation** makes no block dirty but those it writes to. -/
theorem Op.run_dirty (hB : 0 < cfg.blockSize) (op : Op) (h : s.cache.Wf cfg.blockSize) :
    (op.run cfg s).wp unfailing.net (fun s' _ _ => ∀ f b, s'.cache.IsDirty f b →
      s.cache.IsDirty f b ∨ ⟨f, b⟩ ∈ op.touched cfg.blockSize) () := by
  have hL := Marked.lasting cfg.blockSize fun f b => s.cache.IsDirty f b ∨ ⟨f, b⟩ ∈ op.touched cfg.blockSize
  have hstart := (marked_iff (s := s) hB).mpr fun f b (hd : s.cache.IsDirty f b) =>
    (.inl hd : s.cache.IsDirty f b ∨ ⟨f, b⟩ ∈ op.touched cfg.blockSize)
  refine (hL.run hB op ?_ ?_ h hstart).mono fun s' _ o hend => (marked_iff hB).mp hend.keeps.2.2
  · intro f off buf hop V w fc fc' hV hf hst
    refine hV.set fun x hd => ?_
    rcases (hst.dirty x).mp hd with hd | ⟨y, h₁, h₂, hy⟩
    · exact hV f fc hf x hd
    · subst hop
      rw [← hy]
      exact .inr (Cache.mem_touches.mpr ⟨rfl, Cache.mem_span_of_byte h₁ h₂⟩)
  · intro f n _
    exact Cache.Ends.conseq (Marked.truncate unfailing_fail h hstart) (fun _ _ _ h hm _ => ⟨h, hm, trivial⟩)
      fun _ _ _ _ hX => hX.elim

/-! ## The count of writes -/

def Op.isWrite : Op → Bool
  | .write .. => true
  | _ => false

/-- What a write does to the count: it is one more, or starts again with
every block clean. -/
def Counted (cfg : Config) (s s' : NetFS) : Prop :=
  (s'.writeOpCount = s.writeOpCount + 1 ∧ s'.writeOpCount < cfg.flushInterval) ∨
  (s'.writeOpCount = 0 ∧ ∀ f b, ¬ s'.cache.IsDirty f b)

/-- `write_op_count` is left alone. -/
def KeepsCount {α : Type} (p : NetFSM α) : Prop :=
  ∀ s w, (p s).wp unfailing.net (fun s' _ _ => s'.writeOpCount = s.writeOpCount) w

namespace KeepsCount

variable {α β : Type} {p q : NetFSM α}

theorem pure (a : α) : KeepsCount (Pure.pure a : NetFSM α) := fun _ _ => rfl

theorem throw (e : Int) : KeepsCount (Prog.throw e : NetFSM α) := fun _ _ => rfl

theorem ask (r : Req) : KeepsCount (Prog.ask r : NetFSM r.Resp) := fun _ _ => wp_ask.mpr ⟨trivial, fun _ _ _ _ _ => rfl⟩

theorem onCache (p : CacheM α) : KeepsCount (NetFS.onCache p) := fun _ _ =>
  NetFS.onCache_wp.mpr (wp_always (fun _ _ => trivial) (fun _ _ _ => rfl) _)

theorem bind {k : α → NetFSM β} (hp : KeepsCount p) (hk : ∀ a, KeepsCount (k a)) : KeepsCount (p >>= k) := by
  intro s w
  refine wp_seq (hp s w) (fun s₁ w₁ a h₁ => ?_) (fun _ _ _ h₁ => h₁) fun _ _ h₁ => h₁
  exact (hk a s₁ w₁).mono fun _ _ _ h₂ => h₂.trans h₁

theorem ite {P : Prop} [Decidable P] (hp : KeepsCount p) (hq : KeepsCount q) : KeepsCount (if P then p else q) := by
  split
  · exact hp
  · exact hq

theorem checkTime (f : Str) (time : FileTime) : KeepsCount (NetFS.checkTime f time) := by
  refine .bind (fun _ _ => rfl) fun s => .ite (.onCache _) ?_
  split
  · exact .ite (.onCache _) (.pure ())
  · exact .pure ()

theorem evict (cfg : Config) : KeepsCount (NetFS.evict cfg) :=
  .bind (fun _ _ => rfl) fun _ => .ite (.onCache _) (.pure ())

end KeepsCount

theorem Op.keepsCount {op : Op} (hop : op.isWrite = false) : KeepsCount (op.run cfg) := by
  have hsimply : ∀ r : Req, KeepsCount (NetFS.simply r) := fun r =>
    .bind (.ask r) fun a => .ite (.throw _) (.pure ())
  have hremove : ∀ (r : Req) (f : Str), KeepsCount (NetFS.remove r f) := fun r f =>
    .bind (.ask r) fun a => .ite (.throw _) (.onCache _)
  cases op with
  | access f => exact .bind (.ask (.access f)) fun a => .ite (.bind (.onCache _) fun _ => .throw _) (.checkTime f _)
  | create f => exact hsimply _
  | stat f =>
    exact .bind (.ask (.stat f)) fun a => .ite (.bind (.onCache _) fun _ => .throw _)
      (.bind (.checkTime f _) fun _ => .pure _)
  | statfs => exact .bind (.ask .statfs) fun a => .ite (.throw _) (.pure _)
  | readdir f => exact .bind (.ask (.readdir f)) fun a => .ite (.throw _) (.pure _)
  | read f off n => exact .bind (.onCache _) fun data => .bind (.evict cfg) fun _ => .pure data
  | write f off buf => cases hop
  | truncate f n => exact .onCache _
  | unlink f => exact hremove _ _
  | rmdir f => exact hremove _ _
  | mkdir f mode => exact hsimply _
  | flush f => exact .onCache _
  | rename f g flags =>
    exact .bind (.ask (.rename f g flags)) fun a => .ite (.throw _) (.bind (.onCache _) fun _ => .onCache _)

theorem NetFS.countWrite_counted (hB : 0 < cfg.blockSize) (h : s.cache.Wf cfg.blockSize) :
    ((NetFS.countWrite cfg) s).wp unfailing.net (fun s' _ _ => Counted cfg s s') () := by
  have hL := Marked.lasting cfg.blockSize fun _ _ => True
  refine wp_bind.mpr (wp_get.mpr (wp_bind.mpr (wp_set.mpr ?_)))
  show Act.wp unfailing.net _ ((if _ then _ else _ : NetFSM Unit) _) ()
  split
  · refine wp_bind.mpr (wp_set.mpr (wp_swallow.mpr (NetFS.onCache_wp.mpr ?_)))
    refine Cache.Ends.conseq (Cache.flushDirtyBlocks_rule hL.flushes hB cfg.order h fun _ _ _ _ _ => trivial)
      (fun c w _ hc _ hclean => .inr ⟨rfl, fun f b hd => ?_⟩) fun _ _ _ _ hX => hX.elim
    obtain ⟨fc, hf, -⟩ := Cache.exists_file_of_entry hd.choose_spec.1
    exact (hclean.2 f fc hf).not_dirtyAt ((Cache.isDirty_iff hB hf).mp hd)
  · rename_i hlt
    exact .inl ⟨rfl, by simpa using hlt⟩

theorem NetFS.write_counted {f : Str} {off : Nat} {buf : Bytes} (hB : 0 < cfg.blockSize)
    (h : s.cache.Wf cfg.blockSize) :
    ((NetFS.write cfg f off buf) s).wp unfailing.net (fun s' _ _ => Counted cfg s s') () := by
  have hL := Marked.lasting cfg.blockSize fun _ _ => True
  have hwrite : (Cache.write cfg.blockSize f off buf s.cache).wp unfailing.back
      (Cache.Ends cfg.blockSize (Marked cfg.blockSize fun _ _ => True) (fun _ _ => False)
        fun _ _ _ => True) () :=
    Cache.write_rule (hL.fetches f) hB (fun _ _ _ _ _ _ _ _ => trivial) h fun _ _ _ _ _ => trivial
  have h₁ := (NetFS.onCache_rule (P := fun _ => True) hwrite fun _ _ _ => trivial).and
    (KeepsCount.onCache (Cache.write cfg.blockSize f off buf) s ())
  refine wp_seq h₁ ?_ (fun _ _ _ hQ => hQ.1.2.elim) fun _ _ hQ => hQ.1.elim
  intro s₁ w₁ _ hQ₁
  have h₂ := (NetFS.evict_rule hB hL.flushes (fun h hc ht => hL.thinned (w := ()) h hc ht) hQ₁.1.1 hQ₁.1.2.1).and
    (KeepsCount.evict cfg s₁ w₁)
  refine wp_seq h₂ ?_ (fun _ _ _ hQ => hQ.1.2.elim) fun _ _ hQ => hQ.1.elim
  intro s₂ w₂ _ hQ₂
  refine (NetFS.countWrite_counted hB hQ₂.1.1).mono fun s' _ _ hc => ?_
  rwa [Counted, hQ₂.2, hQ₁.2] at hc

end

/-! ## The run since everything was clean -/

/-- No response is an error. -/
def Responses.Unfailing (w : Responses) : Prop := ∀ q ∈ w, q.1.error q.2 = 0

instance (w : Responses) : Decidable w.Unfailing := inferInstanceAs (Decidable (∀ q ∈ w, q.1.error q.2 = 0))

/-- The writes of a run, the last one first. -/
def writes (hist : List (Op × NetFS)) : List Op := (hist.map (·.1)).filter Op.isWrite

/-- The `later` part of a run has started with every block clean. The
counted writes are in it, and the dirty blocks are theirs. -/
structure SinceClean (cfg : Config) (hist later earlier : List (Op × NetFS)) (s : NetFS) : Prop where
  split : hist = later ++ earlier
  count : (writes later).length = s.writeOpCount
  bound : s.writeOpCount < cfg.flushInterval
  clean : ∀ p ∈ earlier.head?, ∀ f b, ¬ p.2.cache.IsDirty f b
  dirty : ∀ f b, s.cache.IsDirty f b → ∃ op ∈ writes later, ⟨f, b⟩ ∈ op.touched cfg.blockSize

section
variable {cfg : Config} {s s' : NetFS} {op : Op} {o : Outcome op.Ret} {w : Responses}
  {hist later earlier : List (Op × NetFS)}

theorem exec_unfailing {α : Type} {p : Act NetFS Req.Resp α} {o : Outcome α} {w₀ : Responses}
    (hx : Exec logged.serve p w₀ s' o w) (hw : w.Unfailing) : Exec unfailing.serve p () s' o () := by
  induction hx with
  | done s o w => exact .done s o ()
  | @ask r a w₁ k s₁ o₁ w₂ s w₀ hs hx ih =>
    refine .ask s (hw ⟨r, a⟩ ?_) (ih hw)
    refine hx.keeps (P := fun w => ⟨r, a⟩ ∈ w) (fun hs' hm => ?_) ?_
    · rw [hs']
      exact List.mem_cons_of_mem _ hm
    · rw [hs]
      exact List.mem_cons_self ..

@[simp] theorem writes_cons {p : Op × NetFS} :
    writes (p :: hist) = if p.1.isWrite then p.1 :: writes hist else writes hist := by
  rw [writes, List.map_cons, List.filter_cons]
  rfl

@[simp] theorem writes_append : writes (later ++ earlier) = writes later ++ writes earlier := by
  simp [writes]

theorem Op.touched_eq_nil {B : Nat} (h : op.isWrite = false) : op.touched B = [] := by
  cases op with
  | write => cases h
  | _ => rfl

/-- **One operation.** -/
theorem SinceClean.call (hB : 0 < cfg.blockSize) (hF : 0 < cfg.flushInterval) (hwf : s.cache.Wf cfg.blockSize)
    (h : SinceClean cfg hist later earlier s) (hx : Exec logged.serve (op.run cfg s) [] s' o w) (hw : w.Unfailing) :
    ∃ later' earlier', SinceClean cfg ((op, s') :: hist) later' earlier' s' := by
  have hx' := exec_unfailing hx hw
  have hdirty := (op.run_dirty hB hwf).exec_in (fun _ => trivial) id hx'
  cases hop : op.isWrite with
  | false =>
    have hcount := (Op.keepsCount hop s ()).exec_in (fun _ => trivial) id hx'
    refine ⟨(op, s') :: later, earlier, by rw [h.split]; rfl, ?_, ?_, h.clean, fun f b hd => ?_⟩
    · rw [writes_cons, if_neg (by simp [hop]), hcount, h.count]
    · rw [hcount]
      exact h.bound
    · rw [writes_cons, if_neg (by simp [hop])]
      refine h.dirty f b ((hdirty f b hd).resolve_right ?_)
      rw [Op.touched_eq_nil hop]
      exact List.not_mem_nil
  | true =>
    cases op with
    | write g off buf =>
      have hcount := (NetFS.write_counted hB hwf).exec_in (fun _ => trivial) id hx'
      rcases hcount with ⟨hone, hlt⟩ | ⟨hzero, hclean⟩
      · refine ⟨(.write g off buf, s') :: later, earlier, by rw [h.split]; rfl, ?_, hlt, h.clean, fun f b hd => ?_⟩
        · rw [writes_cons, if_pos hop, List.length_cons, h.count, hone]
        · rw [writes_cons, if_pos hop]
          rcases hdirty f b hd with hd | hd
          · obtain ⟨op, hm, hop⟩ := h.dirty f b hd
            exact ⟨op, List.mem_cons_of_mem _ hm, hop⟩
          · exact ⟨_, List.mem_cons_self .., hd⟩
      · refine ⟨[], _, rfl, by rw [hzero]; rfl, by rw [hzero]; exact hF, fun p hp => ?_,
          fun f b hd => absurd hd (hclean f b)⟩
        cases hp
        exact hclean
    | _ => cases hop

theorem NetRun.sinceClean (hB : 0 < cfg.blockSize) (hF : 0 < cfg.flushInterval)
    (h : NetRun cfg Responses.Unfailing hist s) : ∃ later earlier, SinceClean cfg hist later earlier s := by
  induction h with
  | start =>
    refine ⟨[], [], rfl, rfl, hF, by simp, fun f b hd => ?_⟩
    obtain ⟨e, he, -⟩ := hd
    cases he
  | call h hx hw ih =>
    obtain ⟨later, earlier, ih⟩ := ih
    exact ih.call hB hF (h.wf hB) hx hw

/-! ## What a crash can lose -/

/-- The operation `i` places back has written to a block that has been dirty
ever since. -/
def AtRisk (B : Nat) (hist : List (Op × NetFS)) (i : Nat) : Prop :=
  ∃ p, hist[i]? = some p ∧ ∃ k ∈ p.1.touched B, ∀ q ∈ hist.take (i + 1), q.2.cache.IsDirty k.filename k.blockNum

theorem AtRisk.isWrite {B i : Nat} (h : AtRisk B hist i) : ∃ p, hist[i]? = some p ∧ p.1.isWrite = true := by
  obtain ⟨p, hp, k, hk, -⟩ := h
  refine ⟨p, hp, ?_⟩
  cases hw : p.1.isWrite with
  | true => rfl
  | false =>
    rw [Op.touched_eq_nil hw] at hk
    cases hk

theorem SinceClean.atRisk_lt {i : Nat} (h : SinceClean cfg hist later earlier s) (hi : AtRisk cfg.blockSize hist i) :
    i < later.length := by
  obtain ⟨p, hp, k, -, hd⟩ := hi
  by_contra hle
  rw [h.split] at hp hd
  rw [List.getElem?_append_right (by omega)] at hp
  cases he : earlier with
  | nil =>
    rw [he] at hp
    cases hp
  | cons q rest =>
    refine h.clean q (by rw [he]; rfl) _ _ (hd q ?_)
    rw [he, List.take_append, show i + 1 - later.length = (i - later.length) + 1 by omega, List.take_succ_cons]
    simp

/-- A write has fewer writes after it than an earlier write has. -/
theorem writes_take_lt {i j : Nat} {p : Op × NetFS} (hp : hist[i]? = some p) (hw : p.1.isWrite = true) (hij : i < j) :
    (writes (hist.take i)).length < (writes (hist.take j)).length := by
  have hone : writes (hist.take (i + 1)) = writes (hist.take i) ++ [p.1] := by
    rw [List.take_add_one, hp, writes_append]
    simp [writes, hw]
  have hsub : (writes (hist.take (i + 1))).Sublist (writes (hist.take j)) :=
    ((List.take_sublist_take_left hij).map _).filter _
  have := hsub.length_le
  rw [hone, List.length_append] at this
  exact this

theorem length_le_of_rank {l : List Nat} {n : Nat} (r : Nat → Nat) (hn : l.Nodup) (hr : ∀ i ∈ l, r i < n)
    (hlt : ∀ i ∈ l, ∀ j, i < j → r i < r j) : l.length ≤ n := by
  have hinj : ∀ i ∈ l, ∀ j ∈ l, r i = r j → i = j := by
    intro i hi j hj he
    rcases Nat.lt_trichotomy i j with hij | hij | hij
    · have := hlt i hi j hij
      omega
    · exact hij
    · have := hlt j hj i hij
      omega
  have hsub : l.map r ⊆ List.range n := by
    intro x hx
    obtain ⟨i, hi, rfl⟩ := List.mem_map.mp hx
    exact List.mem_range.mpr (hr i hi)
  simpa using (List.subperm_of_subset (hn.map_on hinj) hsub).length_le

/-- **Bounded loss.** In every state between operations `write_op_count` is
less than `flush_interval`, every dirty block was written to by one of the
last `write_op_count` writes, and fewer than `flush_interval` writes are at
risk. -/
theorem bounded_loss (hB : 0 < cfg.blockSize) (hF : 1 ≤ cfg.flushInterval)
    (h : NetRun cfg Responses.Unfailing hist s) :
    s.writeOpCount < cfg.flushInterval ∧
    (∀ f b, s.cache.IsDirty f b →
      ∃ op ∈ (writes hist).take s.writeOpCount, ⟨f, b⟩ ∈ op.touched cfg.blockSize) ∧
    ∀ l : List Nat, l.Nodup → (∀ i ∈ l, AtRisk cfg.blockSize hist i) → l.length < cfg.flushInterval := by
  obtain ⟨later, earlier, hs⟩ := h.sinceClean hB hF
  have htake : (writes hist).take s.writeOpCount = writes later := by
    rw [hs.split, writes_append, ← hs.count, List.take_left]
  refine ⟨hs.bound, fun f b hd => ?_, fun l hn hl => ?_⟩
  · rw [htake]
    exact hs.dirty f b hd
  · refine Nat.lt_of_le_of_lt (length_le_of_rank (fun i => (writes (hist.take i)).length) hn ?_ ?_) hs.bound
    · intro i hi
      obtain ⟨p, hp, hw⟩ := (hl i hi).isWrite
      have hlt := writes_take_lt hp hw (hs.atRisk_lt (hl i hi))
      rwa [hs.split, List.take_left, hs.count, ← hs.split] at hlt
    · intro i hi j hij
      obtain ⟨p, hp, hw⟩ := (hl i hi).isWrite
      exact writes_take_lt hp hw hij

end

/-- A byte has been written, and its block is still dirty. -/
theorem bounded_loss_one : ∃ s', NetRun (smallCache true) Responses.Unfailing [(.write [102] 0 [9], s')] s' ∧
    s'.cache.IsDirty [102] 0 ∧ AtRisk 2 [(.write [102] 0 [9], s')] 0 ∧ s'.writeOpCount < 3 ∧
    (∃ op ∈ (writes [(.write [102] 0 [9], s')]).take s'.writeOpCount, ⟨[102], 0⟩ ∈ op.touched 2) := by
  have hx := exec_notedRun (.write [102] 0 [9]) (smallCache true) .new oneFile (o := .ok ()) (by decide +kernel)
  have hrun : NetRun (smallCache true) Responses.Unfailing [(.write [102] 0 [9], _)] _ :=
    .call .start hx (by decide +kernel)
  have hd : (notedRun (.write [102] 0 [9]) (smallCache true) .new oneFile).1.cache.IsDirty [102] 0 :=
    ⟨_, rfl, by decide +kernel⟩
  obtain ⟨hlt, hdirty, -⟩ := bounded_loss (by decide) (by decide) hrun
  refine ⟨_, hrun, hd, ⟨_, rfl, ⟨[102], 0⟩, by decide, fun q hq => ?_⟩, hlt, hdirty _ _ hd⟩
  cases List.mem_singleton.mp hq
  exact hd

end Nfs
