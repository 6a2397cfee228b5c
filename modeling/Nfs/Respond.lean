/-
`server_src/msg_response.cpp`: the response to each of the 12 requests.

A responder fills in a response and has `FileOp` do the work. What a response
or a `struct stat` holds before it is assigned to is indeterminate, and some
of it is sent when a call fails; `uninit` delivers it.
-/
import Nfs.Host
import Nfs.Framing

namespace Nfs

open PlainFile Resume

/-- Fields and variables that are not initialised. -/
structure Uninit where
  time : FileTime
  beforeChange : FileTime
  afterChange : FileTime
  stbuf : StatBuf
  fsStat : FsStat

inductive OpReq
  | host (c : HostCall)
  | uninit

abbrev OpReq.Ans : OpReq → Type
  | .host c => c.Ans
  | .uninit => Uninit

abbrev OpM := Prog Int OpReq.Ans

def uninit : OpM Uninit := Prog.ask OpReq.uninit

/-- A program over `HostCall`. -/
def onOp {α : Type} (p : HostM α) : OpM α := fun s => (p s).lift id OpReq.host fun _ a => a

/-! ## The responders -/

/-- The responses that are only an error. -/
def respondError (make : Int32 → Int32 → Msg) (id : Int32) (p : HostM Int) : OpM Msg := do
  let error ← onOp p
  pure (make id (Int32.ofInt error))

/-- The responses to a change. -/
def respondChange (make : Int32 → Int32 → FileTime → FileTime → Msg) (id : Int32)
    (p : FileTime → FileTime → ServerM ChangeResp) : OpM Msg := do
  let junk ← uninit
  let resp ← onOp (onHost (p junk.beforeChange junk.afterChange))
  pure (make id (Int32.ofInt resp.error) resp.beforeChange resp.afterChange)

section
variable (root : Str)

def respondAccess (id : Int32) (filename : Str) : OpM Msg := do
  let junk ← uninit
  let (error, time) ← onOp (FileOp.access root filename junk.time)
  pure (.accessResp id (Int32.ofInt error) time)

def respondCreate (id : Int32) (filename : Str) : OpM Msg := respondError .createResp id (FileOp.creat root filename)

def respondStat (id : Int32) (filename : Str) : OpM Msg := do
  let junk ← uninit
  let (error, stbuf) ← onOp (FileOp.stat root filename junk.stbuf)
  pure (.statResp id (Int32.ofInt error) { size := Int64.ofNat stbuf.size, mode := stbuf.mode, time := stbuf.time })

def respondStatfs (id : Int32) : OpM Msg := do
  let junk ← uninit
  let (error, st) ← onOp (FileOp.statfs root junk.fsStat)
  pure (.statfsResp id (Int32.ofInt error) st)

def respondReaddir (id : Int32) (filename : Str) : OpM Msg := do
  let (error, dirNames) ← onOp (FileOp.readdir root filename)
  pure (.readdirResp id (Int32.ofInt error) dirNames)

/-- The buffer of `size` bytes is cut to what has been read. -/
def respondRead (id : Int32) (filename : Str) (offset size : Int64) : OpM Msg := do
  let (error, data) ← onOp (FileOp.read root filename offset.toInt size.toUInt64.toNat)
  pure (.readResp id (Int32.ofInt error) data)

def respondWrite (id : Int32) (filename : Str) (offset : Int64) (data : Bytes) : OpM Msg := do
  Prog.assert (data ≠ [])
  respondChange .writeResp id (FileOp.write root filename offset.toInt data)

def respondTruncate (id : Int32) (filename : Str) (offset : Int64) : OpM Msg :=
  respondChange .truncateResp id (FileOp.truncate root filename offset.toInt)

def respondUnlink (id : Int32) (filename : Str) : OpM Msg := respondError .unlinkResp id (FileOp.unlink root filename)

def respondRmdir (id : Int32) (filename : Str) : OpM Msg := respondError .rmdirResp id (FileOp.rmdir root filename)

def respondMkdir (id : Int32) (filename : Str) (mode : Int32) : OpM Msg :=
  respondError .mkdirResp id (FileOp.mkdir root filename mode.toUInt32)

def respondRename (id : Int32) (fromName toName : Str) (flags : UInt32) : OpM Msg :=
  respondError .renameResp id (FileOp.rename root fromName toName flags)

/-- `responder_map.at(msg->type)`, applied. -/
def respond : Msg → OpM Msg
  | .access id filename => respondAccess root id filename
  | .create id filename => respondCreate root id filename
  | .statfs id => respondStatfs root id
  | .stat id filename => respondStat root id filename
  | .readdir id filename => respondReaddir root id filename
  | .read id filename offset size => respondRead root id filename offset size
  | .write id filename offset data => respondWrite root id filename offset data
  | .truncate id filename offset => respondTruncate root id filename offset
  | .unlink id filename => respondUnlink root id filename
  | .rmdir id filename => respondRmdir root id filename
  | .mkdir id filename mode => respondMkdir root id filename mode
  | .rename id fromName toName flags => respondRename root id fromName toName flags
  | _ => Prog.throw outOfRange

end

/-! ## What the file operations return -/

/-- Return `errno` and something else. -/
theorem errno_yields {α ρ : Type} {Ans : ρ → Type} {P : α → Prop} {f : Int → α} (h : ∀ e, P (f e)) :
    (Prog.get >>= fun e => pure (f e) : Prog Int Ans α).Yields P := yields_get.bind fun e _ => yields_pure (h e)

theorem host_yields {c : HostCall} : (host c).Yields fun _ => True := by
  refine yields_ask.bind fun a _ => ?_
  cases a with
  | ok v => exact yields_pure trivial
  | error e => exact yields_set.bind fun _ _ => yields_pure trivial

theorem sys_yields {c : SysCall} : (sys c).Yields fun _ => True := by
  refine yields_ask.bind fun a _ => ?_
  cases a with
  | ok v => exact yields_pure trivial
  | error e => exact yields_set.bind fun _ _ => yields_pure trivial

theorem onHost_yields {α : Type} {P : α → Prop} {p : ServerM α} (h : p.Yields P) : (onHost p).Yields P :=
  fun s => (h s).lift

theorem onOp_yields {α : Type} {P : α → Prop} {p : HostM α} (h : p.Yields P) : (onOp p).Yields P :=
  fun s => (h s).lift

theorem loadTime_yields {fname : Str} {time : FileTime} : (loadTime fname time).Yields fun _ => True := by
  refine sys_yields.bind fun st _ => ?_
  cases st <;> exact yields_pure trivial

namespace FileOp

variable {root : Str}

theorem access_yields {fpath : Str} {time : FileTime} : (access root fpath time).Yields fun _ => True := by
  refine host_yields.bind fun ok _ => ?_
  cases ok with
  | none => exact errno_yields fun _ => trivial
  | some _ =>
    refine (onHost_yields loadTime_yields).bind fun r _ => ?_
    show (if r.1 < 0 then _ else _ : HostM _).Yields _
    split
    · exact errno_yields fun _ => trivial
    · exact yields_pure trivial

theorem creat_yields {fpath : Str} : (creat root fpath).Yields fun _ => True := by
  refine host_yields.bind fun fd _ => ?_
  cases fd with
  | none => exact yields_get
  | some fd => exact host_yields.bind fun _ _ => yields_pure trivial

theorem stat_yields {fpath : Str} {stbuf : StatBuf} : (stat root fpath stbuf).Yields fun _ => True := by
  refine host_yields.bind fun st _ => ?_
  cases st with
  | none => exact errno_yields fun _ => trivial
  | some _ => exact yields_pure trivial

theorem statfs_yields {st : FsStat} : (statfs root st).Yields fun _ => True := by
  refine host_yields.bind fun st _ => ?_
  cases st with
  | none => exact errno_yields fun _ => trivial
  | some _ => exact yields_pure trivial

theorem plainly_yields {c : HostCall} : (plainly c).Yields fun _ => True := by
  refine host_yields.bind fun ok _ => ?_
  cases ok with
  | none => exact yields_get
  | some _ => exact yields_pure trivial

/-- The names are those of directory entries. -/
def Listed (names : List Str) : Prop := names.length < 2 ^ 64 ∧ ∀ name ∈ names, name.length < 256

theorem readdir_yields {fpath : Str} : (readdir root fpath).Yields fun r => Listed r.2 := by
  refine host_yields.bind fun dirs _ => ?_
  cases dirs with
  | none => exact errno_yields fun _ => ⟨by simp, by simp⟩
  | some dirs =>
    refine yields_set.bind fun _ _ => host_yields.bind fun listing _ => ?_
    have hend : ∀ {names : List Str}, Listed names → (do
        let _ ← host (.closedir dirs)
        pure (← Prog.get, names) : HostM (Int × List Str)).Yields fun r => Listed r.2 :=
      fun h => host_yields.bind fun _ _ => errno_yields fun _ => h
    cases listing with
    | none => exact hend ⟨by simp, by simp⟩
    | some listing =>
      obtain ⟨names, error, hcount⟩ := listing
      have hnames : Listed (names.map (·.1)) := by
        refine ⟨by simpa using hcount, fun name hn => ?_⟩
        obtain ⟨e, -, rfl⟩ := List.mem_map.mp hn
        exact e.2
      cases error with
      | none => exact hend hnames
      | some e => exact yields_set.bind fun _ _ => hend hnames

/-- The loop stays inside the buffer. -/
theorem readLoop_yields {fd size : Nat} : ∀ (rounds : Nat) {readSize : Int} {buf : Bytes}, buf.length ≤ size →
    (readLoop fd size rounds readSize buf).Yields fun r => r.2.length ≤ size
  | 0, _, _, h => yields_pure h
  | rounds + 1, readSize, buf, h => by
    rw [readLoop]
    split
    · refine host_yields.bind fun got _ => ?_
      cases got with
      | none => exact yields_pure h
      | some got =>
        show (if got.1.length ≤ 0 then _ else _ : HostM (Int × Bytes)).Yields _
        have hgot := got.2
        split
        · exact yields_pure h
        · exact readLoop_yields rounds (by simp; omega)
    · exact yields_pure h

theorem read_yields {fpath : Str} {offset : Int} {size : Nat} :
    (read root fpath offset size).Yields fun r => r.2.length ≤ size := by
  refine host_yields.bind fun fd _ => ?_
  cases fd with
  | none => exact errno_yields fun _ => Nat.zero_le _
  | some fd =>
    refine host_yields.bind fun pos _ => ?_
    show (if toInt (pos.getD (-1)) < 0 then _ else _ : HostM (Int × Bytes)).Yields _
    split
    · exact host_yields.bind fun _ _ => errno_yields fun _ => Nat.zero_le _
    · refine (readLoop_yields size (Nat.zero_le _)).bind fun r hr => (yields_assert hr).bind fun _ _ =>
        host_yields.bind fun _ _ => ?_
      show (if r.1 ≥ 0 then _ else _ : HostM (Int × Bytes)).Yields _
      split
      · exact yields_pure hr
      · exact errno_yields fun _ => hr

/-! ### Changes -/

theorem loadBefore_yields {filename : Str} {before after : FileTime} {rest : FileTime → ServerM ChangeResp}
    (h : ∀ before, (rest before).Yields fun _ => True) :
    (loadBefore filename before after rest).Yields fun _ => True := by
  refine loadTime_yields.bind fun r _ => ?_
  show (if r.1 < 0 then _ else _ : ServerM ChangeResp).Yields _
  split
  · exact errno_yields fun _ => trivial
  · exact h _

theorem loadAfter_yields {filename : Str} {before after : FileTime} :
    (loadAfter filename before after).Yields fun _ => True := by
  refine loadTime_yields.bind fun r _ => ?_
  show (if r.1 < 0 then _ else _ : ServerM ChangeResp).Yields _
  split
  · exact errno_yields fun _ => trivial
  · exact yields_pure trivial

theorem write_yields {fpath : Str} {offset : Int} {buf : Bytes} {before after : FileTime} :
    (write root fpath offset buf before after).Yields fun _ => True := by
  unfold write
  refine loadBefore_yields fun before => sys_yields.bind fun fd _ => ?_
  cases fd with
  | none => exact errno_yields fun _ => trivial
  | some fd =>
    refine sys_yields.bind fun pos _ => ?_
    show (if toInt (pos.getD (-1)) < 0 then _ else _ : ServerM ChangeResp).Yields _
    split
    · exact sys_yields.bind fun _ _ => errno_yields fun _ => trivial
    · refine sys_yields.bind fun n _ => sys_yields.bind fun _ _ => ?_
      cases n with
      | none => exact errno_yields fun _ => trivial
      | some n =>
        show (if n < buf.length then _ else _ : ServerM ChangeResp).Yields _
        split
        · exact yields_pure trivial
        · exact loadAfter_yields

theorem truncate_yields {fpath : Str} {offset : Int} {before after : FileTime} :
    (truncate root fpath offset before after).Yields fun _ => True := by
  unfold truncate
  refine loadBefore_yields fun before => sys_yields.bind fun ok _ => ?_
  cases ok with
  | none => exact errno_yields fun _ => trivial
  | some _ => exact loadAfter_yields

end FileOp

/-! ## What the responders return -/

/-- The response that goes with a request. -/
def MsgType.response : MsgType → MsgType
  | .access => .accessResp
  | .statfs => .statfsResp
  | .create => .createResp
  | .stat => .statResp
  | .readdir => .readdirResp
  | .read => .readResp
  | .write => .writeResp
  | .truncate => .truncateResp
  | .unlink => .unlinkResp
  | .rmdir => .rmdirResp
  | .mkdir => .mkdirResp
  | .rename => .renameResp
  | ty => ty

def Msg.id : Msg → Int32
  | .access id _ => id
  | .accessResp id _ _ => id
  | .statfs id => id
  | .statfsResp id _ _ => id
  | .create id _ => id
  | .createResp id _ => id
  | .stat id _ => id
  | .statResp id _ _ => id
  | .readdir id _ => id
  | .readdirResp id _ _ => id
  | .read id _ _ _ => id
  | .readResp id _ _ => id
  | .write id _ _ _ => id
  | .writeResp id _ _ _ => id
  | .truncate id _ _ => id
  | .truncateResp id _ _ _ => id
  | .unlink id _ => id
  | .unlinkResp id _ => id
  | .rmdir id _ => id
  | .rmdirResp id _ => id
  | .mkdir id _ _ => id
  | .mkdirResp id _ => id
  | .rename id _ _ _ => id
  | .renameResp id _ => id

/-- The response answers the request. -/
def Answers (req resp : Msg) : Prop := resp.type = req.type.response ∧ resp.id = req.id

/-- A request as the client issues it. -/
def Msg.Issued : Msg → Prop
  | .access .. | .statfs .. | .create .. | .stat .. | .readdir .. | .truncate .. | .unlink .. | .rmdir .. | .mkdir ..
  | .rename .. => True
  | .read _ _ _ size => 0 < size
  | .write _ _ _ data => data ≠ []
  | _ => False

/-- The bytes a request asks for. -/
def Msg.asksFor : Msg → Nat
  | .read _ _ _ size => size.toUInt64.toNat
  | _ => 0

section
variable {root : Str} {lim : Nat → Bool}

theorem respondError_yields {P : Msg → Prop} {make : Int32 → Int32 → Msg} {id : Int32} {p : HostM Int}
    (hp : p.Yields fun _ => True) (h : ∀ error, P (make id error)) : (respondError make id p).Yields P :=
  (onOp_yields hp).bind fun _ _ => yields_pure (h _)

theorem respondChange_yields {P : Msg → Prop} {make : Int32 → Int32 → FileTime → FileTime → Msg} {id : Int32}
    {p : FileTime → FileTime → ServerM ChangeResp} (hp : ∀ before after, (p before after).Yields fun _ => True)
    (h : ∀ error before after, P (make id error before after)) : (respondChange make id p).Yields P :=
  yields_ask.bind fun _ _ => (onOp_yields (onHost_yields (hp _ _))).bind fun _ _ => yields_pure (h _ _ _)

/-- **Every request gets its response**, and one that fits if what is asked for
fits. -/
theorem respond_yields {m : Msg} (h : m.Issued) (hlim : ∀ n, n < 256 → lim n) (hread : ∀ n ≤ m.asksFor, lim n) :
    (respond root m).Yields fun resp => Answers m resp ∧ resp.Fits lim := by
  cases m with
  | access id filename =>
    exact yields_ask.bind fun _ _ => (onOp_yields FileOp.access_yields).bind fun _ _ =>
      yields_pure ⟨⟨rfl, rfl⟩, trivial⟩
  | statfs id =>
    exact yields_ask.bind fun _ _ => (onOp_yields FileOp.statfs_yields).bind fun _ _ =>
      yields_pure ⟨⟨rfl, rfl⟩, trivial⟩
  | stat id filename =>
    exact yields_ask.bind fun _ _ => (onOp_yields FileOp.stat_yields).bind fun _ _ =>
      yields_pure ⟨⟨rfl, rfl⟩, trivial⟩
  | readdir id filename =>
    refine (onOp_yields FileOp.readdir_yields).bind fun r hr => yields_pure ⟨⟨rfl, rfl⟩, hr.1, fun name hn => ?_⟩
    have hlen := hr.2 name hn
    exact ⟨by omega, hlim _ hlen⟩
  | read id filename offset size =>
    refine (onOp_yields FileOp.read_yields).bind fun r hr => yields_pure ⟨⟨rfl, rfl⟩, ?_, hread _ hr⟩
    exact Nat.lt_of_le_of_lt hr size.toUInt64.toNat_lt
  | write id filename offset data =>
    exact (yields_assert (show data ≠ [] from h)).bind fun _ _ =>
      respondChange_yields (fun _ _ => FileOp.write_yields) fun _ _ _ => ⟨⟨rfl, rfl⟩, trivial⟩
  | truncate id filename offset =>
    exact respondChange_yields (fun _ _ => FileOp.truncate_yields) fun _ _ _ => ⟨⟨rfl, rfl⟩, trivial⟩
  | create id filename => exact respondError_yields FileOp.creat_yields fun _ => ⟨⟨rfl, rfl⟩, trivial⟩
  | unlink id filename => exact respondError_yields FileOp.plainly_yields fun _ => ⟨⟨rfl, rfl⟩, trivial⟩
  | rmdir id filename => exact respondError_yields FileOp.plainly_yields fun _ => ⟨⟨rfl, rfl⟩, trivial⟩
  | mkdir id filename mode => exact respondError_yields FileOp.plainly_yields fun _ => ⟨⟨rfl, rfl⟩, trivial⟩
  | rename id fromName toName flags => exact respondError_yields FileOp.plainly_yields fun _ => ⟨⟨rfl, rfl⟩, trivial⟩
  | _ => exact h.elim

end

end Nfs
