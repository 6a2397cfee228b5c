/-
From a program's callbacks to the server's system calls.

A program runs over the mounted file system: its callbacks are operations of
the client, their requests go through the buffers, the socket and the
server's loop to the responders, which make calls to a kernel. Whatever the
socket does with the bytes, what the program sees is a disk, and what is sent
is in the kernel's files (`Disk.Serve`).

The layers are put together by simulation. The disk is kept over a server
that answers in one step (`Callback.run_rule`), which is what the responders
make of the kernel (`Peer.Serve.answers`), one after the other
(`Session.Reach.exec`). That no request is a bad one comes with the first of
these and is what the other two need.
-/
import Nfs.Completion
import Nfs.DiskRules

namespace Nfs

open PlainFile Resume

-- As in `Nfs.Connection`.
seal toInt

/-- What a server holds, all of it sent. -/
def Disk.of (w : Server) : Disk := { files := w.content, unsent := fun _ => False }

section
variable {α : Type} {u : Act Unit Callback.Ret α} {T : Tree} {N cap : Nat} {cfg : Config} {w w' : Server}
  {k : Kernel} {errno : Int}

theorem Mounted.start {B : Nat} (hfit : ∀ f l, IsFile T f → w.content f = some l → l.length ≤ N) :
    Mounted T B N (.of w) Cache.empty.file w := by
  have hnone : ∀ f, Cache.empty.file f = none := fun _ => rfl
  refine ⟨fun f _ _ => ?_, fun f fc hf => ?_, hfit⟩
  · rw [hnone]
    rfl
  · rw [hnone] at hf
    cases hf

/-- The program sees a disk, and makes good requests only. -/
theorem mounted_rule (hB : 0 < cfg.blockSize) (hdvd : cfg.blockSize ∣ N) (hN : N < 2 ^ 31)
    (hfit : ∀ f l, IsFile T f → w.content f = some l → l.length ≤ N)
    (hu : u.Issues (Disk.Serve T) (Disk.Follows T cfg.blockSize N) (.of w)) :
    (mounted cfg u .new).Issues (Server.Answers True) (fun _ => Req.Good T) w ∧
      (mounted cfg u .new).wp (Env.solo (Server.Answers True)) (fun s w' o => ∃ x D, o = .ok x ∧
        Exec (Disk.Serve T) u (.of w) x.1 x.2 D ∧ Mounted T cfg.blockSize N D s.files w') w := by
  have hstart : Shown cfg T N (.of w) .new (some w) := ⟨Cache.empty_wf, w, rfl, .start hfit⟩
  have hwp := via_wp (h := Callback.run cfg) (fun hc h => Callback.run_rule hB hdvd hN _ hc h) hu hstart
  have hwhole : (mounted cfg u .new).wp (Env.solo (guard (Server.Answers True) fun _ => Req.Good T)) (fun s o r =>
      ∃ w' x D, o = some w' ∧ r = .ok x ∧ Exec (Disk.Serve T) u (.of w) x.1 x.2 D ∧
        Mounted T cfg.blockSize N D s.files w') (some w) := by
    refine Act.wp.mono hwp fun s o r hr => ?_
    obtain ⟨x, rfl, D, hx, -, w', rfl, hM⟩ := Returns.ok hr
    exact ⟨w', x, D, rfl, rfl, hx, hM⟩
  obtain ⟨hissues, hsame⟩ := hwhole.issues (fun r => ⟨w.readOnly r⟩) fun s r hQ => by
    obtain ⟨w', x, D, ho, -⟩ := hQ
    cases ho
  refine ⟨hissues, hsame.mono fun s w' r hQ => ?_⟩
  obtain ⟨w'', x, D, ho, hr, hx, hM⟩ := hQ
  cases ho
  exact ⟨x, D, hr, hx, hM⟩

/-- The same over the calls of a kernel, as far as the clients see it. -/
theorem mounted_peer (hp : (mounted cfg u .new).Issues (Server.Answers True) (fun _ => Req.Good T) k.view) :
    (mounted cfg u .new).Issues (Peer.Serve (Kernel.Host True)) (fun _ => Req.Good T) ⟨0, errno, k⟩ := by
  refine Act.Issues.pull (P := fun _ => Req.Good T) (fun v : Peer Kernel => v.host.view) hp ?_
  intro v r a v' hr hs
  exact (Peer.Serve.answers hr.proper hs).1

/-- A session in which the program has ended. -/
theorem mounted_ended {S : Session Kernel (NetFS × Outcome (Unit × Outcome α))} {t : Int32}
    {o : Outcome (NetFS × Outcome (Unit × Outcome α))}
    (hpeer : (mounted cfg u .new).Issues (Peer.Serve (Kernel.Host True)) (fun _ => Req.Good T) ⟨0, errno, k⟩)
    (hwp : (mounted cfg u .new).wp (Env.solo (Server.Answers True)) (fun s w' o => ∃ x D, o = .ok x ∧
      Exec (Disk.Serve T) u (.of k.view) x.1 x.2 D ∧ Mounted T cfg.blockSize N D s.files w') k.view)
    (h : (Session.start (mounted cfg u .new) errno k).Reach (Kernel.Host True) cap S) (hc : S.client = .done t o) :
    (∃ s x D, o = .ok (s, .ok x) ∧ Exec (Disk.Serve T) u (.of k.view) x.1 x.2 D ∧
      (∀ f, IsFile T f → ¬ D.unsent f → S.host.view.content f = D.files f) ∧ S.host.fds = k.fds) ∨
    o = .fault ∧ t.toInt = 2 ^ 31 - 1 := by
  obtain ⟨⟨s, o⟩, rfl⟩ | hspent := h.outcome (hpeer.mono Req.Good.sendable) hc
  swap
  · exact .inr hspent
  obtain ⟨e, hx⟩ := h.exec (hpeer.mono Req.Good.sendable) hc
  -- The same execution, with the requests known to be good.
  have hgood : Exec (fun (v : Peer Kernel) r a (v' : Peer Kernel) =>
      v.host.view.Answers True r a v'.host.view ∧ v'.host.fds = v.host.fds)
      (mounted cfg u .new) ⟨0, errno, k⟩ s o ⟨t, e, S.host⟩ :=
    hx.through id hpeer fun hr hs => Peer.Serve.answers hr.proper hs
  have hview : Exec (Server.Answers True) (mounted cfg u .new) k.view s o S.host.view :=
    hgood.map (fun v : Peer Kernel => v.host.view) And.left
  obtain ⟨x, D, rfl, hD, hM⟩ := hwp.exec hview
  exact .inl ⟨s, x, D, rfl, hD, fun f hf hu => (hM.held f hf trivial).sent hu,
    hgood.keeps (P := fun v => v.host.fds = k.fds) (fun hs hv => hs.2.trans hv) rfl⟩

end

/-! ## A program that overwrites a byte -/

/-- It sends what it has written, and reads the file. -/
def overwrite (f : Str) : UserM (Int × Bytes) := do
  let _ ← Prog.ask (Callback.write f [9] 1)
  let _ ← Prog.ask (Callback.flush f)
  Prog.ask (Callback.read f 4 0)

/-- The only directory is the root. -/
def onlyRoot : Tree := { dirs := fun x => x = [], mine := fun _ => True }

def mountSession (n : Nat) : Session Kernel (NetFS × Outcome (Unit × Outcome (Int × Bytes))) :=
  (Session.start (mounted (smallCache true) (overwrite [47, 102] ()) .new) 0 (Kernel.holding [47, 102] [1, 2, 3])).after
    Kernel.hostAnswer 64 n

theorem mountSession_reach (n : Nat) : (Session.start (mounted (smallCache true) (overwrite [47, 102] ()) .new) 0
    (Kernel.holding [47, 102] [1, 2, 3])).Reach (Kernel.Host True) 64 (mountSession n) :=
  Session.reach_after (fun hk h => Kernel.host_hostAnswer hk h) _ n Kernel.ticking_holding .start

theorem isFile_root {T : Tree} {b : UInt8} (h : T.dirs = fun x => x = []) (hb : b ≠ 47) : IsFile T [47, b] := by
  rw [IsFile, h]
  refine ⟨by simp, fun x hx => ?_⟩
  obtain ⟨hne, y, rfl | ⟨z, rfl⟩, hy⟩ := hx
  · exact absurd (hy.trans (List.append_nil x)).symm hne
  · cases x with
    | nil => rfl
    | cons a x =>
      cases x with
      | nil => simp [hb] at hy
      | cons b x => simp at hy

theorem overwrite_follows {T : Tree} {f : Str} {D : Disk} (hn : T.Named f) (hf : IsFile T f) :
    (overwrite f ()).Issues (Disk.Serve T) (Disk.Follows T 2 4) D := by
  refine ⟨⟨hn, hf, by decide, by decide⟩, fun _ _ _ => ?_⟩
  refine ⟨⟨hn, hf⟩, fun _ _ _ => ?_⟩
  exact ⟨⟨hn, hf, by decide⟩, fun _ _ _ => trivial⟩

/-! ## Result -/

end Nfs
