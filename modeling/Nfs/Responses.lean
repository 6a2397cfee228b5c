/-
Runs of one client, with the responses it receives.

Any response may come, so the other clients and the server are left out: what
they can make a client see is a response. The client notes the responses to
its requests as the cache notes the replies of its callbacks, and since a
reply is made from one response, what is known of the cache with its replies
holds of the client with its responses (`wp_logged`).
-/
import Nfs.Representation
import Nfs.System

namespace Nfs

open PlainFile Resume

/-- The responses to a client's requests, the last one first. -/
abbrev Responses := List ((r : Req) × r.Resp)

/-- Any response, which is noted. -/
def logged : Service Responses where
  serve w r a w' := w' = ⟨r, a⟩ :: w
  rely := Eq
  seen _ _ := True

/-- The reply that a callback makes of a response. -/
def MadeOf (p : (r : Call) × r.Ans) (q : (r : Req) × r.Resp) : Prop :=
  ∃ resp : p.1.req.Resp, q = ⟨p.1.req, resp⟩ ∧ p.2 = p.1.ans resp

section
variable {α : Type} {Q : Cache → Replies → Outcome α → Prop} {p : Act Cache Call.Ans α} {w : Responses}

theorem wp_logged_from {l : Replies} (h : p.wp (Env.solo Noted) Q l) : p.wp logged.back (fun c w' o =>
    ∃ rs ws, Q c (rs ++ l) o ∧ List.Forall₂ MadeOf rs ws ∧ w' = ws ++ w) w := by
  induction p generalizing l w with
  | done c o => exact ⟨[], [], h, .nil, rfl⟩
  | ask c r k ih =>
    refine ⟨trivial, ?_⟩
    intro w₁ hr a w₂ hs
    cases hr
    obtain ⟨resp, hw₂, ha⟩ := hs
    refine (ih a (w := w₂) (h.2 l rfl a _ rfl)).mono fun c' w' o hQ => ?_
    obtain ⟨rs, ws, hQ, hall, rfl⟩ := hQ
    refine ⟨rs ++ [⟨r, a⟩], ws ++ [⟨r.req, resp⟩], ?_, ?_, ?_⟩
    · rwa [List.append_assoc]
    · exact List.rel_append hall (.cons ⟨resp, rfl, ha⟩ .nil)
    · rw [List.append_assoc, hw₂]
      rfl

/-- A rule for the cache with its replies, in a client. -/
theorem wp_logged (h : p.wp (Env.solo Noted) Q []) : p.wp logged.back (fun c w' o =>
    ∃ rs ws, Q c rs o ∧ List.Forall₂ MadeOf rs ws ∧ w' = ws ++ w) w := by
  refine (wp_logged_from h).mono fun c w' o hQ => ?_
  obtain ⟨rs, ws, hQ, hall, hw'⟩ := hQ
  exact ⟨rs, ws, by rwa [List.append_nil] at hQ, hall, hw'⟩

theorem NetFS.onCache_logged {p : CacheM α} {s : NetFS} (h : (p s.cache).wp (Env.solo Noted) Q []) :
    ((NetFS.onCache p) s).wp logged.net (fun s' w' o => ∃ c rs ws, s' = { s with cache := c } ∧ Q c rs o ∧
      List.Forall₂ MadeOf rs ws ∧ w' = ws ++ w) w := by
  refine NetFS.onCache_wp.mpr ((wp_logged h).mono fun c w' o hQ => ?_)
  obtain ⟨rs, ws, hQ⟩ := hQ
  exact ⟨c, rs, ws, rfl, hQ⟩

end

/-! ## Runs -/

/-- A run from a client that has just connected, with responses as `allowed`
says: the operations with the states they ended in, the last one first, and
the state the client has come to. -/
inductive NetRun (cfg : Config) (allowed : Responses → Prop) : List (Op × NetFS) → NetFS → Prop
  | start : NetRun cfg allowed [] .new
  | call : NetRun cfg allowed hist s → Exec logged.serve (Op.run cfg op s) [] s' o w → allowed w →
      NetRun cfg allowed ((op, s') :: hist) s'

variable {cfg : Config} {allowed : Responses → Prop} {hist : List (Op × NetFS)} {s s' : NetFS} {op : Op}
  {o : Outcome op.Ret} {w : Responses}

/-- What an operation does over a server that lets nothing be changed, with
the responses noted. -/
def notedRun (op : Op) (cfg : Config) (s : NetFS) (srv : Server) : NetFS × Outcome op.Ret × Responses :=
  (op.run cfg s).interp (fun w r => (srv.readOnly r, ⟨r, srv.readOnly r⟩ :: w)) []

theorem exec_notedRun (op : Op) (cfg : Config) (s : NetFS) (srv : Server) {o : Outcome op.Ret}
    (ho : (notedRun op cfg s srv).2.1 = o) :
    Exec logged.serve (op.run cfg s) [] (notedRun op cfg s srv).1 o (notedRun op cfg s srv).2.2 :=
  exec_answers (fun _ _ => rfl) _ _ ho

theorem Op.exec_wf (hB : 0 < cfg.blockSize) (h : s.cache.Wf cfg.blockSize)
    (hx : Exec logged.serve (op.run cfg s) [] s' o w) : o ≠ .fault ∧ s'.cache.Wf cfg.blockSize := by
  have hx' : Exec anyAnswer.serve (op.run cfg s) () s' o () := hx.map (fun _ => ()) fun _ => trivial
  exact (op.run_wf hB h).exec_in (fun _ => trivial) id hx'

theorem NetRun.wf (hB : 0 < cfg.blockSize) (h : NetRun cfg allowed hist s) : s.cache.Wf cfg.blockSize := by
  induction h with
  | start => exact Cache.empty_wf
  | call _ hx _ ih => exact (Op.exec_wf hB ih hx).2

end Nfs
