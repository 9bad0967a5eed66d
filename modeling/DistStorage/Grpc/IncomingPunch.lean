import DistStorage.Grpc.Listeners
import DistStorage.Grpc.Signaling

/-!
# Incoming hole punches

`RunSignaledIncomingHolePunch` punches in the thread of a `Send` call and injects the
endpoint into the active listener; the call is answered OK if that was done. The
listeners come and go between the calls.

No call comes that far: the outcome of a punch is always an error.
-/

namespace DistStorage

namespace Grpc

open Cpp Net Peer Proto Transition

/-- `RunSignaledIncomingHolePunch`: whether its status is OK, and the engine after it. -/
def ListenerEngine.runSignaledIncomingHolePunch (engine : ListenerEngine Bool)
    (answers : ℕ → Answer) (reservedFd : ℤ) (params : HolePunchParameters) :
    Option (Bool × ListenerEngine Bool) :=
  (signaledOutcome answers reservedFd params).map fun
    | some owned => (true, engine.acceptIncomingHolePunch owned)
    | none => (false, engine)

/-- The engine of a server that is signaled, and the statuses that `Send` answered. -/
structure SignaledServer where
  engine : ListenerEngine Bool
  statuses : List SendMessageStatus

/-- gRPC asks for a listener or destroys one, or a message comes with `Send`. -/
inductive SignaledEvent (K S : Type)
  | createListener
  | destroy (listener : ℕ)
  | send (host : Responder K S) (request : SignedMessage)

def SignaledEvent.listenerCall {K S : Type} : SignaledEvent K S → Option (ListenerCall Bool)
  | .createListener => some .createListener
  | .destroy listener => some (.destroy listener)
  | .send _ _ => none

namespace SignaledServer

variable {K S R : Type}

def start : SignaledServer where
  engine := .start
  statuses := []

/-- `MessageSendHandler::handle_request` on the engine. There is no step where an
exception leaves it or its behaviour is undefined. -/
def send (env : SignalingEnv K R) (s : SignaledServer) (host : Responder K S)
    (request : SignedMessage) : Option SignaledServer :=
  match host.handleRequest env request with
  | none => none
  | some ⟨status, none⟩ => some { s with statuses := s.statuses ++ [status] }
  | some ⟨status, some (fd, params)⟩ =>
      (s.engine.runSignaledIncomingHolePunch host.answers fd params.toHolePunchParameters).map
        fun (_, engine) => ⟨engine, s.statuses ++ [status]⟩

def step (env : SignalingEnv K R) (s : SignaledServer) :
    SignaledEvent K S → Option SignaledServer
  | .createListener => some { s with engine := s.engine.createListener }
  | .destroy listener =>
      (s.engine.step (.destroy listener)).map fun engine => { s with engine := engine }
  | .send host request => s.send env host request

/-- No call was answered OK, and the listeners never got a connection. -/
structure Unpunched (s : SignaledServer) : Prop where
  ok_notMem : .ok ∉ s.statuses
  injected_eq : s.engine.injected = []
  dropped_eq : s.engine.dropped = []

theorem runSignaledIncomingHolePunch_eq (engine : ListenerEngine Bool) (answers : ℕ → Answer)
    {reservedFd : ℤ} (hfd : 0 ≤ reservedFd) (params : HolePunchParameters) :
    engine.runSignaledIncomingHolePunch answers reservedFd params = some (false, engine) := by
  rw [ListenerEngine.runSignaledIncomingHolePunch, signaledOutcome_eq answers hfd]
  rfl

/-- An answer that is not OK, and a punch only with a socket that was reserved. -/
def Unanswered (reply : SendReply) : Prop :=
  reply.status ≠ .ok ∧ ∀ fd params, reply.punched = some (fd, params) → 0 ≤ fd

theorem punch_unanswered {host : Responder K S} {received : FullHolePunchParameters}
    {reply : SendReply} (h : host.punch received = some reply) : Unanswered reply := by
  have hfailed : some (⟨.failed, none⟩ : SendReply) = some reply → Unanswered reply := by
    intro heq
    obtain rfl := Option.some.inj heq
    exact ⟨by simp, fun _ _ hnone => by cases hnone⟩
  unfold Responder.punch at h
  split at h
  · exact hfailed h
  · exact hfailed h
  cases hbind : tcpv4BindRandomPort 12345 23456 host.ports 32 with
  | error e =>
      rw [hbind] at h
      cases h
  | ok reservation =>
      simp only [hbind] at h
      by_cases hvalid : reservation.valid = true
      · rw [hvalid, Bool.not_true, if_neg Bool.false_ne_true] at h
        have hfd := (tcpv4BindRandomPort_valid hbind hvalid).1
        split at h
        · exact hfailed h
        · rw [signaledOutcome_eq host.answers hfd] at h
          obtain rfl := Option.some.inj h
          refine ⟨by simp, fun fd params hpunched => ?_⟩
          obtain ⟨rfl, -⟩ := Prod.mk.inj (Option.some.inj hpunched)
          exact hfd
      · rw [Bool.not_eq_true] at hvalid
        rw [hvalid, Bool.not_false, if_pos rfl] at h
        exact hfailed h

theorem handleRequest_unanswered {env : SignalingEnv K R} {host : Responder K S}
    {request : SignedMessage} {reply : SendReply}
    (h : host.handleRequest env request = some reply) : Unanswered reply := by
  have hnone : ∀ status, status ≠ .ok → some (⟨status, none⟩ : SendReply) = some reply →
      Unanswered reply := by
    intro status hstatus heq
    obtain rfl := Option.some.inj heq
    exact ⟨hstatus, fun _ _ hnone => by cases hnone⟩
  unfold Responder.handleRequest at h
  split at h
  · cases h
  · exact hnone _ (by simp) h
  · exact hnone _ (by simp) h
  · exact hnone _ (by simp) h
  · split at h
    · exact punch_unanswered h
    · exact hnone _ (by simp) h

theorem send_eq_some {env : SignalingEnv K R} {s t : SignaledServer} {host : Responder K S}
    {request : SignedMessage} (h : s.send env host request = some t) :
    ∃ status, status ≠ .ok ∧ t = { s with statuses := s.statuses ++ [status] } := by
  unfold send at h
  cases hreply : host.handleRequest env request with
  | none =>
      rw [hreply] at h
      cases h
  | some reply =>
      obtain ⟨hstatus, hfd⟩ := handleRequest_unanswered hreply
      obtain ⟨status, punched⟩ := reply
      rw [hreply] at h
      cases punched with
      | none => exact ⟨status, hstatus, (Option.some.inj h).symm⟩
      | some asked =>
          obtain ⟨fd, params⟩ := asked
          simp only at h
          rw [runSignaledIncomingHolePunch_eq _ _ (hfd fd params rfl)] at h
          exact ⟨status, hstatus, (Option.some.inj h).symm⟩

/-- In every run of the server no `Send` call is answered OK, and the engine is left as
gRPC's own calls for listeners leave it: no connection reaches one. -/
theorem unpunched_of_run {env : SignalingEnv K R} {es : List (SignaledEvent K S)}
    {s : SignaledServer} (hrun : run (step env) start es = some s) :
    s.Unpunched ∧
      run ListenerEngine.step .start (es.filterMap SignaledEvent.listenerCall) =
        some s.engine := by
  refine run_invariant_of_events
    (I := fun (es : List (SignaledEvent K S)) s => s.Unpunched ∧
      run ListenerEngine.step .start (es.filterMap SignaledEvent.listenerCall) = some s.engine)
    (fun es s e t ⟨hs, hengine⟩ hstep => ?_) ⟨⟨List.not_mem_nil, rfl, rfl⟩, rfl⟩ hrun
  rw [List.filterMap_append, run_append, hengine]
  cases e with
  | createListener =>
      obtain rfl := Option.some.inj hstep
      exact ⟨⟨hs.ok_notMem, hs.injected_eq, hs.dropped_eq⟩, rfl⟩
  | destroy listener =>
      obtain ⟨engine, hdestroy, rfl⟩ := Option.map_eq_some_iff.mp hstep
      refine ⟨?_, ?_⟩
      · rw [ListenerEngine.step] at hdestroy
        split_ifs at hdestroy
        obtain rfl := Option.some.inj hdestroy
        exact ⟨hs.ok_notMem, hs.injected_eq, hs.dropped_eq⟩
      · change (run ListenerEngine.step s.engine [.destroy listener]) = some engine
        rw [run_cons, hdestroy]
        rfl
  | send w request =>
      obtain ⟨status, hstatus, rfl⟩ := send_eq_some hstep
      refine ⟨⟨?_, hs.injected_eq, hs.dropped_eq⟩, rfl⟩
      simpa [hs.ok_notMem] using hstatus.symm

/-- A message whose punch listens, opens its connector and then fails. -/
def sampleSend : SignaledEvent UInt8 UInt8 := .send sampleResponder sampleCall.request

theorem unpunched_of_run_sample :
    ∃ s, run (step sampleEnv) start [.createListener, sampleSend, .destroy 0, sampleSend] =
        some s ∧ s.statuses = [.failed, .failed] ∧ s.Unpunched := by
  have hrun : run (step sampleEnv) start [.createListener, sampleSend, .destroy 0, sampleSend] =
      some _ := rfl
  exact ⟨_, hrun, rfl, (unpunched_of_run hrun).1⟩

end SignaledServer

end Grpc

end DistStorage
