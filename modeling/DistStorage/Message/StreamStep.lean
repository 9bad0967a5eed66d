import DistStorage.Message.StreamServer

/-!
# What a step of the message service does

`Handled` lists the outcomes of a completion, and `Delivery` those of a message
that authenticated. Every later result about the service reads the two lists and
not the functions of the server.

`SessionStep` is the same seen from one session: its own completions, a message
that another session forwards to it, and its creation. Results about one session
at a time use it.
-/

namespace DistStorage

namespace Message

open Proto Peer

section Server

@[simp] theorem act_sessions (s : Server) (x : ℕ) (r : Session × List Note) :
    (s.act x r).sessions = Function.update s.sessions x r.1 := rfl

@[simp] theorem act_created (s : Server) (x : ℕ) (r : Session × List Note) :
    (s.act x r).created = s.created := rfl

@[simp] theorem act_byPeer (s : Server) (x : ℕ) (r : Session × List Note) :
    (s.act x r).byPeer = s.byPeer := rfl

@[simp] theorem act_log (s : Server) (x : ℕ) (r : Session × List Note) :
    (s.act x r).log = s.log ++ r.2.map (x, ·) := rfl

@[simp] theorem modify_sessions (s : Server) (x : ℕ) (f : Session → Session) :
    (s.modify x f).sessions = Function.update s.sessions x (f (s.sessions x)) := rfl

@[simp] theorem modify_created (s : Server) (x : ℕ) (f : Session → Session) :
    (s.modify x f).created = s.created := rfl

@[simp] theorem modify_byPeer (s : Server) (x : ℕ) (f : Session → Session) :
    (s.modify x f).byPeer = s.byPeer := rfl

@[simp] theorem modify_log (s : Server) (x : ℕ) (f : Session → Session) :
    (s.modify x f).log = s.log := List.append_nil _

@[simp] theorem note_sessions (s : Server) (x : ℕ) (n : Note) :
    (s.note x n).sessions = s.sessions :=
  Function.update_eq_self x s.sessions

@[simp] theorem note_created (s : Server) (x : ℕ) (n : Note) :
    (s.note x n).created = s.created := rfl

@[simp] theorem note_byPeer (s : Server) (x : ℕ) (n : Note) :
    (s.note x n).byPeer = s.byPeer := rfl

@[simp] theorem note_log (s : Server) (x : ℕ) (n : Note) :
    (s.note x n).log = s.log ++ [(x, n)] := rfl

@[simp] theorem registerSession_sessions (s : Server) (peerId : Bytes) (x : ℕ) :
    (s.registerSession peerId x).sessions = s.sessions := rfl

@[simp] theorem registerSession_created (s : Server) (peerId : Bytes) (x : ℕ) :
    (s.registerSession peerId x).created = s.created := rfl

@[simp] theorem registerSession_byPeer (s : Server) (peerId : Bytes) (x : ℕ) :
    (s.registerSession peerId x).byPeer = s.byPeer.insert peerId x := rfl

@[simp] theorem registerSession_log (s : Server) (peerId : Bytes) (x : ℕ) :
    (s.registerSession peerId x).log = s.log := rfl

@[simp] theorem unregisterSession_sessions (s : Server) (peerId : Bytes) :
    (s.unregisterSession peerId).sessions = s.sessions := rfl

@[simp] theorem unregisterSession_created (s : Server) (peerId : Bytes) :
    (s.unregisterSession peerId).created = s.created := rfl

@[simp] theorem unregisterSession_byPeer (s : Server) (peerId : Bytes) :
    (s.unregisterSession peerId).byPeer = s.byPeer.erase peerId := rfl

@[simp] theorem unregisterSession_log (s : Server) (peerId : Bytes) :
    (s.unregisterSession peerId).log = s.log := rfl

def Session.deactivated (y : Session) : Session :=
  { y with sessionActive := false, registeredPeerId := [] }

@[simp] theorem deactivate_sessions (s : Server) (x : ℕ) :
    (s.deactivate x).sessions = Function.update s.sessions x (s.sessions x).deactivated := by
  unfold Server.deactivate Server.unregisterIfRegistered Session.deactivated
  split
  · simp
  · next h =>
      have hnone : (s.sessions x).registeredPeerId = [] := by simpa using h
      simp [← hnone]

@[simp] theorem deactivate_created (s : Server) (x : ℕ) :
    (s.deactivate x).created = s.created := by
  unfold Server.deactivate Server.unregisterIfRegistered
  split <;> rfl

@[simp] theorem deactivate_log (s : Server) (x : ℕ) : (s.deactivate x).log = s.log := by
  unfold Server.deactivate Server.unregisterIfRegistered
  split <;> simp

/-- Closing a session erases the entry of the peer it has registered last. -/
theorem deactivate_byPeer (s : Server) (x : ℕ) :
    (s.deactivate x).byPeer =
      if (s.sessions x).registeredPeerId ≠ [] then
        s.byPeer.erase (s.sessions x).registeredPeerId
      else s.byPeer := by
  unfold Server.deactivate Server.unregisterIfRegistered
  by_cases h : (s.sessions x).registeredPeerId = [] <;> simp [h]

theorem history_act (s : Server) (x z : ℕ) (r : Session × List Note) :
    (s.act x r).history z = s.history z ++ if z = x then r.2 else [] := by
  unfold Server.history
  rw [act_log, List.filterMap_append, List.filterMap_map]
  by_cases h : z = x
  · subst h
    simp
  · simp [h, Ne.symm h]

theorem history_eq_of_log_eq {s t : Server} (h : t.log = s.log) (z : ℕ) :
    t.history z = s.history z := by
  unfold Server.history
  rw [h]

@[simp] theorem history_act_self (s : Server) (x : ℕ) (r : Session × List Note) :
    (s.act x r).history x = s.history x ++ r.2 := by
  rw [history_act, if_pos rfl]

theorem history_act_ne (s : Server) {x z : ℕ} (h : z ≠ x) (r : Session × List Note) :
    (s.act x r).history z = s.history z := by
  rw [history_act, if_neg h, List.append_nil]

end Server

section Outcome

variable {κ : Type*} (env : AuthEnv κ) (store : AuthStore κ)

def Server.admitSender (s : Server) (x : ℕ) : Server :=
  let req := (s.sessions x).request
  let s := (s.note x (.authenticated req true)).registerSession req.senderId x
  (s.modify x fun y => { y with registeredPeerId := req.senderId }).note x (.dispatched req)

/-- Where an admitted message goes. -/
inductive Delivery (s : Server) (x : ℕ) (req : SignedMessage) (data : MessageData) :
    Server → Prop
  | deliverLocal (hself : data.recipientId = [] ∨ store.isSelf data.recipientId = true) :
      Delivery s x req data (s.act x ((s.sessions x).enqueueOutgoing req))
  | forwarded (hne : data.recipientId ≠ []) (hself : store.isSelf data.recipientId = false)
      (z : ℕ) (hz : s.byPeer.lookup data.recipientId = some z)
      (hactive : (s.sessions z).sessionActive = true) :
      Delivery s x req data (s.act z ((s.sessions z).enqueueOutgoing req))
  | unknown (hz : s.byPeer.lookup data.recipientId = none) : Delivery s x req data s
  | stale (z : ℕ) (hz : s.byPeer.lookup data.recipientId = some z)
      (hactive : (s.sessions z).sessionActive = false) :
      Delivery s x req data (s.unregisterSession data.recipientId)

/-- The outcomes of a completion at a server that has delivered it. -/
inductive Handled (s : Server) (x : ℕ) (running : Bool) : Server → Prop
  | initial (hphase : (s.sessions x).streamConnectPhase = .initial) :
      Handled s x running (s.modify x Session.acceptNext)
  | connectFailed (hphase : (s.sessions x).streamConnectPhase = .accepted)
      (hrunning : running = false) : Handled s x running (s.onStreamConnectFailed x)
  | connected (hphase : (s.sessions x).streamConnectPhase = .accepted)
      (hrunning : running = true) :
      Handled s x running
        (((s.modify x fun y => { y with streamConnectPhase := .streaming
          }).cloneAcceptorForNextRequest true).modify x Session.onStreamRpcConnected)
  | readClosed (hphase : (s.sessions x).streamConnectPhase = .streaming)
      (hpending : (s.sessions x).pending = .read) (hrunning : running = false) :
      Handled s x running (s.beginShutdownAfterReadClosed x)
  | rejected (hphase : (s.sessions x).streamConnectPhase = .streaming)
      (hpending : (s.sessions x).pending = .read) (hrunning : running = true)
      (hauth : Authentic env store (s.sessions x).request = false) :
      Handled s x running ((s.note x (.authenticated (s.sessions x).request false)
        ).shutdownWithStatus x .rejected)
  | taken (hphase : (s.sessions x).streamConnectPhase = .streaming)
      (hpending : (s.sessions x).pending = .read) (hrunning : running = true)
      (data : MessageData)
      (hauth : authenticateSignedMessageData env store (s.sessions x).request =
        some (.ok data))
      (t : Server) (hdelivery : Delivery store (s.admitSender x) x (s.sessions x).request data t) :
      Handled s x running (t.modify x Session.readNext)
  | writeDone (hphase : (s.sessions x).streamConnectPhase = .streaming)
      (hpending : (s.sessions x).pending = .write) (r : Session × List Note)
      (hwrite : (s.sessions x).handleWriteCompletion running = some r) :
      Handled s x running (s.act x r)
  | finished (hphase : (s.sessions x).streamConnectPhase = .streaming)
      (hpending : (s.sessions x).pending = .finish) :
      Handled s x running (s.completeAfterStreamFinish x)

variable {env store}

/-- A message that authenticated is one of the four deliveries; its second check
by the router agrees with the first. -/
theorem dispatch_delivery (s : Server) (x : ℕ) {req : SignedMessage} (data : MessageData)
    (hauth : Verifies env store req) :
    ∃ t action, s.dispatchSignedMessageRecipient env store req data = some (t, action) ∧
      Delivery store s x req data
        (if action = .deliverLocal then t.act x ((t.sessions x).enqueueOutgoing req) else t) := by
  unfold Server.dispatchSignedMessageRecipient
  by_cases hne : data.recipientId = []
  · exact ⟨s, .deliverLocal, by simp [hne], by simpa using .deliverLocal (Or.inl hne)⟩
  cases hself : store.isSelf data.recipientId with
  | true =>
      exact ⟨s, .deliverLocal, by simp [hne], by simpa using .deliverLocal (Or.inr hself)⟩
  | false =>
      rw [if_neg hne, if_neg (by simp)]
      unfold Server.routeToRecipient
      rw [hauth.has, AuthStore.validateMessage_eq_true.mpr hauth]
      rcases hz : s.byPeer.lookup data.recipientId with - | z
      · exact ⟨s, .noRouteContinue, by simp, by simpa using .unknown hz⟩
      · cases hactive : (s.sessions z).sessionActive with
        | false =>
            exact ⟨s.unregisterSession data.recipientId, .noRouteContinue, by simp [hactive],
              by simpa using .stale z hz hactive⟩
        | true =>
            exact ⟨s.act z ((s.sessions z).enqueueOutgoing req), .forwarded, by simp [hactive],
              by simpa using .forwarded hne hself z hz hactive⟩

theorem handled_read {s t : Server} {x : ℕ} {running : Bool}
    (hphase : (s.sessions x).streamConnectPhase = .streaming)
    (hpending : (s.sessions x).pending = .read)
    (h : s.handleReadCompletion env store x running = some t) :
    Handled env store s x running t := by
  unfold Server.handleReadCompletion at h
  cases running with
  | false =>
      obtain rfl : s.beginShutdownAfterReadClosed x = t := by simpa using h
      exact .readClosed hphase hpending rfl
  | true =>
      unfold Server.handleIncomingMessage at h
      rcases hauth : authenticateSignedMessageData env store (s.sessions x).request with
        - | (data | - | - | -)
      · simp [hauth] at h
      · have hverifies := (authenticate_eq_ok.mp hauth).1
        obtain ⟨u, action, hdispatch, hdelivery⟩ :=
          dispatch_delivery (s.admitSender x) x data hverifies
        have hu : (s.admitSender x).dispatchSignedMessageRecipient env store
            (s.sessions x).request data = some (u, action) := hdispatch
        unfold Server.admitSender at hu
        simp only [hauth, Option.bind_some, hu, Option.map_some, Bool.not_true,
          Bool.false_eq_true, if_false, Option.some_inj] at h
        cases action <;> subst h <;> exact .taken hphase hpending rfl data hauth _ hdelivery
      all_goals
        have hfalse : Authentic env store (s.sessions x).request = false := by
          simp [Authentic, hauth]
        simp only [hauth, Option.bind_some, Option.map_some, Bool.not_true, Bool.not_false,
          Bool.false_eq_true, if_false, if_true, Option.some_inj] at h
        subst h
        exact .rejected hphase hpending rfl hfalse

theorem process_handled {s t : Server} {x : ℕ} {running : Bool}
    (h : s.process env store x running = some t) : Handled env store s x running t := by
  unfold Server.process Server.handleStreamConnect at h
  cases hphase : (s.sessions x).streamConnectPhase with
  | initial =>
      obtain rfl : s.modify x Session.acceptNext = t := by simpa [hphase] using h
      exact .initial hphase
  | accepted =>
      cases running with
      | false =>
          obtain rfl : s.onStreamConnectFailed x = t := by simpa [hphase] using h
          exact .connectFailed hphase rfl
      | true =>
          simp only [hphase, ne_eq, reduceCtorEq, not_false_eq_true, if_true, Bool.not_true,
            Bool.false_eq_true, if_false, Option.some_inj] at h
          subst h
          exact .connected hphase rfl
  | streaming =>
      simp only [hphase, ne_eq, not_true_eq_false, if_false] at h
      cases hpending : (s.sessions x).pending with
      | read =>
          simp only [hpending] at h
          exact handled_read hphase hpending h
      | write =>
          simp only [hpending] at h
          obtain ⟨r, hr, rfl⟩ := Option.map_eq_some_iff.mp h
          exact .writeDone hphase hpending r hr
      | finish =>
          simp only [hpending, Option.some_inj] at h
          subst h
          exact .finished hphase hpending

/-- The server at the delivery of a completion. -/
def Server.deliver (s : Server) (x : ℕ) (op : StreamOp) (ok : Bool) (msg : SignedMessage) :
    Server :=
  s.act x ((s.sessions x).deliver op ok msg, (s.sessions x).deliverNotes op ok msg)

theorem step_complete {s t : Server} {x : ℕ} {op : StreamOp} {ok : Bool} {msg : SignedMessage}
    (h : s.step env store (.complete x op ok msg) = some t) :
    s.alive x = true ∧ op ∈ (s.sessions x).outstanding ∧
      Handled env store (s.deliver x op ok msg) x ok t := by
  unfold Server.step at h
  simp only at h
  split at h
  · next hready => exact ⟨hready.1, hready.2, process_handled h⟩
  · cases h

end Outcome

end Message

end DistStorage
