import DistStorage.Message.Session

/-!
# The message service

The server runs the stream sessions on one completion queue, so the completion
of an operation and everything its handler does are one step. Sessions are
numbered by creation; `created` is the number of the next one. The router's map
`by_peer_` holds session numbers, and a session is destroyed once neither its own
reference nor an entry of that map holds it. The store of known peers does not
change, and `router_` and `auth_` are always set, as the service sets them.

A step is partial: there is none for an operation that is not outstanding, for a
completion whose handler has been destroyed, and where the source throws out of
the server loop or takes the front of an empty queue.
-/

namespace DistStorage

namespace Message

open Proto Peer

structure Server where
  sessions : ℕ → Session
  created : ℕ
  byPeer : AList fun _ : Bytes => ℕ
  log : List (ℕ × Note)

/-- A session takes a new state and leaves its notes in the log. -/
def Server.act (s : Server) (x : ℕ) (r : Session × List Note) : Server :=
  { s with
    sessions := Function.update s.sessions x r.1
    log := s.log ++ r.2.map (x, ·) }

def Server.modify (s : Server) (x : ℕ) (f : Session → Session) : Server :=
  s.act x (f (s.sessions x), [])

def Server.note (s : Server) (x : ℕ) (n : Note) : Server := s.act x (s.sessions x, [n])

/-- The outcome of a completed read after its message has been authenticated. -/
inductive RecipientDispatchAction
  | deliverLocal
  | forwarded
  | noRouteContinue
  deriving DecidableEq, Repr

section Router

def Server.registerSession (s : Server) (peerId : Bytes) (x : ℕ) : Server :=
  { s with byPeer := s.byPeer.insert peerId x }

def Server.unregisterSession (s : Server) (peerId : Bytes) : Server :=
  { s with byPeer := s.byPeer.erase peerId }

def Server.getChannel (s : Server) (peerId : Bytes) : Server × Option ℕ :=
  match s.byPeer.lookup peerId with
  | none => (s, none)
  | some x =>
      if !(s.sessions x).sessionActive then (s.unregisterSession peerId, none)
      else (s, some x)

variable {κ : Type*} (env : AuthEnv κ) (store : AuthStore κ)

def Server.routeToRecipient (s : Server) (recipientId : Bytes) (msg : SignedMessage) :
    Option (Server × Bool) :=
  if !store.has msg.senderId then some (s, false)
  else (store.validateMessage env msg).map fun valid =>
    if !valid then (s, false)
    else
      match s.byPeer.lookup recipientId with
      | none => (s, false)
      | some x =>
          if !(s.sessions x).sessionActive then (s.unregisterSession recipientId, false)
          else (s.act x ((s.sessions x).enqueueOutgoing msg), true)

def Server.dispatchSignedMessageRecipient (s : Server) (msg : SignedMessage)
    (data : MessageData) : Option (Server × RecipientDispatchAction) :=
  if data.recipientId = [] then some (s, .deliverLocal)
  else if store.isSelf data.recipientId then some (s, .deliverLocal)
  else (s.routeToRecipient env store data.recipientId msg).map fun (s, routed) =>
    (s, if routed then .forwarded else .noRouteContinue)

end Router

section Handlers

def Server.unregisterIfRegistered (s : Server) (x : ℕ) : Server :=
  if (s.sessions x).registeredPeerId ≠ [] then
    (s.unregisterSession (s.sessions x).registeredPeerId).modify x fun y =>
      { y with registeredPeerId := [] }
  else s

/-- `session_active_ = false` and `unregister_if_registered`, the first lines of
every way to close a session. -/
def Server.deactivate (s : Server) (x : ℕ) : Server :=
  (s.modify x fun y => { y with sessionActive := false }).unregisterIfRegistered x

def Server.beginShutdownAfterReadClosed (s : Server) (x : ℕ) : Server :=
  let s := s.deactivate x
  s.act x (s.sessions x).closeAfterReads

def Server.shutdownWithStatus (s : Server) (x : ℕ) (status : Status) : Server :=
  let s := s.deactivate x
  s.act x ((s.sessions x).closeWithStatus status)

/-- `complete_after_stream_finish`, and `on_stream_connect_failed` does the same. -/
def Server.completeAfterStreamFinish (s : Server) (x : ℕ) : Server :=
  (s.deactivate x).modify x fun y => { y with selfRef := false }

def Server.onStreamConnectFailed (s : Server) (x : ℕ) : Server :=
  (s.deactivate x).modify x fun y => { y with selfRef := false }

/-- `clone_acceptor_for_next_request`: while the server runs, prime a new session. -/
def Server.cloneAcceptorForNextRequest (s : Server) (running : Bool) : Server :=
  if running then
    { s.act s.created (Session.prime, []) with created := s.created + 1 }
  else s

def Server.handleStreamConnect (s : Server) (x : ℕ) (running : Bool) : Server :=
  match (s.sessions x).streamConnectPhase with
  | .initial => s.modify x Session.acceptNext
  | .accepted =>
      if !running then s.onStreamConnectFailed x
      else
        let s := s.modify x fun y => { y with streamConnectPhase := .streaming }
        (s.cloneAcceptorForNextRequest running).modify x Session.onStreamRpcConnected
  | .streaming => s

variable {κ : Type*} (env : AuthEnv κ) (store : AuthStore κ)

def Server.handleIncomingMessage (s : Server) (x : ℕ) : Option (Server × Bool) :=
  let req := (s.sessions x).request
  (authenticateSignedMessageData env store req).bind fun
    | .ok data =>
        let s := s.note x (.authenticated req true)
        let s := s.registerSession req.senderId x
        let s := s.modify x fun y => { y with registeredPeerId := req.senderId }
        let s := s.note x (.dispatched req)
        (s.dispatchSignedMessageRecipient env store req data).map fun
          | (s, .deliverLocal) => (s.act x ((s.sessions x).enqueueOutgoing req), true)
          | (s, .forwarded) => (s, true)
          | (s, .noRouteContinue) => (s, true)
    | _ => some (s.note x (.authenticated req false), false)

def Server.handleReadCompletion (s : Server) (x : ℕ) (ok : Bool) : Option Server :=
  if !ok then some (s.beginShutdownAfterReadClosed x)
  else (s.handleIncomingMessage env store x).map fun (s, taken) =>
    if !taken then s.shutdownWithStatus x .rejected
    else s.modify x Session.readNext

def Server.handleWriteCompletion (s : Server) (x : ℕ) (ok : Bool) : Option Server :=
  ((s.sessions x).handleWriteCompletion ok).map (s.act x)

def Server.process (s : Server) (x : ℕ) (running : Bool) : Option Server :=
  if (s.sessions x).streamConnectPhase ≠ .streaming then
    some (s.handleStreamConnect x running)
  else
    match (s.sessions x).pending with
    | .read => s.handleReadCompletion env store x running
    | .write => s.handleWriteCompletion x running
    | .finish => some (s.completeAfterStreamFinish x)

def Server.alive (s : Server) (x : ℕ) : Bool :=
  (s.sessions x).selfRef || s.byPeer.entries.any fun entry => entry.2 = x

/-- What can happen: an operation of a session completes, where `msg` is what a
successful read brings, or someone asks the router for a channel. -/
inductive Event
  | complete (x : ℕ) (op : StreamOp) (ok : Bool) (msg : SignedMessage)
  | getChannel (peerId : Bytes)
  deriving DecidableEq, Repr

def Server.step (s : Server) : Event → Option Server
  | .complete x op ok msg =>
      let y := s.sessions x
      if s.alive x ∧ op ∈ y.outstanding then
        (s.act x (y.deliver op ok msg, y.deliverNotes op ok msg)).process env store x ok
      else none
  | .getChannel peerId => some (s.getChannel peerId).1

end Handlers

/-- The server after `start_message_stream_acceptor`. -/
def Server.start : Server :=
  { sessions := Function.update (fun _ => Session.create) 0 Session.prime
    created := 1
    byPeer := ∅
    log := [] }

def Server.history (s : Server) (x : ℕ) : List Note :=
  s.log.filterMap fun entry => if entry.1 = x then some entry.2 else none

end Message

end DistStorage
