import DistStorage.Peer.Store

/-!
# One stream session

A session is the part of a `MessageStreamHandler` that its own functions read
and write, with the operations it has on the completion queue. `outstanding`
holds the operations that have not completed, `issued` all of them in order.
A function of a session also returns what it does that others can see, as a
list of notes; the server keeps these in its log. `issued` and the notes are
history that the code never reads.
-/

namespace DistStorage

namespace Message

open Proto

/-- The kind of completion that `process` expects next. -/
inductive PendingOp
  | read
  | write
  | finish
  deriving DecidableEq, Repr

inductive StreamOp
  | request
  | read
  | write
  | finish
  deriving DecidableEq, Repr

/-- The operation whose completion a pending kind stands for. -/
def PendingOp.op : PendingOp → StreamOp
  | .read => .read
  | .write => .write
  | .finish => .finish

inductive StreamConnectPhase
  | initial
  | accepted
  | streaming
  deriving DecidableEq, Repr

inductive StatusCode
  | ok
  | unauthenticated
  deriving DecidableEq, Repr

structure Status where
  code : StatusCode
  message : String
  deriving DecidableEq, Repr

def Status.ok : Status := { code := .ok, message := "" }

/-- The status of a stream whose message was rejected. -/
def Status.rejected : Status :=
  { code := .unauthenticated
    message := "stream message rejected (unknown sender or invalid signature)" }

/-- What happens at a session, in the order of the server's log. -/
inductive Note
  | received (msg : SignedMessage)
  | completed (op : StreamOp) (handledAs : PendingOp)
  | authenticated (msg : SignedMessage) (valid : Bool)
  | dispatched (msg : SignedMessage)
  | accepted (msg : SignedMessage)
  | written (msg : SignedMessage)
  | finished (status : Status)
  deriving DecidableEq, Repr

def Note.receivedMsg : Note → Option SignedMessage
  | .received msg => some msg
  | _ => none

def Note.authenticatedMsg : Note → Option SignedMessage
  | .authenticated msg _ => some msg
  | _ => none

def Note.dispatchedMsg : Note → Option SignedMessage
  | .dispatched msg => some msg
  | _ => none

def Note.acceptedMsg : Note → Option SignedMessage
  | .accepted msg => some msg
  | _ => none

def Note.writtenMsg : Note → Option SignedMessage
  | .written msg => some msg
  | _ => none

/-- Notes of what reaches a session from its stream. -/
def Note.isArrival : Note → Bool
  | .received _ | .completed _ _ => true
  | _ => false

/-- Notes of what a session puts on its stream. -/
def Note.isSending : Note → Bool
  | .written _ | .finished _ => true
  | _ => false

structure Session where
  streamConnectPhase : StreamConnectPhase
  pending : PendingOp
  selfRef : Bool
  outbound : List SignedMessage
  writePending : Bool
  closingAfterWrites : Bool
  sessionActive : Bool
  registeredPeerId : Bytes
  request : SignedMessage
  response : SignedMessage
  outstanding : List StreamOp
  issued : List StreamOp
  deriving DecidableEq, Repr

def Session.create : Session :=
  { streamConnectPhase := .initial, pending := .read, selfRef := false, outbound := []
    writePending := false, closingAfterWrites := false, sessionActive := false
    registeredPeerId := [], request := default, response := default, outstanding := []
    issued := [] }

def Session.issue (y : Session) (op : StreamOp) : Session :=
  { y with outstanding := y.outstanding ++ [op], issued := y.issued ++ [op] }

def Session.bind (y : Session) : Session := y.issue .request

def Session.read (y : Session) : Session := y.issue .read

def Session.write (y : Session) : Session × List Note :=
  (y.issue .write, [.written y.response])

def Session.finish (y : Session) (status : Status) : Session × List Note :=
  (y.issue .finish, [.finished status])

def Session.acceptNext (y : Session) : Session :=
  { y with streamConnectPhase := .accepted }.bind

/-- A new session after `attach_shared` and its first `process`. -/
def Session.prime : Session := { Session.create with selfRef := true }.acceptNext

def Session.onStreamRpcConnected (y : Session) : Session :=
  { y with sessionActive := true, pending := .read }.read

/-- The queue and write part of `enqueue_outgoing`; the front of the queue exists
as the message has just been added. -/
def Session.enqueueOutgoing (y : Session) (msg : SignedMessage) : Session × List Note :=
  let outbound := y.outbound ++ [msg]
  if !y.writePending then
    let (y, notes) := { y with
      outbound
      response := outbound.headD msg
      writePending := true
      pending := .write }.write
    (y, .accepted msg :: notes)
  else ({ y with outbound }, [.accepted msg])

theorem enqueueOutgoing_of_pending {y : Session} (h : y.writePending = true)
    (msg : SignedMessage) :
    y.enqueueOutgoing msg = ({ y with outbound := y.outbound ++ [msg] }, [.accepted msg]) := by
  simp [Session.enqueueOutgoing, h]

theorem enqueueOutgoing_of_idle {y : Session} (h : y.writePending = false)
    (msg : SignedMessage) :
    y.enqueueOutgoing msg =
      ({ y with
        outbound := y.outbound ++ [msg]
        response := (y.outbound ++ [msg]).headD msg
        writePending := true
        pending := .write }.issue .write,
      [.accepted msg, .written ((y.outbound ++ [msg]).headD msg)]) := by
  simp [Session.enqueueOutgoing, Session.write, Session.issue, h]

/-- The end of `handle_write_completion` when nothing is left to write. -/
def Session.finishIfClosing (y : Session) : Session × List Note :=
  let needFinish := y.closingAfterWrites
  let y := { y with outbound := [], writePending := false, closingAfterWrites := false }
  if needFinish then { y with pending := .finish }.finish .ok else (y, [])

theorem finishIfClosing_of_open {y : Session} (h : y.closingAfterWrites = false) :
    y.finishIfClosing =
      ({ y with outbound := [], writePending := false, closingAfterWrites := false }, []) := by
  simp [Session.finishIfClosing, h]

def Session.handleWriteCompletion (y : Session) (ok : Bool) : Option (Session × List Note) :=
  if !ok then some y.finishIfClosing
  else
    match y.outbound with
    | [] => none
    | [_] => some y.finishIfClosing
    | _ :: next :: rest =>
        some { y with
          outbound := next :: rest
          response := next
          pending := .write }.write

def Session.closeAfterReads (y : Session) : Session × List Note :=
  let y := { y with outbound := [], closingAfterWrites := y.writePending }
  if !y.writePending then { y with pending := .finish }.finish .ok else (y, [])

/-- `shutdown_with_status` after the session has been unregistered. -/
def Session.closeWithStatus (y : Session) (status : Status) : Session × List Note :=
  { y with
    outbound := []
    writePending := false
    closingAfterWrites := false
    pending := .finish }.finish status

def Session.readNext (y : Session) : Session := { y with pending := .read }.read

/-- The session when a completion arrives: the operation has left the queue and a
successful read has filled the request. -/
def Session.deliver (y : Session) (op : StreamOp) (ok : Bool) (msg : SignedMessage) : Session :=
  { y with
    outstanding := y.outstanding.erase op
    request := if op = .read ∧ ok then msg else y.request }

/-- What a completion leaves in the log before it is handled. -/
def Session.deliverNotes (y : Session) (op : StreamOp) (ok : Bool) (msg : SignedMessage) :
    List Note :=
  (if op = .read ∧ ok then [.received msg] else []) ++
    if y.streamConnectPhase = .streaming then [.completed op y.pending] else []

theorem enqueueOutgoing_notes {y : Session} {msg : SignedMessage} {n : Note}
    (hn : n ∈ (y.enqueueOutgoing msg).2) : n = .accepted msg ∨ n.isSending = true := by
  cases hwp : y.writePending with
  | true =>
      rw [enqueueOutgoing_of_pending hwp] at hn
      exact Or.inl (List.mem_singleton.mp hn)
  | false =>
      rw [enqueueOutgoing_of_idle hwp] at hn
      rcases List.mem_cons.mp hn with rfl | hn
      · exact Or.inl rfl
      · rw [List.mem_singleton.mp hn]
        exact Or.inr rfl

theorem finishIfClosing_notes {y : Session} {n : Note} (hn : n ∈ y.finishIfClosing.2) :
    n.isSending = true := by
  unfold Session.finishIfClosing at hn
  dsimp only at hn
  split at hn
  · rw [List.mem_singleton.mp hn]
    rfl
  · exact absurd hn List.not_mem_nil

theorem handleWriteCompletion_notes {y : Session} {ok : Bool} {r : Session × List Note}
    (h : y.handleWriteCompletion ok = some r) {n : Note} (hn : n ∈ r.2) :
    n.isSending = true := by
  unfold Session.handleWriteCompletion at h
  split at h
  · obtain rfl := Option.some.inj h
    exact finishIfClosing_notes hn
  · split at h
    · cases h
    · obtain rfl := Option.some.inj h
      exact finishIfClosing_notes hn
    · obtain rfl := Option.some.inj h
      rw [List.mem_singleton.mp hn]
      rfl

theorem closeAfterReads_notes {y : Session} {n : Note} (hn : n ∈ y.closeAfterReads.2) :
    n.isSending = true := by
  unfold Session.closeAfterReads at hn
  dsimp only at hn
  split at hn
  · rw [List.mem_singleton.mp hn]
    rfl
  · exact absurd hn List.not_mem_nil

theorem closeWithStatus_notes {y : Session} {status : Status} {n : Note}
    (hn : n ∈ (y.closeWithStatus status).2) : n.isSending = true := by
  rw [List.mem_singleton.mp hn]
  rfl

end Message

end DistStorage
