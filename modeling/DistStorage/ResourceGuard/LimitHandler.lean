import DistStorage.Cpp.OrderedMap
import DistStorage.Message.Session
import DistStorage.Transition.Run

/-!
# The resource guard

A `LimitHandler` serves one stream of billing messages: it reads a message,
books it in `res_request_`, acknowledges it and reads on, until a message, or an
operation that fails, ends the stream. The handlers run on one completion queue
and are numbered by creation; a completion and everything its handler does are
one step of the server.

An amount is of any type with a zero and an addition, and the items of a bill
are listed in the order in which the map of the message is iterated. `log` is
history that the code never reads, as is the list of the destroyed handlers.
-/

namespace DistStorage

namespace ResourceGuard

open Message (StreamConnectPhase PendingOp StreamOp)
open Transition

inductive OperationResult
  | OK
  | FAILED
  | CANCELLED
  | TIMEOUT
  | OVERLOAD
  | other (value : ℤ)
  deriving DecidableEq, Repr

/-- The items of a bill, no key twice. -/
structure BillItems (A : Type*) where
  entries : List (Bytes × A)
  nodup : (entries.map Prod.fst).Nodup

inductive ResourceRequestUnion (A : Type*)
  | notSet
  | resourceRequest
  | billAppend (billItems : BillItems A)
  | billOverwrite (billItems : BillItems A)
  | resourceFinish (result : OperationResult)

/-- What happens on a stream, in order. -/
inductive Note (A : Type*)
  | issuedRead
  | received (message : ResourceRequestUnion A)
  | issuedWrite (result : OperationResult)
  | issuedFinish

structure LimitHandler (A : Type*) where
  streamConnectPhase : StreamConnectPhase
  pending : PendingOp
  resRequest : Cpp.OrderedMap Bytes A
  request : ResourceRequestUnion A
  response : OperationResult
  selfArmed : Bool
  outstanding : List StreamOp
  log : List (Note A)

inductive ProcessResult
  | ackWrite
  | streamFinished
  deriving DecidableEq, Repr

namespace LimitHandler

variable {A : Type*}

def create : LimitHandler A where
  streamConnectPhase := .initial
  pending := .read
  resRequest := ∅
  request := .notSet
  response := .OK
  selfArmed := true
  outstanding := []
  log := []

def issue (h : LimitHandler A) (op : StreamOp) : LimitHandler A :=
  { h with outstanding := h.outstanding ++ [op] }

def note (h : LimitHandler A) (n : Note A) : LimitHandler A := { h with log := h.log ++ [n] }

def bind (h : LimitHandler A) : LimitHandler A := h.issue .request

def read (h : LimitHandler A) : LimitHandler A := (h.issue .read).note .issuedRead

def write (h : LimitHandler A) : LimitHandler A := (h.issue .write).note (.issuedWrite h.response)

def finish (h : LimitHandler A) : LimitHandler A := (h.issue .finish).note .issuedFinish

def acceptNext (h : LimitHandler A) : LimitHandler A :=
  { h with streamConnectPhase := .accepted }.bind

def onStreamRpcConnected (h : LimitHandler A) : LimitHandler A := { h with pending := .read }.read

section Process

variable [Zero A] [Add A]

/-- The loop over the items to append; a missing key starts at zero. -/
def appendItems (resRequest : Cpp.OrderedMap Bytes A) (items : List (Bytes × A)) :
    Cpp.OrderedMap Bytes A :=
  items.foldl (fun resRequest v =>
    resRequest.insert v.1 ((resRequest.find v.1).getD 0 + v.2)) resRequest

omit [Zero A] [Add A] in
def overwriteItems (items : List (Bytes × A)) : Cpp.OrderedMap Bytes A :=
  items.foldl (fun resRequest v => resRequest.insert v.1 v.2) ∅

def processIncomingMessage (h : LimitHandler A) : LimitHandler A × ProcessResult :=
  match h.request with
  | .resourceRequest => ({ h with response := .OK }, .ackWrite)
  | .billAppend billItems =>
      ({ h with
        resRequest := appendItems h.resRequest billItems.entries
        response := .OK }, .ackWrite)
  | .billOverwrite billItems =>
      ({ h with
        resRequest := overwriteItems billItems.entries
        response := .OK }, .ackWrite)
  | .resourceFinish _ =>
      ({ h with request := .notSet, pending := .finish }.finish, .streamFinished)
  | .notSet => ({ h with response := .OK }, .ackWrite)

def handleReadCompletion (h : LimitHandler A) (ok : Bool) : LimitHandler A :=
  if !ok then { h with pending := .finish }.finish
  else
    match h.processIncomingMessage with
    | (h, .streamFinished) => h
    | (h, .ackWrite) => { h with request := .notSet, pending := .write }.write

omit [Zero A] [Add A] in
def handleWriteCompletion (h : LimitHandler A) (ok : Bool) : LimitHandler A :=
  if !ok then { h with pending := .finish }.finish
  else { h with pending := .read }.read

/-- The handler when a completion arrives: the operation has left the queue and a
successful read has filled the request. -/
def deliver (h : LimitHandler A) (op : StreamOp) (ok : Bool) (message : ResourceRequestUnion A) :
    LimitHandler A :=
  { h with
    outstanding := h.outstanding.erase op
    request := if op = .read ∧ ok then message else h.request
    log := h.log ++ if op = .read ∧ ok then [.received message] else [] }

end Process

end LimitHandler

/-- The handlers, those that wait for their destroy, and those that had it. -/
structure LimitServer (A : Type*) where
  handlers : List (LimitHandler A)
  deferred : List ℕ
  destroyed : List ℕ

/-- A completion of an operation of a handler. A successful read brings its
message. -/
structure LimitCompletion (A : Type*) where
  handler : ℕ
  operation : StreamOp
  ok : Bool
  message : ResourceRequestUnion A

namespace LimitServer

variable {A : Type*}

def set (s : LimitServer A) (i : ℕ) (h : LimitHandler A) : LimitServer A :=
  { s with handlers := s.handlers.set i h }

def runDeferredHandlerDestroys (s : LimitServer A) : LimitServer A :=
  { s with deferred := [], destroyed := s.destroyed ++ s.deferred }

/-- `grpc_prime_async_handler` and, while the server runs,
`grpc_async_clone_acceptor`. -/
def primeAsyncHandler (s : LimitServer A) : LimitServer A :=
  { s with handlers := s.handlers ++
      [LimitHandler.create.acceptNext] }.runDeferredHandlerDestroys

/-- `grpc_defer_handler_destroy` of the handler that `self_` owns. -/
def deferHandlerDestroy (s : LimitServer A) (i : ℕ) (h : LimitHandler A) : LimitServer A :=
  { s.set i { h with selfArmed := false } with
    deferred := if h.selfArmed then s.deferred ++ [i] else s.deferred }

def handleStreamConnect (s : LimitServer A) (i : ℕ) (h : LimitHandler A) (running : Bool) :
    LimitServer A :=
  match h.streamConnectPhase with
  | .initial => s.set i h.acceptNext
  | .accepted =>
      if !running then s.deferHandlerDestroy i h
      else
        let h := { h with streamConnectPhase := .streaming }
        (s.set i h).primeAsyncHandler.set i h.onStreamRpcConnected
  | .streaming => s

section Step

variable [Zero A] [Add A]

/-- `LimitHandler::process` for the handler number `i`. -/
def process (s : LimitServer A) (i : ℕ) (h : LimitHandler A) (running : Bool) : LimitServer A :=
  if h.streamConnectPhase ≠ .streaming then s.handleStreamConnect i h running
  else
    match h.pending with
    | .read => s.set i (h.handleReadCompletion running)
    | .write => s.set i (h.handleWriteCompletion running)
    | .finish => s.deferHandlerDestroy i h

/-- One round of the server loop: the completion of an outstanding operation of a
handler that is still there. -/
def step (s : LimitServer A) (e : LimitCompletion A) : Option (LimitServer A) :=
  s.handlers[e.handler]?.bind fun h =>
    if e.handler ∈ s.destroyed ∨ e.operation ∉ h.outstanding then none
    else
      some (s.process e.handler (h.deliver e.operation e.ok e.message)
        e.ok).runDeferredHandlerDestroys

end Step

/-- The server after `main` has primed its handler. -/
def start : LimitServer A := (LimitServer.mk [] [] []).primeAsyncHandler

end LimitServer

end ResourceGuard

end DistStorage
