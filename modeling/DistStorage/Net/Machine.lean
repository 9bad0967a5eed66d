import DistStorage.Cpp.Action
import DistStorage.Cpp.Bytes

/-!
# Descriptors and their owners

The state of a run of the hole punch: the descriptors that the run received or
created and did not close yet, the variables that own them, and the SSL object.
The kernel and the peers answer the calls in turn. A call on a descriptor that
is not open fails; that, and a call on a descriptor that no variable owns, is
recorded as a fault.

Descriptors are numbered as they are created and never again.
-/

namespace DistStorage

namespace Net

open Cpp

/-- What the run throws: `ConnectionError` and `std::invalid_argument`. -/
inductive Exception
  | connectionError (descr : String)
  | invalidArgument (what : String)
  deriving DecidableEq, Repr

/-- The error numbers that the code tells apart. -/
inductive Errno
  | inProgress
  | already
  | isConn
  | intr
  | other
  deriving DecidableEq, Repr

structure IPv4Addr where
  addr : Bytes
  port : ℕ
  deriving DecidableEq, Repr

/-- The answer to a call, with what it writes: the events of the two polled
descriptors, the address of an accepted peer, and `SO_ERROR`. -/
structure Answer where
  ret : ℤ
  errno : Errno
  pollIn : Bool
  pollOut : Bool
  peer : IPv4Addr
  soError : ℤ
  deriving DecidableEq, Repr

/-- The variables that hold a descriptor; all but `acceptedFd` are of the type
`unique_fd`. -/
inductive Var
  | fd
  | listenFd
  | connectFd
  | acceptedFd
  | connectedFd
  | endpointFd
  deriving DecidableEq, Repr

def Var.all : List Var := [.fd, .listenFd, .connectFd, .acceptedFd, .connectedFd, .endpointFd]

inductive Fault
  | badDescriptor (fd : ℤ)
  | unowned (fd : ℤ)
  | badFree
  deriving DecidableEq, Repr

/-- The calls of `on_complete`; an endpoint owns its socket or not. -/
inductive Completion
  | cancelledBefore
  | cancelledDuring
  | handshakeFailed
  | endpoint (owned : Bool)
  | failed (e : Exception)
  deriving DecidableEq, Repr

structure Machine where
  answers : ℕ → Answer
  calls : ℕ
  cancelled : ℕ → Bool
  loads : ℕ
  nextFd : ℤ
  vars : Var → ℤ
  opened : List ℤ
  sslFd : ℤ
  sslLocal : Bool
  sslEndpoint : Bool
  sslCreated : ℕ
  sslFreed : ℕ
  polls : List ℤ
  completions : List Completion
  faults : List Fault

abbrev Run (α : Type) := Action Exception Machine α

namespace Machine

/-- A run that received the descriptor `fd`. -/
def received (answers : ℕ → Answer) (cancelled : ℕ → Bool) (fd : ℤ) : Machine where
  answers := answers
  calls := 0
  cancelled := cancelled
  loads := 0
  nextFd := fd + 1
  vars := fun v => if v = .fd then fd else -1
  opened := [fd]
  sslFd := -1
  sslLocal := false
  sslEndpoint := false
  sslCreated := 0
  sslFreed := 0
  polls := []
  completions := []
  faults := []

def Owned (s : Machine) (fd : ℤ) : Prop := ∃ v ∈ Var.all, s.vars v = fd

instance (s : Machine) (fd : ℤ) : Decidable (s.Owned fd) := by
  unfold Owned
  infer_instance

/-- Record a fault if the descriptor is not open or not owned. -/
def check (fd : ℤ) (s : Machine) : Machine :=
  if fd ∉ s.opened then { s with faults := s.faults ++ [.badDescriptor fd] }
  else if ¬s.Owned fd then { s with faults := s.faults ++ [.unowned fd] }
  else s

def setVar (v : Var) (fd : ℤ) (s : Machine) : Machine :=
  { s with vars := Function.update s.vars v fd }

def close (fd : ℤ) (s : Machine) : Machine :=
  let t := s.check fd
  { t with opened := t.opened.erase fd }

/-- `unique_fd::reset`, which the destructor calls. -/
def reset (v : Var) (s : Machine) : Machine :=
  if s.vars v = -1 then s else (s.close (s.vars v)).setVar v (-1)

/-- A move from one `unique_fd` to a new one. -/
def move (v v' : Var) (s : Machine) : Machine :=
  (s.setVar v' (s.vars v)).setVar v (-1)

@[simp] theorem check_polls (fd : ℤ) (s : Machine) : (s.check fd).polls = s.polls := by
  unfold check
  split_ifs <;> rfl

@[simp] theorem setVar_polls (v : Var) (fd : ℤ) (s : Machine) :
    (s.setVar v fd).polls = s.polls := rfl

@[simp] theorem close_polls (fd : ℤ) (s : Machine) : (s.close fd).polls = s.polls :=
  check_polls fd s

@[simp] theorem reset_polls (v : Var) (s : Machine) : (s.reset v).polls = s.polls := by
  unfold reset
  split_ifs
  · rfl
  · exact close_polls _ s

@[simp] theorem check_completions (fd : ℤ) (s : Machine) :
    (s.check fd).completions = s.completions := by
  unfold check
  split_ifs <;> rfl

@[simp] theorem reset_completions (v : Var) (s : Machine) :
    (s.reset v).completions = s.completions := by
  unfold reset
  split_ifs
  · rfl
  · exact check_completions _ s

@[simp] theorem reset_loads (v : Var) (s : Machine) : (s.reset v).loads = s.loads := by
  unfold reset close check
  split_ifs <;> rfl

/-- `SSL_free` of the object of the run. -/
def sslFree (s : Machine) : Machine :=
  { s with
    faults := if s.sslCreated ≤ s.sslFreed then s.faults ++ [.badFree] else s.faults
    sslFreed := s.sslFreed + 1 }

end Machine

def answer : Run Answer := fun s => .returned (s.answers s.calls) { s with calls := s.calls + 1 }

def loadCancelFlag : Run Bool := fun s =>
  .returned (s.cancelled s.loads) { s with loads := s.loads + 1 }

def value (v : Var) : Run ℤ := fun s => .returned (s.vars v) s

def operate (fd : ℤ) : Run Answer := do
  let a ← answer
  let s ← Action.get
  Action.modify (Machine.check fd)
  pure (if fd ∈ s.opened then a
    else { a with ret := -1, errno := .other, pollIn := false, pollOut := false, soError := 0 })

def allocate : Run ℤ := fun s =>
  .returned s.nextFd { s with nextFd := s.nextFd + 1, opened := s.opened ++ [s.nextFd] }

def handle (v : Var) : Run ℤ := fun s => .returned (s.vars v) (s.setVar v (-1))

def ccall (descr : String) (a : Answer) : Run Unit :=
  Action.require (0 ≤ a.ret) (.connectionError descr)

theorem value_bind {α : Type} (v : Var) (f : ℤ → Run α) (s : Machine) :
    (value v >>= f) s = f (s.vars v) s := rfl

theorem ccall_thrown {descr : String} {a : Answer} (h : ¬0 ≤ a.ret) (s : Machine) :
    ccall descr a s = .thrown (.connectionError descr) s := by
  rw [ccall, Action.require, if_neg h]
  rfl

theorem ccall_returned (descr : String) {a : Answer} (h : 0 ≤ a.ret) (s : Machine) :
    ccall descr a s = .returned () s :=
  Action.require_of _ h s

end Net

end DistStorage
