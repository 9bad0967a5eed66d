import DistStorage.Transition.Run

/-!
# Unary handlers on a completion queue

A unary handler is a state machine driven by the completions of its own
operations: `process` takes the next case of its switch. Handlers are numbered
by creation, and `kind` stands for the derived class with everything its copy
constructor keeps. `handleRequest` is the derived class's own part, which may
throw and then ends the server.

The fields `accepted`, `handled` and `sent` of a handler and the list of the
destroyed handlers record what happened and are never read by the code.
-/

namespace DistStorage

namespace Grpc

open Transition

inductive UnaryOperation
  | request
  | finish
  deriving DecidableEq, Repr

/-- One handler object. `selfArmed` says that `self_` still owns the handler. -/
structure BasicHandler (κ Req Res : Type*) where
  kind : κ
  state : ℕ
  request : Req
  selfArmed : Bool
  outstanding : List UnaryOperation
  accepted : Bool
  handled : ℕ
  sent : List Res

/-- The server: its handlers and the queue of deferred destroys. -/
structure UnaryServer (κ Req Res : Type*) where
  handlers : List (BasicHandler κ Req Res)
  deferred : List ℕ
  destroyed : List ℕ

/-- A completion of an operation of a handler. An accepted call brings its
request message. -/
structure UnaryCompletion (Req : Type*) where
  handler : ℕ
  operation : UnaryOperation
  ok : Bool
  message : Req

section Server

variable {κ Req Res : Type*} [Inhabited Req]

/-- A handler after its constructor and `arm`. -/
def BasicHandler.create (kind : κ) : BasicHandler κ Req Res :=
  { kind, state := 0, request := default, selfArmed := true, outstanding := [],
    accepted := false, handled := 0, sent := [] }

def BasicHandler.bind (h : BasicHandler κ Req Res) : BasicHandler κ Req Res :=
  { h with outstanding := h.outstanding ++ [.request] }

/-- The case `0` of `process`. -/
def BasicHandler.processInitial (h : BasicHandler κ Req Res) : BasicHandler κ Req Res :=
  { h with state := h.state + 1 }.bind

/-- `handle_request` and `finish` with their result. -/
def BasicHandler.finish (h : BasicHandler κ Req Res) (result : Res) : BasicHandler κ Req Res :=
  { h with
    state := 12345
    outstanding := h.outstanding ++ [.finish]
    handled := h.handled + 1
    sent := h.sent ++ [result] }

def UnaryServer.set (s : UnaryServer κ Req Res) (i : ℕ) (h : BasicHandler κ Req Res) :
    UnaryServer κ Req Res :=
  { s with handlers := s.handlers.set i h }

def UnaryServer.runDeferredHandlerDestroys (s : UnaryServer κ Req Res) :
    UnaryServer κ Req Res :=
  { s with deferred := [], destroyed := s.destroyed ++ s.deferred }

/-- `grpc_prime_async_handler`: a new handler owns itself and is processed once. -/
def UnaryServer.primeAsyncHandler (s : UnaryServer κ Req Res) (kind : κ) :
    UnaryServer κ Req Res :=
  { s with
    handlers := s.handlers ++
      [(BasicHandler.create kind).processInitial] }.runDeferredHandlerDestroys

/-- `grpc_async_clone_acceptor`: while the server runs, prime a copy. -/
def UnaryServer.cloneAcceptor (s : UnaryServer κ Req Res) (kind : κ) (running : Bool) :
    UnaryServer κ Req Res :=
  if running then s.primeAsyncHandler kind else s

/-- `GRPCBasicHandler::process` for the handler number `i`. -/
def UnaryServer.process (handleRequest : κ → Req → Option Res) (s : UnaryServer κ Req Res)
    (i : ℕ) (running : Bool) : Option (UnaryServer κ Req Res) :=
  s.handlers[i]?.bind fun h =>
    match h.state with
    | 0 => some (s.set i h.processInitial)
    | 1 => some ((s.set i { h with state := h.state + 1 }).cloneAcceptor h.kind running)
    | 2 => (handleRequest h.kind h.request).map fun result => s.set i (h.finish result)
    | _ + 3 =>
        some { s.set i { h with state := h.state + 1, selfArmed := false } with
          deferred := if h.selfArmed then s.deferred ++ [i] else s.deferred }

/-- The handler at the delivery of a completion: the operation has left the queue
and an accepted call has filled the request. -/
def BasicHandler.deliver (h : BasicHandler κ Req Res) (e : UnaryCompletion Req) :
    BasicHandler κ Req Res :=
  { h with
    outstanding := h.outstanding.erase e.operation
    request := if e.operation = .request ∧ e.ok then e.message else h.request
    accepted := h.accepted || (e.operation = .request && e.ok) }

/-- One round of the server loop: the completion of an outstanding operation of a
handler that is still there. -/
def UnaryServer.step (handleRequest : κ → Req → Option Res) (s : UnaryServer κ Req Res)
    (e : UnaryCompletion Req) : Option (UnaryServer κ Req Res) :=
  s.handlers[e.handler]?.bind fun h =>
    if e.handler ∈ s.destroyed ∨ e.operation ∉ h.outstanding then none
    else
      ((s.set e.handler (h.deliver e)).process handleRequest e.handler e.ok).map
        UnaryServer.runDeferredHandlerDestroys

/-- The server after its start has primed one handler of each kind. -/
def UnaryServer.start (kinds : List κ) : UnaryServer κ Req Res :=
  kinds.foldl UnaryServer.primeAsyncHandler { handlers := [], deferred := [], destroyed := [] }

/-- The handler has exactly one outstanding operation or waits for its destroy. -/
def Covered (s : UnaryServer κ Req Res) (i : ℕ) : Prop :=
  (∃ h, s.handlers[i]? = some h ∧ h.outstanding.length = 1) ∨ i ∈ s.deferred

/-- A handler that has had its first call of `process`, or its second one and
nothing outstanding since. -/
def Unanswered (h : BasicHandler κ Req Res) : Prop :=
  (h.state = 1 ∧ h.outstanding = [.request] ∨ h.state = 2 ∧ h.outstanding = []) ∧
    h.handled = 0 ∧ h.sent = []

/-- No handler has answered and none has been given up. -/
structure AllUnanswered (s : UnaryServer κ Req Res) : Prop where
  handlers : ∀ h ∈ s.handlers, Unanswered h
  deferred : s.deferred = []
  destroyed : s.destroyed = []

def Waiting (s : UnaryServer κ Req Res) (i : ℕ) : Prop :=
  ∃ h, s.handlers[i]? = some h ∧ h.state = 1

omit [Inhabited Req] in
theorem AllUnanswered.covered_iff {s : UnaryServer κ Req Res} (hs : AllUnanswered s) (i : ℕ) :
    Covered s i ↔ Waiting s i := by
  unfold Covered Waiting
  rw [hs.deferred]
  constructor
  · rintro (⟨h, hget, hlen⟩ | hmem)
    · rcases (hs.handlers h (List.mem_of_getElem? hget)).1 with ⟨hstate, -⟩ | ⟨-, hout⟩
      · exact ⟨h, hget, hstate⟩
      · simp [hout] at hlen
    · exact absurd hmem List.not_mem_nil
  · rintro ⟨h, hget, hstate⟩
    rcases (hs.handlers h (List.mem_of_getElem? hget)).1 with ⟨-, hout⟩ | ⟨hstate', -⟩
    · exact Or.inl ⟨h, hget, by simp [hout]⟩
    · omega

theorem primeAsyncHandler_handlers (s : UnaryServer κ Req Res) (kind : κ) :
    (s.primeAsyncHandler kind).handlers =
      s.handlers ++ [(BasicHandler.create kind).processInitial] := rfl

theorem unanswered_create (kind : κ) :
    Unanswered (BasicHandler.create kind : BasicHandler κ Req Res).processInitial :=
  ⟨Or.inl ⟨rfl, rfl⟩, rfl, rfl⟩

theorem AllUnanswered.primeAsyncHandler {s : UnaryServer κ Req Res} (hs : AllUnanswered s)
    (kind : κ) : AllUnanswered (s.primeAsyncHandler kind) := by
  refine ⟨?_, rfl, ?_⟩
  · intro h hmem
    rw [primeAsyncHandler_handlers, List.mem_append, List.mem_singleton] at hmem
    rcases hmem with hmem | rfl
    · exact hs.handlers h hmem
    · exact unanswered_create kind
  · change s.destroyed ++ s.deferred = []
    rw [hs.destroyed, hs.deferred, List.append_nil]

theorem waiting_primeAsyncHandler (s : UnaryServer κ Req Res) (kind : κ) {i : ℕ}
    (hi : i < (s.primeAsyncHandler kind).handlers.length) :
    Waiting (s.primeAsyncHandler kind) i ↔ (i < s.handlers.length → Waiting s i) := by
  unfold Waiting
  rw [primeAsyncHandler_handlers, List.length_append, List.length_singleton] at hi
  rw [primeAsyncHandler_handlers]
  by_cases hlt : i < s.handlers.length
  · rw [List.getElem?_append_left hlt]
    exact ⟨fun h _ => h, fun h => h hlt⟩
  · obtain rfl : i = s.handlers.length := by omega
    rw [List.getElem?_concat_length]
    exact ⟨fun _ h => absurd h (lt_irrefl _), fun _ => ⟨_, rfl, rfl⟩⟩

theorem allUnanswered_foldl (kinds : List κ) {s : UnaryServer κ Req Res}
    (hs : AllUnanswered s) : AllUnanswered (kinds.foldl UnaryServer.primeAsyncHandler s) := by
  induction kinds generalizing s with
  | nil => exact hs
  | cons kind kinds ih => exact ih (hs.primeAsyncHandler kind)

theorem allUnanswered_start (kinds : List κ) :
    AllUnanswered (UnaryServer.start kinds : UnaryServer κ Req Res) :=
  allUnanswered_foldl kinds ⟨fun _ h => absurd h List.not_mem_nil, rfl, rfl⟩

theorem waiting_foldl (kinds : List κ) {s : UnaryServer κ Req Res}
    (hs : ∀ i < s.handlers.length, Waiting s i) {i : ℕ}
    (hi : i < (kinds.foldl UnaryServer.primeAsyncHandler s).handlers.length) :
    Waiting (kinds.foldl UnaryServer.primeAsyncHandler s) i := by
  induction kinds generalizing s with
  | nil => exact hs i hi
  | cons kind kinds ih =>
      refine ih (fun j hj => ?_) hi
      exact (waiting_primeAsyncHandler s kind hj).mpr (hs j)

theorem waiting_start (kinds : List κ) {i : ℕ}
    (hi : i < (UnaryServer.start kinds : UnaryServer κ Req Res).handlers.length) :
    Waiting (UnaryServer.start kinds : UnaryServer κ Req Res) i := by
  unfold UnaryServer.start at hi ⊢
  exact waiting_foldl kinds (by simp) hi

/-- A completion finds its handler waiting and only takes it to the next case,
where a copy may be primed. -/
theorem AllUnanswered.step_eq {handleRequest : κ → Req → Option Res}
    {s t : UnaryServer κ Req Res} {e : UnaryCompletion Req} (hs : AllUnanswered s)
    (hstep : s.step handleRequest e = some t) :
    ∃ h, s.handlers[e.handler]? = some h ∧
      Unanswered { h.deliver e with state := 2 } ∧
      t = (s.set e.handler { h.deliver e with state := 2 }).cloneAcceptor h.kind e.ok := by
  obtain ⟨h, hget, hstep⟩ := Option.bind_eq_some_iff.mp hstep
  have hlt : e.handler < s.handlers.length := (List.getElem?_eq_some_iff.mp hget).1
  obtain ⟨hcase, hhandled, hsent⟩ := hs.handlers h (List.mem_of_getElem? hget)
  split at hstep
  · cases hstep
  · next hout =>
      push Not at hout
      rcases hcase with ⟨hstate, hop⟩ | ⟨-, hop⟩
      · have herase : h.outstanding.erase e.operation = [] := by
          have hmem := hout.2
          rw [hop, List.mem_singleton] at hmem
          rw [hop, hmem]
          rfl
        refine ⟨h, hget, ⟨Or.inr ⟨rfl, herase⟩, hhandled, hsent⟩, ?_⟩
        obtain ⟨u, hu, rfl⟩ := Option.map_eq_some_iff.mp hstep
        obtain ⟨g, hg, hu⟩ := Option.bind_eq_some_iff.mp hu
        obtain rfl : g = h.deliver e := by
          rw [UnaryServer.set, List.getElem?_set_self hlt, Option.some_inj] at hg
          exact hg.symm
        have hstate' : (h.deliver e).state = 1 := hstate
        simp only [hstate', Option.some_inj] at hu
        rw [← hu]
        unfold UnaryServer.cloneAcceptor
        cases e.ok <;>
          simp [UnaryServer.set, UnaryServer.primeAsyncHandler,
            UnaryServer.runDeferredHandlerDestroys, BasicHandler.deliver, hs.deferred,
            hs.destroyed]
      · rw [hop] at hout
        exact absurd hout.2 List.not_mem_nil

/-- What a completion changes: its handler stops waiting, the new one waits. -/
theorem AllUnanswered.step {handleRequest : κ → Req → Option Res}
    {s t : UnaryServer κ Req Res} {e : UnaryCompletion Req} (hs : AllUnanswered s)
    (hstep : s.step handleRequest e = some t) :
    AllUnanswered t ∧ e.handler < s.handlers.length ∧
      s.handlers.length ≤ t.handlers.length ∧
      ∀ i < t.handlers.length,
        (Waiting t i ↔ i ≠ e.handler ∧ (i < s.handlers.length → Waiting s i)) := by
  obtain ⟨h, hget, hun, rfl⟩ := hs.step_eq hstep
  have hlt : e.handler < s.handlers.length := (List.getElem?_eq_some_iff.mp hget).1
  have hset : AllUnanswered (s.set e.handler { h.deliver e with state := 2 }) := by
    refine ⟨?_, hs.deferred, hs.destroyed⟩
    intro g hg
    rcases List.mem_or_eq_of_mem_set hg with hmem | rfl
    · exact hs.handlers g hmem
    · exact hun
  have hlen : (s.set e.handler { h.deliver e with state := 2 }).handlers.length =
      s.handlers.length := List.length_set
  have hwait : ∀ i, Waiting (s.set e.handler { h.deliver e with state := 2 }) i ↔
      i ≠ e.handler ∧ Waiting s i := by
    intro i
    unfold Waiting
    rw [UnaryServer.set]
    by_cases hi : i = e.handler
    · subst hi
      rw [List.getElem?_set_self hlt]
      simp
    · rw [List.getElem?_set_ne (Ne.symm hi)]
      simp [hi]
  unfold UnaryServer.cloneAcceptor
  split
  · refine ⟨hset.primeAsyncHandler _, hlt, ?_, ?_⟩
    · rw [primeAsyncHandler_handlers, List.length_append, hlen]
      exact Nat.le_add_right _ _
    · intro i hi
      rw [waiting_primeAsyncHandler _ _ hi, hlen, hwait]
      constructor
      · intro himp
        exact ⟨fun heq => (himp (heq ▸ hlt)).1 heq, fun hi' => (himp hi').2⟩
      · rintro ⟨hne, himp⟩ hi'
        exact ⟨hne, himp hi'⟩
  · refine ⟨hset, hlt, hlen.ge, ?_⟩
    intro i hi
    rw [hlen] at hi
    rw [hwait]
    exact and_congr_right fun _ => ⟨fun h _ => h, fun h => h hi⟩

/-- After a run the waiting handlers are those that no completion has reached. -/
theorem AllUnanswered.run {handleRequest : κ → Req → Option Res}
    {s t : UnaryServer κ Req Res} {es : List (UnaryCompletion Req)} (hs : AllUnanswered s)
    (hrun : run (UnaryServer.step handleRequest) s es = some t) :
    AllUnanswered t ∧ s.handlers.length ≤ t.handlers.length ∧
      (∀ e ∈ es, e.handler < t.handlers.length) ∧
      ∀ i < t.handlers.length,
        (Waiting t i ↔ (∀ e ∈ es, e.handler ≠ i) ∧ (i < s.handlers.length → Waiting s i)) := by
  induction es generalizing s with
  | nil =>
      obtain rfl : s = t := Option.some.inj hrun
      exact ⟨hs, le_rfl, by simp, fun i hi => by simp [hi]⟩
  | cons e es ih =>
      obtain ⟨u, hu, hrest⟩ := run_cons_eq_some.mp hrun
      obtain ⟨hun, hlt, hle, hwait⟩ := hs.step hu
      obtain ⟨ht, hle', hreach, hwait'⟩ := ih hun hrest
      refine ⟨ht, hle.trans hle', ?_, ?_⟩
      · rw [List.forall_mem_cons]
        exact ⟨by omega, hreach⟩
      · intro i hi
        rw [hwait' i hi, List.forall_mem_cons]
        by_cases hiu : i < u.handlers.length
        · rw [hwait i hiu]
          constructor
          · rintro ⟨hnone, himp⟩
            obtain ⟨hne, himp⟩ := himp hiu
            exact ⟨⟨Ne.symm hne, hnone⟩, himp⟩
          · rintro ⟨⟨hne, hnone⟩, himp⟩
            exact ⟨hnone, fun _ => ⟨Ne.symm hne, himp⟩⟩
        · constructor
          · rintro ⟨hnone, -⟩
            exact ⟨⟨by omega, hnone⟩, fun h => absurd h (by omega)⟩
          · rintro ⟨⟨-, hnone⟩, -⟩
            exact ⟨hnone, fun h => absurd h hiu⟩

/-- A handler keeps exactly one outstanding operation as long as no completion
reaches it, so the server covers all its handlers exactly before its first
completion. No run calls `handle_request`, finishes a call or destroys a
handler. -/
theorem covered_iff_no_completion (handleRequest : κ → Req → Option Res) (kinds : List κ)
    (es : List (UnaryCompletion Req)) (s : UnaryServer κ Req Res)
    (hrun : run (UnaryServer.step handleRequest) (UnaryServer.start kinds) es = some s) :
    ((∀ i < s.handlers.length, i ∉ s.destroyed → Covered s i) ↔ es = []) ∧
    (∀ i < s.handlers.length, Covered s i ↔ ∀ e ∈ es, e.handler ≠ i) ∧
    (∀ h ∈ s.handlers, h.handled = 0 ∧ h.sent = []) ∧ s.destroyed = [] := by
  obtain ⟨hs, -, hreach, hwait⟩ := (allUnanswered_start kinds).run hrun
  have hcovered : ∀ i < s.handlers.length, Covered s i ↔ ∀ e ∈ es, e.handler ≠ i := by
    intro i hi
    rw [hs.covered_iff, hwait i hi]
    exact ⟨fun h => h.1, fun h => ⟨h, waiting_start kinds⟩⟩
  refine ⟨?_, hcovered, fun h hmem => (hs.handlers h hmem).2, hs.destroyed⟩
  constructor
  · intro hall
    rw [List.eq_nil_iff_forall_not_mem]
    intro e he
    have hi := hreach e he
    exact (hcovered e.handler hi).mp (hall e.handler hi (by simp [hs.destroyed])) e he rfl
  · rintro rfl i hi -
    exact (hcovered i hi).mpr (by simp)

end Server

/-- The server with one kind of handler after its first accepted call. -/
def acceptedOnce : UnaryServer Unit Unit Unit :=
  { handlers :=
      [{ kind := (), state := 2, request := (), selfArmed := true, outstanding := [],
         accepted := true, handled := 0, sent := [] },
       (BasicHandler.create ()).processInitial]
    deferred := []
    destroyed := [] }

theorem covered_iff_no_completion_sample :
    (∀ i < acceptedOnce.handlers.length, Covered acceptedOnce i ↔
      ∀ e ∈ [(⟨0, .request, true, ()⟩ : UnaryCompletion Unit)], e.handler ≠ i) ∧
    ∀ h ∈ acceptedOnce.handlers, h.handled = 0 ∧ h.sent = [] :=
  have hrun := covered_iff_no_completion (fun _ _ => some ()) [()]
    [⟨0, .request, true, ()⟩] acceptedOnce rfl
  ⟨hrun.2.1, hrun.2.2.1⟩

/-- An accepted call leaves its handler without an operation, not deferred, and
its request unhandled. -/
theorem accepted_call_not_covered :
    ∃ s : UnaryServer Unit Unit Unit,
      run (UnaryServer.step fun _ _ => some ()) (UnaryServer.start [()])
        [⟨0, .request, true, ()⟩] = some s ∧
      ∃ h, s.handlers[0]? = some h ∧ h.accepted = true ∧ h.handled = 0 ∧ h.sent = [] ∧
        0 ∉ s.destroyed ∧ ¬ Covered s 0 := by
  refine ⟨acceptedOnce, rfl, _, rfl, rfl, rfl, rfl, List.not_mem_nil, ?_⟩
  rintro (⟨h, hget, hlen⟩ | hmem)
  · obtain rfl := Option.some.inj hget
    exact absurd hlen (by decide)
  · exact absurd hmem List.not_mem_nil

end Grpc

end DistStorage
