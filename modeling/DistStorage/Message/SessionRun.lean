import DistStorage.Message.SessionStep
import DistStorage.Transition.Run

/-!
# Runs of one session

A session whose stream is open, taken by itself: its operations complete in any
order, and messages are put into its queue at any time. What becomes of a request
is decided outside of the session, so it is part of the event. The state is the
session with the notes of its run.

A run is relative to the choice of the handler of a completion. The source goes by
`pending`; that every completion has the handler of its own operation is the other
choice. In the steps of the server an open session takes steps of the first kind.
-/

namespace DistStorage

namespace Message

open Proto Peer Transition

namespace Session

def handleReadCompletion (y : Session) (ok : Bool) (verdict : Option Bool) :
    Session × List Note :=
  if !ok then y.deactivated.closeAfterReads
  else
    match verdict with
    | none =>
        ((y.deactivated.closeWithStatus .rejected).1,
          .authenticated y.request false :: (y.deactivated.closeWithStatus .rejected).2)
    | some looped =>
        ((y.take looped).1.readNext,
          .authenticated y.request true :: .dispatched y.request :: (y.take looped).2)

def completeAfterStreamFinish (y : Session) : Session :=
  { y.deactivated with selfRef := false }

def handle (y : Session) (ok : Bool) (verdict : Option Bool) :
    PendingOp → Option (Session × List Note)
  | .read => some (y.handleReadCompletion ok verdict)
  | .write => y.handleWriteCompletion ok
  | .finish => some (y.completeAfterStreamFinish, [])

end Session

/-- What happens to an open session. -/
inductive SessionEvent
  | complete (op : StreamOp) (ok : Bool) (msg : SignedMessage) (verdict : Option Bool)
  | enqueue (msg : SignedMessage)
  deriving DecidableEq, Repr

abbrev Dispatch := Session → StreamOp → Option PendingOp

/-- The dispatch of the source. -/
def byPending : Dispatch := fun y _ => some y.pending

/-- Every completion to the handler of its own operation. -/
def byOperation : Dispatch
  | _, .read => some .read
  | _, .write => some .write
  | _, .finish => some .finish
  | _, .request => none

/-- What the delivery of a completion leaves in the notes. -/
def completionNotes (op : StreamOp) (ok : Bool) (msg : SignedMessage) (kind : PendingOp) :
    List Note :=
  (if op = .read ∧ ok then [.received msg] else []) ++ [.completed op kind]

def sessionStep (dispatch : Dispatch) (s : Session × List Note) :
    SessionEvent → Option (Session × List Note)
  | .complete op ok msg verdict =>
      if op ∈ s.1.outstanding then
        (dispatch s.1 op).bind fun kind =>
          ((s.1.deliver op ok msg).handle ok verdict kind).map fun r =>
            (r.1, s.2 ++ completionNotes op ok msg kind ++ r.2)
      else none
  | .enqueue msg => some ((s.1.enqueueOutgoing msg).1, s.2 ++ (s.1.enqueueOutgoing msg).2)

def opened : Session × List Note :=
  ({ Session.prime.deliver .request true default with
    streamConnectPhase := .streaming }.onStreamRpcConnected, [])

theorem sessionStep_complete {dispatch : Dispatch} {s t : Session × List Note} {op : StreamOp}
    {ok : Bool} {msg : SignedMessage} {verdict : Option Bool}
    (h : sessionStep dispatch s (.complete op ok msg verdict) = some t) :
    op ∈ s.1.outstanding ∧ ∃ kind r, dispatch s.1 op = some kind ∧
      (s.1.deliver op ok msg).handle ok verdict kind = some r ∧
      t = (r.1, s.2 ++ completionNotes op ok msg kind ++ r.2) := by
  rw [sessionStep] at h
  split_ifs at h with hop
  obtain ⟨kind, hkind, h⟩ := Option.bind_eq_some_iff.mp h
  obtain ⟨r, hr, rfl⟩ := Option.map_eq_some_iff.mp h
  exact ⟨hop, kind, r, hkind, hr, rfl⟩

section Phase

variable {y : Session} {ok : Bool}

theorem enqueueOutgoing_phase (y : Session) (msg : SignedMessage) :
    (y.enqueueOutgoing msg).1.streamConnectPhase = y.streamConnectPhase := by
  cases hwp : y.writePending with
  | true => rw [enqueueOutgoing_of_pending hwp]
  | false =>
      rw [enqueueOutgoing_of_idle hwp]
      rfl

theorem handleReadCompletion_phase (y : Session) (ok : Bool) (verdict : Option Bool) :
    (y.handleReadCompletion ok verdict).1.streamConnectPhase = y.streamConnectPhase := by
  cases ok with
  | false =>
      change y.deactivated.closeAfterReads.1.streamConnectPhase = _
      unfold Session.closeAfterReads
      dsimp only
      split <;> rfl
  | true =>
      cases verdict with
      | none => rfl
      | some looped =>
          cases looped with
          | false => rfl
          | true => exact enqueueOutgoing_phase _ _

theorem handleWriteCompletion_phase {r : Session × List Note}
    (h : y.handleWriteCompletion ok = some r) :
    r.1.streamConnectPhase = y.streamConnectPhase := by
  have hfinish : y.finishIfClosing.1.streamConnectPhase = y.streamConnectPhase := by
    unfold Session.finishIfClosing
    dsimp only
    split <;> rfl
  unfold Session.handleWriteCompletion at h
  split at h
  · obtain rfl := Option.some.inj h
    exact hfinish
  · split at h
    · cases h
    · obtain rfl := Option.some.inj h
      exact hfinish
    · obtain rfl := Option.some.inj h
      rfl

theorem sessionStep_phase {dispatch : Dispatch} {s t : Session × List Note} {e : SessionEvent}
    (h : sessionStep dispatch s e = some t) :
    t.1.streamConnectPhase = s.1.streamConnectPhase := by
  cases e with
  | enqueue msg =>
      obtain rfl := Option.some.inj h
      exact enqueueOutgoing_phase _ _
  | complete op ok msg verdict =>
      obtain ⟨-, kind, r, -, hr, rfl⟩ := sessionStep_complete h
      cases kind with
      | read =>
          obtain rfl := Option.some.inj hr
          exact handleReadCompletion_phase _ _ _
      | write =>
          have hphase := handleWriteCompletion_phase hr
          exact hphase
      | finish =>
          obtain rfl := Option.some.inj hr
          rfl

end Phase

section Server

variable {authentic : SignedMessage → Bool} {y y' : Session} {notes : List Note}

/-- What a completion does to an open session of the server is a step of the session. -/
theorem SessionHandled.sessionStep {op : StreamOp} {ok : Bool} {msg : SignedMessage}
    (hphase : y.streamConnectPhase = .streaming) (hop : op ∈ y.outstanding)
    (h : SessionHandled authentic (y.deliver op ok msg) ok y' notes) (history : List Note) :
    ∃ verdict, Message.sessionStep byPending (y, history) (.complete op ok msg verdict) =
      some (y', history ++ y.deliverNotes op ok msg ++ notes) := by
  have hnotes : ∀ kind, y.pending = kind →
      completionNotes op ok msg kind = y.deliverNotes op ok msg := by
    rintro kind rfl
    rw [completionNotes, Session.deliverNotes, if_pos hphase]
  have hstep : ∀ kind verdict, y.pending = kind →
      (y.deliver op ok msg).handle ok verdict kind = some (y', notes) →
      Message.sessionStep byPending (y, history) (.complete op ok msg verdict) =
        some (y', history ++ y.deliverNotes op ok msg ++ notes) := by
    intro kind verdict hkind hhandle
    rw [Message.sessionStep, if_pos hop, byPending, Option.bind_some, hkind, hhandle,
      Option.map_some, hnotes kind hkind]
  cases h with
  | initial hinitial => exact absurd (hphase.symm.trans hinitial) (by simp)
  | connectFailed haccepted => exact absurd (hphase.symm.trans haccepted) (by simp)
  | connected haccepted => exact absurd (hphase.symm.trans haccepted) (by simp)
  | readClosed _ hpending hrunning =>
      refine ⟨none, hstep .read none hpending ?_⟩
      rw [hrunning]
      rfl
  | rejected _ hpending hrunning =>
      refine ⟨none, hstep .read none hpending ?_⟩
      rw [hrunning]
      rfl
  | taken _ hpending hrunning _ looped =>
      refine ⟨some looped, hstep .read (some looped) hpending ?_⟩
      rw [hrunning]
      rfl
  | writeDone _ hpending r hwrite => exact ⟨none, hstep .write none hpending hwrite⟩
  | finished _ hpending => exact ⟨none, hstep .finish none hpending rfl⟩

theorem Disturbed.sessionStep (hphase : y.streamConnectPhase = .streaming)
    (h : Disturbed y y' notes) (history : List Note) :
    (y' = y ∧ notes = []) ∨ ∃ msg,
      Message.sessionStep byPending (y, history) (.enqueue msg) = some (y', history ++ notes) := by
  cases h with
  | idle => exact .inl ⟨rfl, rfl⟩
  | forwarded _ msg => exact .inr ⟨msg, rfl⟩
  | primed => cases hphase

/-- How a session of the server came about, with its notes: it was not opened yet, its
stream failed to open, or it has run since. -/
inductive Originated : Session → List Note → Prop
  | create : Originated Session.create []
  | prime : Originated Session.prime []
  | failed (msg : SignedMessage) :
      Originated { (Session.prime.deliver .request false msg).deactivated with selfRef := false }
        []
  | run (es : List SessionEvent) {s : Session × List Note}
      (hrun : Transition.run (Message.sessionStep byPending) opened es = some s) :
      Originated s.1 s.2

theorem Originated.snoc {es : List SessionEvent} {s t : Session × List Note} {e : SessionEvent}
    (hrun : Transition.run (Message.sessionStep byPending) opened es = some s)
    (h : Message.sessionStep byPending s e = some t) : Originated t.1 t.2 := by
  refine .run (es ++ [e]) ?_
  rw [run_append, hrun, Option.bind_some, run_cons, h]
  rfl

theorem opened_run_phase {es : List SessionEvent} {s : Session × List Note}
    (hrun : Transition.run (Message.sessionStep byPending) opened es = some s) :
    s.1.streamConnectPhase = .streaming :=
  run_invariant (I := fun s => s.1.streamConnectPhase = .streaming)
    (fun _ _ _ hs h => (sessionStep_phase h).trans hs) rfl hrun

theorem Disturbed.of_inactive (hactive : y.sessionActive = false) (h : Disturbed y y' notes) :
    notes = [] ∧ (y' = y ∨ y = Session.create ∧ y' = Session.prime) := by
  cases h with
  | idle => exact ⟨rfl, .inl rfl⟩
  | forwarded _ msg hforwarded => simp [hactive] at hforwarded
  | primed => exact ⟨rfl, .inr ⟨rfl, rfl⟩⟩

theorem Originated.disturbed {history : List Note} (horigin : Originated y history)
    (h : Disturbed y y' notes) : Originated y' (history ++ notes) := by
  cases horigin with
  | create =>
      obtain ⟨rfl, rfl | ⟨-, rfl⟩⟩ := h.of_inactive rfl
      · exact .create
      · exact .prime
  | prime =>
      obtain ⟨rfl, rfl | ⟨-, rfl⟩⟩ := h.of_inactive rfl <;> exact .prime
  | failed msg =>
      obtain ⟨rfl, rfl | ⟨hcreate, -⟩⟩ := h.of_inactive rfl
      · exact .failed msg
      · cases congrArg Session.streamConnectPhase hcreate
  | run es hrun =>
      rcases h.sessionStep (opened_run_phase hrun) _ with ⟨rfl, rfl⟩ | ⟨msg, hstep⟩
      · rw [List.append_nil]
        exact .run es hrun
      · exact Originated.snoc hrun hstep

theorem Originated.handled {history : List Note} {op : StreamOp} {ok : Bool}
    {msg : SignedMessage} (horigin : Originated y history) (hop : op ∈ y.outstanding)
    (h : SessionHandled authentic (y.deliver op ok msg) ok y' notes) :
    Originated y' (history ++ y.deliverNotes op ok msg ++ notes) := by
  cases horigin with
  | create => cases hop
  | prime =>
      obtain rfl : op = .request := List.mem_singleton.mp hop
      cases h with
      | initial hphase => cases hphase
      | connectFailed _ hrunning =>
          rw [hrunning]
          exact .failed msg
      | connected _ hrunning =>
          rw [hrunning]
          exact .run [] rfl
      | readClosed hphase => cases hphase
      | rejected hphase => cases hphase
      | taken hphase => cases hphase
      | writeDone hphase => cases hphase
      | finished hphase => cases hphase
  | failed msg => cases hop
  | run es hrun =>
      obtain ⟨verdict, hstep⟩ := h.sessionStep (opened_run_phase hrun) hop _
      exact Originated.snoc hrun hstep

/-- Every session of the server is one that has run by itself since it was opened. -/
theorem originated_of_run {κ : Type*} {env : AuthEnv κ} {store : AuthStore κ} {s : Server}
    {es : List Event} (hrun : Transition.run (Server.step env store) Server.start es = some s)
    (x : ℕ) : Originated (s.sessions x) (s.history x) := by
  refine (run_invariant (I := fun s => Fresh s ∧ Originated (s.sessions x) (s.history x))
    ?_ ?_ hrun).2
  · rintro s e t ⟨hfresh, horigin⟩ h
    refine ⟨hfresh.step h, ?_⟩
    rcases step_session hfresh h x with
      ⟨op, ok, msg, -, hop, notes, hhistory, hhandled⟩ | ⟨-, notes, hhistory, hdisturbed⟩
    · rw [hhistory]
      exact horigin.handled hop hhandled
    · rw [hhistory]
      exact horigin.disturbed hdisturbed
  · refine ⟨fresh_start, ?_⟩
    change Originated (Function.update (fun _ => Session.create) 0 Session.prime x) []
    by_cases hx : x = 0
    · rw [hx, Function.update_self]
      exact .prime
    · rw [Function.update_of_ne hx]
      exact .create

end Server

end Message

end DistStorage
