import DistStorage.Cpp.Vector
import DistStorage.Grpc.BasicHandler
import DistStorage.Message.StreamOrder
import DistStorage.ResourceGuard.LimitSession

/-!
# One acceptor for each method

A handler waits for one call of its method, and the completion that brings the
call has it prime a copy of itself, which waits for the next one. The copy owns
itself through a `unique_ptr` or, for the message stream, a `shared_ptr`. In
both cases one handler waits at any time, as long as every call is accepted.
-/

namespace DistStorage

namespace Grpc

open Transition

section Unary

variable {κ Req Res : Type*} [Inhabited Req]

def UnaryServer.Accepting (s : UnaryServer κ Req Res) (kind : κ) (i : ℕ) : Prop :=
  ∃ h, s.handlers[i]? = some h ∧ h.kind = kind ∧ UnaryOperation.request ∈ h.outstanding

/-- No request operation among the completions has failed. -/
def UnaryAccepted (es : List (UnaryCompletion Req)) : Prop :=
  ∀ e ∈ es, e.operation = .request → e.ok = true

theorem handlers_foldl (kinds : List κ) (s : UnaryServer κ Req Res) :
    (kinds.foldl UnaryServer.primeAsyncHandler s).handlers =
      s.handlers ++ kinds.map fun kind => (BasicHandler.create kind).processInitial := by
  induction kinds generalizing s with
  | nil => simp
  | cons kind kinds ih =>
      rw [List.foldl_cons, ih, primeAsyncHandler_handlers, List.map_cons, List.append_assoc]
      rfl

theorem existsUnique_accepting_start {kinds : List κ} (hkinds : kinds.Nodup) {kind : κ}
    (hkind : kind ∈ kinds) :
    ∃! i, (UnaryServer.start kinds : UnaryServer κ Req Res).Accepting kind i := by
  have hget : ∀ i, (UnaryServer.start kinds : UnaryServer κ Req Res).Accepting kind i ↔
      kinds[i]? = some kind := by
    intro i
    rw [UnaryServer.Accepting, UnaryServer.start, handlers_foldl, List.nil_append,
      List.getElem?_map]
    constructor
    · rintro ⟨h, hh, hkind, -⟩
      obtain ⟨kind', hkind', rfl⟩ := Option.map_eq_some_iff.mp hh
      rw [hkind']
      exact congrArg some hkind
    · intro hi
      exact ⟨_, by rw [hi]; rfl, rfl, List.mem_singleton_self _⟩
  obtain ⟨i, hi⟩ := List.mem_iff_getElem?.mp hkind
  refine ⟨i, (hget i).mpr hi, fun j hj => ?_⟩
  obtain ⟨hlt, -⟩ := List.getElem?_eq_some_iff.mp ((hget j).mp hj)
  exact (List.getElem?_inj hlt hkinds).mp (((hget j).mp hj).trans hi.symm)

theorem AllUnanswered.operation_eq {handleRequest : κ → Req → Option Res}
    {s t : UnaryServer κ Req Res} {e : UnaryCompletion Req} (hs : AllUnanswered s)
    (hstep : s.step handleRequest e = some t) :
    e.operation = .request ∧ ∀ h, s.handlers[e.handler]? = some h → h.outstanding = [.request] := by
  obtain ⟨h, hget, hstep⟩ := Option.bind_eq_some_iff.mp hstep
  split at hstep
  · cases hstep
  · next hout =>
      push Not at hout
      have hrequest : h.outstanding = [.request] := by
        rcases (hs.handlers h (List.mem_of_getElem? hget)).1 with ⟨-, hop⟩ | ⟨-, hop⟩
        · exact hop
        · exact absurd (hop ▸ hout.2) List.not_mem_nil
      refine ⟨List.mem_singleton.mp (hrequest ▸ hout.2), fun g hg => ?_⟩
      obtain rfl := Option.some.inj (hget.symm.trans hg)
      exact hrequest

/-- The completion of an accepted call moves the wait to the copy. -/
theorem AllUnanswered.existsUnique_step {handleRequest : κ → Req → Option Res}
    {s t : UnaryServer κ Req Res} {e : UnaryCompletion Req} (hs : AllUnanswered s)
    (hstep : s.step handleRequest e = some t) (hok : e.operation = .request → e.ok = true)
    {kind : κ} (hunique : ∃! i, s.Accepting kind i) : ∃! i, t.Accepting kind i := by
  obtain ⟨hop, hrequest⟩ := hs.operation_eq hstep
  obtain ⟨h, hget, hun, rfl⟩ := hs.step_eq hstep
  have hout : (h.deliver e).outstanding = [] := by
    change h.outstanding.erase e.operation = []
    rw [hrequest h hget, hop]
    rfl
  have hdone : ¬((h.deliver e).kind = kind ∧
      UnaryOperation.request ∈ (h.deliver e).outstanding) := by
    rintro ⟨-, hmem⟩
    rw [hout] at hmem
    exact absurd hmem List.not_mem_nil
  have hwaits : UnaryOperation.request ∈ h.outstanding := by
    rw [hrequest h hget]
    exact List.mem_singleton_self _
  have hhandlers : ((s.set e.handler { h.deliver e with state := 2 }).cloneAcceptor h.kind
      e.ok).handlers = s.handlers.set e.handler { h.deliver e with state := 2 } ++
        [(BasicHandler.create h.kind).processInitial] := by
    rw [hok hop, UnaryServer.cloneAcceptor, if_pos rfl, primeAsyncHandler_handlers]
    rfl
  unfold UnaryServer.Accepting
  rw [hhandlers]
  by_cases hkind : h.kind = kind
  · exact Cpp.existsUnique_set_append_of_pos hget ⟨hkind, hwaits⟩ hdone
      ⟨hkind, List.mem_singleton_self _⟩ hunique
  · refine Cpp.existsUnique_set_append_of_neg hget (fun h => hkind h.1) hdone ?_ hunique
    rintro g hg ⟨hgkind, -⟩
    obtain rfl := List.mem_singleton.mp hg
    exact hkind hgkind

theorem existsUnique_accepting {handleRequest : κ → Req → Option Res} {kinds : List κ}
    (hkinds : kinds.Nodup) {es : List (UnaryCompletion Req)} {s : UnaryServer κ Req Res}
    (hrun : run (UnaryServer.step handleRequest) (UnaryServer.start kinds) es = some s)
    (hok : UnaryAccepted es) {kind : κ} (hkind : kind ∈ kinds) : ∃! i, s.Accepting kind i := by
  have hall : AllUnanswered s ∧ ∃! i, s.Accepting kind i := by
    refine run_invariant_of_allSteps
      (I := fun s : UnaryServer κ Req Res => AllUnanswered s ∧ ∃! i, s.Accepting kind i)
      (P := fun _ (e : UnaryCompletion Req) => e.operation = .request → e.ok = true) ?_
      ⟨allUnanswered_start kinds, existsUnique_accepting_start hkinds hkind⟩
      (allSteps_of_forall_mem (fun _ e he => hok e he) _) hrun
    rintro s e t ⟨hs, hunique⟩ hok hstep
    exact ⟨(hs.step hstep).1, hs.existsUnique_step hstep hok hunique⟩
  exact hall.2

/-- The handlers are those of the kinds that were primed at the start. -/
theorem kind_mem_of_run {handleRequest : κ → Req → Option Res} {kinds : List κ}
    {es : List (UnaryCompletion Req)} {s : UnaryServer κ Req Res}
    (hrun : run (UnaryServer.step handleRequest) (UnaryServer.start kinds) es = some s) :
    ∀ h ∈ s.handlers, h.kind ∈ kinds := by
  have hall : AllUnanswered s ∧ ∀ h ∈ s.handlers, h.kind ∈ kinds := by
    refine run_invariant (I := fun s : UnaryServer κ Req Res =>
      AllUnanswered s ∧ ∀ h ∈ s.handlers, h.kind ∈ kinds) ?_
      ⟨allUnanswered_start kinds, fun h hh => ?_⟩ hrun
    · rintro s e t ⟨hs, hkinds⟩ hstep
      refine ⟨(hs.step hstep).1, fun g hg => ?_⟩
      obtain ⟨h, hget, -, rfl⟩ := hs.step_eq hstep
      have hkind : h.kind ∈ kinds := hkinds h (List.mem_of_getElem? hget)
      have hset : ∀ g ∈ (s.set e.handler { h.deliver e with state := 2 }).handlers,
          g.kind ∈ kinds := by
        intro g hg
        rcases List.mem_or_eq_of_mem_set hg with hmem | rfl
        · exact hkinds g hmem
        · exact hkind
      rw [UnaryServer.cloneAcceptor] at hg
      split_ifs at hg
      · rw [primeAsyncHandler_handlers, List.mem_append, List.mem_singleton] at hg
        rcases hg with hg | rfl
        · exact hset g hg
        · exact hkind
      · exact hset g hg
    · rw [UnaryServer.start, handlers_foldl, List.nil_append] at hh
      obtain ⟨kind, hkind, rfl⟩ := List.mem_map.mp hh
      exact hkind
  exact hall.2

theorem not_accepting_of_not_mem {handleRequest : κ → Req → Option Res} {kinds : List κ}
    {es : List (UnaryCompletion Req)} {s : UnaryServer κ Req Res}
    (hrun : run (UnaryServer.step handleRequest) (UnaryServer.start kinds) es = some s)
    {kind : κ} (hkind : kind ∉ kinds) (i : ℕ) : ¬s.Accepting kind i := by
  rintro ⟨h, hget, rfl, -⟩
  exact hkind (kind_mem_of_run hrun h (List.mem_of_getElem? hget))

end Unary

section Limit

open ResourceGuard

variable {A : Type*} [Zero A] [Add A]

omit [Zero A] [Add A] in
def LimitAccepting (s : LimitServer A) (i : ℕ) : Prop :=
  ∃ h, s.handlers[i]? = some h ∧ Message.StreamOp.request ∈ h.outstanding

/-- No request operation among the completions has failed. -/
def LimitAccepted (es : List (LimitCompletion A)) : Prop :=
  ∀ e ∈ es, e.operation = .request → e.ok = true

theorem existsUnique_limitAccepting {es : List (LimitCompletion A)} {s : LimitServer A}
    (hrun : run LimitServer.step LimitServer.start es = some s) (hok : LimitAccepted es) :
    ∃! i, LimitAccepting s i := by
  have hall : Invariant es s ∧ (LimitAccepted es → ∃! i, LimitAccepting s i) := by
    refine run_invariant_of_events (I := fun es (s : LimitServer A) =>
      Invariant es s ∧ (LimitAccepted es → ∃! i, LimitAccepting s i)) ?_
      ⟨invariant_start, fun _ => ⟨0, ⟨_, rfl, List.mem_singleton_self _⟩, fun i hi => ?_⟩⟩ hrun
    · rintro es s e t ⟨hs, hunique⟩ hstep
      refine ⟨hs.step hstep, fun hok => ?_⟩
      replace hunique := hunique fun e he => hok e (List.mem_append_left _ he)
      obtain ⟨h, hget, hnot, hop⟩ := exists_of_step hstep
      obtain ⟨h', gone, accepted, hstepped⟩ := hs.stepped hget hnot hop
      obtain rfl := Option.some.inj (hstep.symm.trans hstepped.step_eq)
      have hoke : e.operation = .request → e.ok = true := hok e (by simp)
      by_cases hrequest : e.operation = .request
      · obtain rfl : accepted = true := hstepped.accepted_iff.mpr ⟨hrequest, hoke hrequest⟩
        exact Cpp.existsUnique_set_append_of_pos hget (hrequest ▸ hop) hstepped.no_request
          (List.mem_singleton_self _) hunique
      · have hbusy : Message.StreamOp.request ∉ h.outstanding := by
          rcases hs.handlers _ _ hget with ⟨hwaiting, -⟩ | hserving
          · rw [decide_eq_false hnot] at hwaiting
            rw [hwaiting.outstanding] at hop
            exact absurd (List.mem_singleton.mp hop) hrequest
          · exact hserving.no_request
        obtain rfl : accepted = false := by
          by_contra htrue
          exact hrequest (hstepped.accepted_iff.mp (Bool.eq_true_of_not_eq_false htrue)).1
        exact Cpp.existsUnique_set_append_of_neg hget hbusy hstepped.no_request
          (fun g hg => absurd hg List.not_mem_nil) hunique
    · obtain ⟨g, hg, -⟩ := hi
      have hlt : i < 1 := (List.getElem?_eq_some_iff.mp hg).1
      omega
  exact hall.2 hok

end Limit

section Stream

open Message Proto Peer

variable {κ : Type*} {env : AuthEnv κ} {store : AuthStore κ}

def StreamAccepting (s : Server) (x : ℕ) : Prop := StreamOp.request ∈ (s.sessions x).outstanding

/-- No request operation among the events has failed. -/
def StreamAccepted (es : List Event) : Prop :=
  ∀ e ∈ es, ∀ x ok msg, e = .complete x .request ok msg → ok = true

structure Connected (y : Session) : Prop where
  phase : y.streamConnectPhase = .streaming
  no_request : StreamOp.request ∉ y.outstanding

theorem Connected.of_issue {y y' : Session} (h : Connected y)
    (hphase : y'.streamConnectPhase = y.streamConnectPhase) {op : StreamOp} (hop : op ≠ .request)
    (hout : y'.outstanding = y.outstanding ++ [op]) : Connected y' := by
  refine ⟨hphase.trans h.phase, ?_⟩
  rw [hout, List.mem_append, List.mem_singleton]
  rintro (hmem | rfl)
  · exact h.no_request hmem
  · exact hop rfl

theorem Connected.deliver {y : Session} (h : Connected y) (op : StreamOp) (ok : Bool)
    (msg : SignedMessage) : Connected (y.deliver op ok msg) :=
  ⟨h.phase, fun hmem => h.no_request (List.mem_of_mem_erase hmem)⟩

theorem Connected.enqueueOutgoing {y : Session} (h : Connected y) (msg : SignedMessage) :
    Connected (y.enqueueOutgoing msg).1 := by
  cases hwp : y.writePending with
  | true =>
      rw [enqueueOutgoing_of_pending hwp]
      exact ⟨h.phase, h.no_request⟩
  | false =>
      rw [enqueueOutgoing_of_idle hwp]
      exact h.of_issue rfl (by decide : StreamOp.write ≠ .request) rfl

theorem Connected.finishIfClosing {y : Session} (h : Connected y) :
    Connected y.finishIfClosing.1 := by
  unfold Session.finishIfClosing
  dsimp only
  split
  · exact h.of_issue rfl (by decide : StreamOp.finish ≠ .request) rfl
  · exact ⟨h.phase, h.no_request⟩

theorem Connected.handleWriteCompletion {y : Session} (h : Connected y) {ok : Bool}
    {r : Session × List Note} (hwrite : y.handleWriteCompletion ok = some r) : Connected r.1 := by
  unfold Session.handleWriteCompletion at hwrite
  split at hwrite
  · obtain rfl := Option.some.inj hwrite
    exact h.finishIfClosing
  · split at hwrite
    · cases hwrite
    · obtain rfl := Option.some.inj hwrite
      exact h.finishIfClosing
    · obtain rfl := Option.some.inj hwrite
      exact h.of_issue rfl (by decide : StreamOp.write ≠ .request) rfl

theorem Connected.closeAfterReads {y : Session} (h : Connected y) :
    Connected y.closeAfterReads.1 := by
  unfold Session.closeAfterReads
  dsimp only
  split
  · exact h.of_issue rfl (by decide : StreamOp.finish ≠ .request) rfl
  · exact ⟨h.phase, h.no_request⟩

/-- A session does not go back to its request. -/
theorem Connected.handled {authentic : SignedMessage → Bool} {y y' : Session} {ok : Bool}
    {notes : List Note} (h : Connected y) (hstep : SessionHandled authentic y ok y' notes) :
    Connected y' := by
  cases hstep with
  | initial hphase => exact absurd (h.phase.symm.trans hphase) nofun
  | connectFailed hphase => exact absurd (h.phase.symm.trans hphase) nofun
  | connected hphase => exact absurd (h.phase.symm.trans hphase) nofun
  | readClosed => exact Connected.closeAfterReads ⟨h.phase, h.no_request⟩
  | rejected => exact h.of_issue rfl (by decide : StreamOp.finish ≠ .request) rfl
  | taken _ _ _ _ looped =>
      have hregistered : Connected { y with registeredPeerId := y.request.senderId } :=
        ⟨h.phase, h.no_request⟩
      have htake : Connected (y.take looped).1 := by
        unfold Session.take
        dsimp only
        split
        · exact hregistered.enqueueOutgoing y.request
        · exact hregistered
      exact htake.of_issue rfl (by decide : StreamOp.read ≠ .request) rfl
  | writeDone _ _ r hwrite => exact h.handleWriteCompletion hwrite
  | finished => exact ⟨h.phase, h.no_request⟩

theorem Connected.disturbed {y y' : Session} {notes : List Note} (h : Connected y)
    (hstep : Disturbed y y' notes) : Connected y' := by
  cases hstep with
  | idle => exact h
  | forwarded _ msg => exact h.enqueueOutgoing msg
  | primed => exact absurd h.phase nofun

theorem handled_created_eq {s t : Server} {x : ℕ} {running : Bool}
    (h : Handled env store s x running t) (hs : Fresh s) (hx : x < s.created)
    (hphase : (s.sessions x).streamConnectPhase = .streaming) : t.created = s.created := by
  cases h with
  | initial hphase' => exact absurd (hphase.symm.trans hphase') nofun
  | connectFailed hphase' => exact absurd (hphase.symm.trans hphase') nofun
  | connected hphase' => exact absurd (hphase.symm.trans hphase') nofun
  | readClosed => exact deactivate_created s x
  | rejected => exact deactivate_created _ x
  | taken _ _ _ data _ u hdelivery => exact (hdelivery.fresh (hs.admitSender hx) hx).2
  | writeDone => rfl
  | finished => exact deactivate_created s x

/-- The last session waits, and the others have been connected. -/
structure LastAccepting (s : Server) (a : ℕ) : Prop where
  created : s.created = a + 1
  phase : (s.sessions a).streamConnectPhase = .accepted
  outstanding : (s.sessions a).outstanding = [.request]
  inactive : (s.sessions a).sessionActive = false
  others : ∀ x < a, Connected (s.sessions x)

theorem lastAccepting_start : LastAccepting Server.start 0 :=
  ⟨rfl, rfl, rfl, rfl, fun _ hx => absurd hx (Nat.not_lt_zero _)⟩

theorem LastAccepting.connect {s t : Server} {a : ℕ} (h : LastAccepting s a) {msg : SignedMessage}
    (hhandled : Handled env store (s.deliver a .request true msg) a true t) :
    LastAccepting t (a + 1) := by
  have hphase : ((s.deliver a .request true msg).sessions a).streamConnectPhase = .accepted := by
    simpa [Server.deliver, Session.deliver] using h.phase
  have hout : ((s.deliver a .request true msg).sessions a).outstanding = [] := by
    simp [Server.deliver, Session.deliver, h.outstanding]
  cases hhandled with
  | connected =>
      have hcreated : (s.deliver a .request true msg).created = a + 1 := h.created
      refine ⟨congrArg Nat.succ hcreated, ?_, ?_, ?_, fun x hx => ?_⟩
      · simp [Server.cloneAcceptorForNextRequest, hcreated, Session.prime,
          Session.acceptNext, Session.bind, Session.issue]
      · simp [Server.cloneAcceptorForNextRequest, hcreated, Session.prime,
          Session.acceptNext, Session.bind, Session.issue, Session.create]
      · simp [Server.cloneAcceptorForNextRequest, hcreated, Session.prime,
          Session.acceptNext, Session.bind, Session.issue, Session.create]
      · rcases Nat.lt_succ_iff_lt_or_eq.mp hx with hlt | rfl
        · have hnew : x ≠ s.created := by
            rw [h.created]
            exact hx.ne
          have hother := h.others x hlt
          refine ⟨?_, ?_⟩
          · simpa [Server.cloneAcceptorForNextRequest, hnew, hlt.ne, Server.deliver] using
              hother.phase
          · simpa [Server.cloneAcceptorForNextRequest, hnew, hlt.ne, Server.deliver] using
              hother.no_request
        · refine ⟨?_, ?_⟩
          · simp [Server.cloneAcceptorForNextRequest, hcreated, Session.onStreamRpcConnected,
              Session.read, Session.issue]
          · simp [Server.cloneAcceptorForNextRequest, hcreated, Session.onStreamRpcConnected,
              Session.read, Session.issue, hout]
  | initial hphase' => exact absurd (hphase.symm.trans hphase') (by simp)
  | connectFailed _ hrunning => cases hrunning
  | readClosed hphase' => exact absurd (hphase.symm.trans hphase') (by simp)
  | rejected hphase' => exact absurd (hphase.symm.trans hphase') (by simp)
  | taken hphase' => exact absurd (hphase.symm.trans hphase') (by simp)
  | writeDone hphase' => exact absurd (hphase.symm.trans hphase') (by simp)
  | finished hphase' => exact absurd (hphase.symm.trans hphase') (by simp)

theorem LastAccepting.keep {s t : Server} {a x : ℕ} {op : StreamOp} {ok : Bool}
    {msg : SignedMessage} (h : LastAccepting s a) (hs : Fresh s)
    (hstep : s.step env store (.complete x op ok msg) = some t) (hx : x < a) :
    LastAccepting t a := by
  obtain ⟨-, hmem, hhandled⟩ := step_complete hstep
  have hxs : x < s.created := by
    rw [h.created]
    omega
  have hphase : ((s.deliver x op ok msg).sessions x).streamConnectPhase = .streaming := by
    simpa [Server.deliver, Session.deliver] using (h.others x hx).phase
  have hcreated : t.created = a + 1 :=
    (handled_created_eq hhandled (hs.deliver hmem ok msg) hxs hphase).trans h.created
  have hsession := step_session hs hstep
  have hlast : t.sessions a = s.sessions a := by
    rcases hsession a with ⟨op', ok', msg', heq, -⟩ | ⟨-, notes, -, hdisturbed⟩
    · cases heq
      exact absurd hx (lt_irrefl _)
    · generalize hy : s.sessions a = y at hdisturbed
      generalize hy' : t.sessions a = y' at hdisturbed
      cases hdisturbed with
      | idle => rfl
      | forwarded _ _ hactive =>
          rw [← hy, h.inactive] at hactive
          cases hactive
      | primed =>
          have hphase' := h.phase
          rw [hy] at hphase'
          cases hphase'
  refine ⟨hcreated, hlast ▸ h.phase, hlast ▸ h.outstanding, hlast ▸ h.inactive, fun z hz => ?_⟩
  have hz' := h.others z hz
  rcases hsession z with ⟨op', ok', msg', heq, -, notes, -, hown⟩ | ⟨-, notes, -, hdisturbed⟩
  · exact (hz'.deliver op' ok' msg').handled hown
  · exact hz'.disturbed hdisturbed

theorem existsUnique_streamAccepting {es : List Event} {s : Server}
    (hrun : run (Server.step env store) Server.start es = some s) (hok : StreamAccepted es) :
    ∃! x, StreamAccepting s x := by
  have hall : Fresh s ∧ ∃ a, LastAccepting s a := by
    refine run_invariant_of_allSteps (I := fun s : Server => Fresh s ∧ ∃ a, LastAccepting s a)
      (P := fun _ e => ∀ x ok msg, e = Event.complete x .request ok msg → ok = true) ?_
      ⟨fresh_start, 0, lastAccepting_start⟩ (allSteps_of_forall_mem (fun _ e he => hok e he) _) hrun
    rintro s e t ⟨hs, a, ha⟩ hok hstep
    refine ⟨hs.step hstep, ?_⟩
    cases e with
    | getChannel peerId =>
        obtain rfl : (s.getChannel peerId).1 = t := Option.some.inj hstep
        rcases getChannel_eq s peerId with hsame | hsame
        · exact ⟨a, hsame.symm ▸ ha⟩
        · rw [hsame]
          exact ⟨a, ha.created, ha.phase, ha.outstanding, ha.inactive, ha.others⟩
    | complete x op ok msg =>
        obtain ⟨-, hmem, hhandled⟩ := step_complete hstep
        have hx : x < a + 1 := ha.created ▸ hs.lt_of_mem hmem
        rcases Nat.lt_succ_iff_lt_or_eq.mp hx with hlt | rfl
        · exact ⟨a, ha.keep hs hstep hlt⟩
        · rw [ha.outstanding, List.mem_singleton] at hmem
          subst hmem
          obtain rfl := hok x ok msg rfl
          exact ⟨x + 1, ha.connect hhandled⟩
  obtain ⟨hs, a, ha⟩ := hall
  refine ⟨a, ?_, fun x hx => ?_⟩
  · change StreamOp.request ∈ (s.sessions a).outstanding
    rw [ha.outstanding]
    exact List.mem_singleton_self _
  · have hlt : x < a + 1 := ha.created ▸ hs.lt_of_mem hx
    by_contra hne
    exact (ha.others x (by omega)).no_request hx

end Stream

/-- The methods of the object store, all of them unary. -/
inductive StoreMethod
  | write
  | read
  | delete
  | hash
  deriving DecidableEq, Repr

/-- The methods that the `main` of the object store primes a handler for. -/
def StoreMethod.primed : List StoreMethod := [.write, .read, .delete, .hash]

theorem StoreMethod.mem_primed (method : StoreMethod) : method ∈ primed := by
  cases method <;> decide

inductive MessageMethod
  | send
  | sendAsync
  | tellMyAddr
  deriving DecidableEq, Repr

/-- The methods that the `main` of the message service primes a handler for. There is
no handler for `SendAsync`. -/
def MessageMethod.primed : List MessageMethod := [.send, .tellMyAddr]

section Services

open Message Peer ResourceGuard

variable {Req Res : Type*} [Inhabited Req] {κ A : Type*} [Zero A] [Add A]

/-- The message service runs its unary handlers and its stream sessions on one
completion queue. -/
def messageServiceStep (handleRequest : MessageMethod → Req → Option Res) (env : AuthEnv κ)
    (store : AuthStore κ) :
    UnaryServer MessageMethod Req Res × Server → UnaryCompletion Req ⊕ Message.Event →
      Option (UnaryServer MessageMethod Req Res × Server) :=
  interleave (UnaryServer.step handleRequest) (Server.step env store)

def messageServiceStart : UnaryServer MessageMethod Req Res × Server :=
  (UnaryServer.start MessageMethod.primed, Server.start)

/-- As long as every request completion has come with `ok`, each method of the
object store and of the resource guard, and each method of the message service
that a handler was primed for, has one handler that waits for a call. The other
method of the message service never has one. -/
theorem one_acceptor_per_method (handleStore : StoreMethod → Req → Option Res)
    (handleMessage : MessageMethod → Req → Option Res) (env : AuthEnv κ) (store : AuthStore κ) :
    (∀ (es : List (UnaryCompletion Req)) (s : UnaryServer StoreMethod Req Res),
      run (UnaryServer.step handleStore) (UnaryServer.start StoreMethod.primed) es = some s →
      UnaryAccepted es → ∀ method, ∃! i, s.Accepting method i) ∧
    (∀ (es : List (UnaryCompletion Req ⊕ Message.Event))
        (s : UnaryServer MessageMethod Req Res × Server),
      run (messageServiceStep handleMessage env store) messageServiceStart es = some s →
      (∀ i, ¬s.1.Accepting .sendAsync i) ∧
      (UnaryAccepted (es.filterMap Sum.getLeft?) → StreamAccepted (es.filterMap Sum.getRight?) →
        (∀ method, method ≠ .sendAsync → ∃! i, s.1.Accepting method i) ∧
          ∃! x, StreamAccepting s.2 x)) ∧
    ∀ (es : List (LimitCompletion A)) (s : LimitServer A),
      run LimitServer.step LimitServer.start es = some s → LimitAccepted es →
      ∃! i, LimitAccepting s i := by
  refine ⟨fun es s hrun hok method => ?_, fun es s hrun => ?_,
    fun es s hrun hok => existsUnique_limitAccepting hrun hok⟩
  · exact existsUnique_accepting (by decide) hrun hok (StoreMethod.mem_primed method)
  · obtain ⟨hleft, hright⟩ := run_interleave hrun
    refine ⟨not_accepting_of_not_mem hleft (by decide), fun hok hokstream => ⟨?_, ?_⟩⟩
    · intro method hmethod
      refine existsUnique_accepting (by decide) hleft hok ?_
      cases method with
      | send => decide
      | sendAsync => exact absurd rfl hmethod
      | tellMyAddr => decide
    · exact existsUnique_streamAccepting hright hokstream

end Services

/-- A unary call and a stream that begin one after the other. -/
theorem one_acceptor_per_method_sample :
    ∃ s, run (messageServiceStep (fun _ (_ : Unit) => some ()) Message.sampleEnv
          Message.sampleStore)
        messageServiceStart
        [.inr (.complete 0 .request true default), .inl ⟨1, .request, true, ()⟩] = some s ∧
      (∃! i, s.1.Accepting .tellMyAddr i) ∧ ∃! x, StreamAccepting s.2 x := by
  refine ⟨_, rfl, ?_⟩
  have hone := (one_acceptor_per_method (A := ℤ) (fun _ (_ : Unit) => some ())
    (fun _ _ => some ()) Message.sampleEnv Message.sampleStore).2.1
    [.inr (.complete 0 .request true default), .inl ⟨1, .request, true, ()⟩] _ rfl
  have hconnected := hone.2 (by simp [UnaryAccepted]) (by simp [StreamAccepted])
  exact ⟨hconnected.1 .tellMyAddr (by decide), hconnected.2⟩

/-- The server has just started, and no handler waits for a call of `SendAsync`. -/
theorem no_acceptor_for_sendAsync :
    ∃ s, run (messageServiceStep (fun _ (_ : Unit) => some ()) Message.sampleEnv
          Message.sampleStore) messageServiceStart [] = some s ∧
      s.1.handlers.map BasicHandler.kind = [.send, .tellMyAddr] ∧
      ¬∃! i, s.1.Accepting .sendAsync i := by
  refine ⟨_, rfl, rfl, ?_⟩
  rintro ⟨i, ⟨h, hget, hkind, -⟩, -⟩
  have hmem : MessageMethod.sendAsync ∈ [MessageMethod.send, .tellMyAddr] :=
    hkind ▸ List.mem_map_of_mem (f := BasicHandler.kind) (List.mem_of_getElem? hget)
  exact absurd hmem (by decide)

end Grpc

end DistStorage
