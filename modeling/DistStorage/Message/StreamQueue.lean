import DistStorage.Message.StreamOrder

/-!
# The messages of a session

The queue of a session holds the messages that it has accepted and not yet
written, behind the one being written. `QueueOrder` says so of an open session,
and `ReadOrder` that every message read has been authenticated once and then
dispatched. Both hold while the completions arrive in the order of issue. For the
queue one more condition is needed: a write that fails drops the rest of the
queue, yet the session goes on and writes what it accepts later.
-/

namespace DistStorage

namespace Message

open Proto Peer Transition

/-- A write of the session `x` that fails finds no further message in the queue. -/
def DropsNothing (x : ℕ) (s : Server) : Event → Prop
  | .complete z op ok _ =>
      z = x → op = .write → ok = false → (s.sessions x).outbound.length ≤ 1
  | .getChannel _ => True

instance (x : ℕ) (s : Server) : (e : Event) → Decidable (DropsNothing x s e)
  | .complete z op ok _ =>
      inferInstanceAs (Decidable (z = x → op = .write → ok = false → _ ≤ 1))
  | .getChannel _ => .isTrue trivial

/-- The queue of a session against the messages it has accepted and written. -/
structure QueueOrder (y : Session) (h : List Note) : Prop where
  queued : y.sessionActive = true ∨ y.streamConnectPhase ≠ .streaming →
    ∃ rest, h.filterMap Note.acceptedMsg = h.filterMap Note.writtenMsg ++ rest ∧
      if y.writePending then ∃ msg, y.outbound = msg :: rest
      else y.outbound = [] ∧ rest = []
  sent : h.filterMap Note.writtenMsg <+: h.filterMap Note.acceptedMsg

/-- The messages that a session has read, and what it has done with them. -/
structure ReadOrder (authentic : SignedMessage → Bool) (h : List Note) : Prop where
  authenticated : h.filterMap Note.authenticatedMsg = h.filterMap Note.receivedMsg
  dispatched : h.filterMap Note.dispatchedMsg =
    (h.filterMap Note.receivedMsg).filter authentic

/-- Notes that add no message to the queue or to the stream. -/
def Silent (notes : List Note) : Prop :=
  notes.filterMap Note.acceptedMsg = [] ∧ notes.filterMap Note.writtenMsg = []

/-- Notes that say nothing of a message read. -/
def Unread (notes : List Note) : Prop :=
  notes.filterMap Note.receivedMsg = [] ∧ notes.filterMap Note.authenticatedMsg = [] ∧
    notes.filterMap Note.dispatchedMsg = []

theorem QueueOrder.frame {y y' : Session} {h notes : List Note} (hq : QueueOrder y h)
    (hout : y'.outbound = y.outbound) (hwp : y'.writePending = y.writePending)
    (hopen : y'.sessionActive = true ∨ y'.streamConnectPhase ≠ .streaming →
      y.sessionActive = true ∨ y.streamConnectPhase ≠ .streaming)
    (hsilent : Silent notes) : QueueOrder y' (h ++ notes) := by
  obtain ⟨haccepted, hwritten⟩ := hsilent
  constructor
  · intro hopen'
    rw [List.filterMap_append, List.filterMap_append, haccepted, hwritten, List.append_nil,
      List.append_nil, hout, hwp]
    exact hq.queued (hopen hopen')
  · rw [List.filterMap_append, List.filterMap_append, haccepted, hwritten, List.append_nil,
      List.append_nil]
    exact hq.sent

theorem QueueOrder.closed {y y' : Session} {h notes : List Note} (hq : QueueOrder y h)
    (hactive : y'.sessionActive = false) (hphase : y'.streamConnectPhase = .streaming)
    (hsilent : Silent notes) : QueueOrder y' (h ++ notes) := by
  obtain ⟨haccepted, hwritten⟩ := hsilent
  constructor
  · rintro (hactive' | hphase')
    · simp [hactive] at hactive'
    · exact absurd hphase hphase'
  · rw [List.filterMap_append, List.filterMap_append, haccepted, hwritten, List.append_nil,
      List.append_nil]
    exact hq.sent

theorem ReadOrder.append {authentic : SignedMessage → Bool} {h notes : List Note}
    (hr : ReadOrder authentic h) (hunread : Unread notes) :
    ReadOrder authentic (h ++ notes) := by
  obtain ⟨hreceived, hauthenticated, hdispatched⟩ := hunread
  constructor <;> rw [List.filterMap_append, List.filterMap_append]
  · rw [hreceived, hauthenticated, List.append_nil, List.append_nil]
    exact hr.authenticated
  · rw [hreceived, hdispatched, List.append_nil, List.append_nil]
    exact hr.dispatched

theorem unread_of_isSending {notes : List Note} (h : ∀ n ∈ notes, n.isSending = true) :
    Unread notes := by
  refine ⟨?_, ?_, ?_⟩ <;>
    · rw [List.filterMap_eq_nil_iff]
      intro n hn
      have := h n hn
      cases n <;> simp_all [Note.isSending, Note.receivedMsg, Note.authenticatedMsg,
        Note.dispatchedMsg]

theorem unread_enqueueOutgoing (y : Session) (msg : SignedMessage) :
    Unread (y.enqueueOutgoing msg).2 := by
  refine ⟨?_, ?_, ?_⟩ <;>
    · rw [List.filterMap_eq_nil_iff]
      intro n hn
      rcases enqueueOutgoing_notes hn with rfl | hsending
      · rfl
      · cases n <;> simp_all [Note.isSending, Note.receivedMsg, Note.authenticatedMsg,
          Note.dispatchedMsg]

theorem QueueOrder.enqueueOutgoing {y : Session} {h : List Note} (hq : QueueOrder y h)
    (hactive : y.sessionActive = true) (msg : SignedMessage) :
    QueueOrder (y.enqueueOutgoing msg).1 (h ++ (y.enqueueOutgoing msg).2) := by
  obtain ⟨rest, haccepted, hqueue⟩ := hq.queued (Or.inl hactive)
  cases hwp : y.writePending with
  | true =>
      rw [if_pos hwp] at hqueue
      obtain ⟨first, hout⟩ := hqueue
      rw [enqueueOutgoing_of_pending hwp]
      have happend : (h ++ [Note.accepted msg]).filterMap Note.acceptedMsg =
          (h ++ [Note.accepted msg]).filterMap Note.writtenMsg ++ (rest ++ [msg]) := by
        simp [Note.acceptedMsg, Note.writtenMsg, haccepted]
      refine ⟨fun _ => ⟨rest ++ [msg], happend, ?_⟩, ⟨_, happend.symm⟩⟩
      rw [if_pos hwp]
      exact ⟨first, by simp [hout]⟩
  | false =>
      rw [if_neg (by simp [hwp])] at hqueue
      obtain ⟨hout, rfl⟩ := hqueue
      rw [enqueueOutgoing_of_idle hwp]
      simp only [hout, List.nil_append, List.headD_cons]
      have happend : (h ++ [Note.accepted msg, .written msg]).filterMap Note.acceptedMsg =
          (h ++ [Note.accepted msg, .written msg]).filterMap Note.writtenMsg ++ [] := by
        simp [List.filterMap_cons, Note.acceptedMsg, Note.writtenMsg, haccepted]
      exact ⟨fun _ => ⟨[], happend, by simp [Session.issue]⟩, ⟨_, happend.symm⟩⟩

theorem QueueOrder.take {y : Session} {h : List Note} (hq : QueueOrder y h)
    (hactive : y.sessionActive = true) (looped : Bool) :
    QueueOrder (y.take looped).1 (h ++ (y.take looped).2) := by
  have hregistered : QueueOrder { y with registeredPeerId := y.request.senderId } h :=
    ⟨hq.queued, hq.sent⟩
  cases looped with
  | false => exact hregistered.frame rfl rfl id ⟨rfl, rfl⟩
  | true => exact hregistered.enqueueOutgoing hactive y.request

theorem QueueOrder.readNext {y : Session} {h : List Note} (hq : QueueOrder y h) :
    QueueOrder y.readNext h :=
  ⟨hq.queued, hq.sent⟩

theorem silent_deliverNotes (y : Session) (op : StreamOp) (ok : Bool) (msg : SignedMessage) :
    Silent (y.deliverNotes op ok msg) := by
  unfold Session.deliverNotes
  split <;> split <;> exact ⟨rfl, rfl⟩

theorem unread_deliverNotes (y : Session) {op : StreamOp} {ok : Bool}
    (h : ¬ (op = .read ∧ ok = true)) (msg : SignedMessage) :
    Unread (y.deliverNotes op ok msg) := by
  unfold Session.deliverNotes
  rw [if_neg h]
  split <;> exact ⟨rfl, rfl, rfl⟩

theorem closeAfterReads_closed (y : Session) :
    y.deactivated.closeAfterReads.1.sessionActive = false ∧
      y.deactivated.closeAfterReads.1.streamConnectPhase = y.streamConnectPhase := by
  unfold Session.closeAfterReads
  dsimp only
  split <;> exact ⟨rfl, rfl⟩

theorem QueueOrder.writeDone {y : Session} {h : List Note} {ok : Bool}
    {r : Session × List Note} (hq : QueueOrder y h) (hactive : y.sessionActive = true)
    (hwp : y.writePending = true) (hclosing : y.closingAfterWrites = false)
    (hdrop : ok = false → y.outbound.length ≤ 1)
    (hwrite : y.handleWriteCompletion ok = some r) : QueueOrder r.1 (h ++ r.2) := by
  obtain ⟨rest, haccepted, hqueue⟩ := hq.queued (Or.inl hactive)
  rw [if_pos hwp] at hqueue
  obtain ⟨first, hout⟩ := hqueue
  have hsettled : rest = [] → QueueOrder y.finishIfClosing.1 (h ++ y.finishIfClosing.2) := by
    rintro rfl
    rw [finishIfClosing_of_open hclosing, List.append_nil]
    exact ⟨fun _ => ⟨[], haccepted, by simp⟩, hq.sent⟩
  unfold Session.handleWriteCompletion at hwrite
  split at hwrite
  · next hok =>
      obtain rfl := Option.some.inj hwrite
      have hlen := hdrop (by simpa using hok)
      rw [hout] at hlen
      exact hsettled (List.eq_nil_of_length_eq_zero (by simpa using hlen))
  · rw [hout] at hwrite
    cases rest with
    | nil =>
        obtain rfl := Option.some.inj hwrite
        exact hsettled rfl
    | cons next rest =>
        obtain rfl := Option.some.inj hwrite
        have happend : (h ++ [Note.written next]).filterMap Note.acceptedMsg =
            (h ++ [Note.written next]).filterMap Note.writtenMsg ++ rest := by
          simp [Note.acceptedMsg, Note.writtenMsg, haccepted]
        refine ⟨fun _ => ⟨rest, happend, ?_⟩, ⟨rest, happend.symm⟩⟩
        simp [Session.write, Session.issue, hwp]

theorem QueueOrder.handled {authentic : SignedMessage → Bool} {y y' : Session}
    {h notes : List Note} (hq : QueueOrder y h) (hy : InOrder y) {op : StreamOp} {ok : Bool}
    {msg : SignedMessage} (hmem : op ∈ y.outstanding)
    (horder : y.streamConnectPhase = .streaming → y.issued.getLast? = some op)
    (hdrop : op = .write → ok = false → y.outbound.length ≤ 1)
    (hstep : SessionHandled authentic (y.deliver op ok msg) ok y' notes) :
    QueueOrder y' (h ++ y.deliverNotes op ok msg ++ notes) := by
  have hop : y.streamConnectPhase = .streaming → op = y.pending.op := hy.op_eq horder
  have hd : QueueOrder (y.deliver op ok msg) (h ++ y.deliverNotes op ok msg) :=
    hq.frame rfl rfl id (silent_deliverNotes y op ok msg)
  cases hstep with
  | initial hphase =>
      exact hd.frame rfl rfl (fun _ => Or.inr (by simp [hphase])) ⟨rfl, rfl⟩
  | connectFailed hphase =>
      exact hd.frame rfl rfl (fun _ => Or.inr (by simp [hphase])) ⟨rfl, rfl⟩
  | connected hphase =>
      exact hd.frame rfl rfl (fun _ => Or.inr (by simp [hphase])) ⟨rfl, rfl⟩
  | readClosed hphase =>
      obtain ⟨hactive, hphase'⟩ := closeAfterReads_closed (y.deliver op ok msg)
      refine hd.closed hactive (hphase'.trans hphase) ?_
      unfold Session.closeAfterReads
      dsimp only
      split <;> exact ⟨rfl, rfl⟩
  | rejected hphase => exact hd.closed rfl hphase ⟨rfl, rfl⟩
  | taken hphase hpending hrunning hauth looped =>
      have hread : op = .read := (hop hphase).trans (congrArg PendingOp.op hpending)
      subst hread
      have hactive := hy.active_of_read hphase hmem
      have hnoted : QueueOrder (y.deliver .read ok msg) ((h ++ y.deliverNotes .read ok msg) ++
          [.authenticated (y.deliver .read ok msg).request true,
            .dispatched (y.deliver .read ok msg).request]) :=
        hd.frame rfl rfl id ⟨rfl, rfl⟩
      have htaken := hnoted.take hactive looped
      rw [List.append_assoc] at htaken
      exact htaken.readNext
  | writeDone hphase hpending r hwrite =>
      have hop' : op = .write := (hop hphase).trans (congrArg PendingOp.op hpending)
      subst hop'
      have hactive := hy.active_of_write hphase hpending
      exact hd.writeDone hactive (hy.writePending hactive hmem) (hy.active hactive).2.1
        (hdrop rfl) hwrite
  | finished hphase => exact hd.closed rfl hphase ⟨rfl, rfl⟩

theorem ReadOrder.handled {authentic : SignedMessage → Bool} {y y' : Session}
    {h notes : List Note} (hr : ReadOrder authentic h) (hy : InOrder y) {op : StreamOp}
    {ok : Bool} {msg : SignedMessage} (hmem : op ∈ y.outstanding)
    (horder : y.streamConnectPhase = .streaming → y.issued.getLast? = some op)
    (hstep : SessionHandled authentic (y.deliver op ok msg) ok y' notes) :
    ReadOrder authentic (h ++ y.deliverNotes op ok msg ++ notes) := by
  have hop : y.streamConnectPhase = .streaming → op = y.pending.op := hy.op_eq horder
  have hconnecting : y.streamConnectPhase ≠ .streaming → ¬ (op = .read ∧ ok = true) := by
    rintro hphase ⟨rfl, -⟩
    exact absurd hmem (List.count_eq_zero.mp (hy.connecting hphase).noRead)
  -- Only a successful read brings a message, and it is handled as a read.
  have hother : ¬ (op = .read ∧ ok = true) → Unread notes →
      ReadOrder authentic (h ++ y.deliverNotes op ok msg ++ notes) :=
    fun hne hunread => (hr.append (unread_deliverNotes y hne msg)).append hunread
  have hmessage : op = .read → ok = true → y.streamConnectPhase = .streaming →
      (y.deliver op ok msg).request = msg ∧
        y.deliverNotes op ok msg = [.received msg, .completed .read y.pending] := by
    rintro rfl rfl hphase
    simp [Session.deliver, Session.deliverNotes, hphase]
  cases hstep with
  | initial hphase =>
      have hphase' : y.streamConnectPhase = .initial := hphase
      exact hother (hconnecting (by simp [hphase'])) ⟨rfl, rfl, rfl⟩
  | connectFailed hphase =>
      have hphase' : y.streamConnectPhase = .accepted := hphase
      exact hother (hconnecting (by simp [hphase'])) ⟨rfl, rfl, rfl⟩
  | connected hphase =>
      have hphase' : y.streamConnectPhase = .accepted := hphase
      exact hother (hconnecting (by simp [hphase'])) ⟨rfl, rfl, rfl⟩
  | readClosed hphase hpending hrunning =>
      exact hother (fun hread => by simp [hrunning] at hread)
        (unread_of_isSending fun n hn => closeAfterReads_notes hn)
  | rejected hphase hpending hrunning hauth =>
      have hread : op = .read := (hop hphase).trans (congrArg PendingOp.op hpending)
      obtain ⟨hrequest, hnotes⟩ := hmessage hread hrunning hphase
      rw [hrequest] at hauth ⊢
      rw [hnotes]
      constructor <;>
        simp [List.filterMap_cons, Note.authenticatedMsg, Note.receivedMsg, Note.dispatchedMsg,
          Session.closeWithStatus, Session.finish, hr.authenticated, hr.dispatched, hauth]
  | taken hphase hpending hrunning hauth looped =>
      have hread : op = .read := (hop hphase).trans (congrArg PendingOp.op hpending)
      obtain ⟨hrequest, hnotes⟩ := hmessage hread hrunning hphase
      have hunread : Unread ((y.deliver op ok msg).take looped).2 := by
        unfold Session.take
        cases looped with
        | false => exact ⟨rfl, rfl, rfl⟩
        | true => exact unread_enqueueOutgoing _ _
      rw [hrequest] at hauth ⊢
      rw [hnotes]
      have hmsg : ReadOrder authentic (h ++ [.received msg, .completed .read y.pending] ++
          [.authenticated msg true, .dispatched msg]) := by
        constructor <;>
          simp [List.filterMap_cons, Note.authenticatedMsg, Note.receivedMsg,
            Note.dispatchedMsg, hr.authenticated, hr.dispatched, hauth]
      have happend := hmsg.append hunread
      rwa [List.append_assoc] at happend
  | writeDone hphase hpending r hwrite =>
      have hop' : op = .write := (hop hphase).trans (congrArg PendingOp.op hpending)
      exact hother (fun hread => by simp [hop'] at hread)
        (unread_of_isSending fun n hn => handleWriteCompletion_notes hwrite hn)
  | finished hphase hpending =>
      have hop' : op = .finish := (hop hphase).trans (congrArg PendingOp.op hpending)
      exact hother (fun hread => by simp [hop'] at hread) ⟨rfl, rfl, rfl⟩

/-- A session that has handled its completions and its messages in order. -/
structure Sequential (authentic : SignedMessage → Bool) (x : ℕ) (s : Server) : Prop
    extends Attributed x s where
  queue : QueueOrder (s.sessions x) (s.history x)
  reads : ReadOrder authentic (s.history x)

theorem sequential_start (authentic : SignedMessage → Bool) (x : ℕ) :
    Sequential authentic x Server.start := by
  refine ⟨attributed_start x, ⟨fun _ => ⟨[], rfl, ?_⟩, List.prefix_rfl⟩, rfl, rfl⟩
  unfold Server.start
  dsimp only
  by_cases hx : x = 0
  · subst hx
    simp [Session.prime, Session.acceptNext, Session.bind, Session.issue, Session.create]
  · simp [hx, Session.create]

theorem QueueOrder.disturbed {y y' : Session} {h notes : List Note} (hq : QueueOrder y h)
    (hstep : Disturbed y y' notes) : QueueOrder y' (h ++ notes) := by
  cases hstep with
  | idle => exact hq.frame rfl rfl id ⟨rfl, rfl⟩
  | forwarded _ msg hactive => exact hq.enqueueOutgoing hactive msg
  | primed =>
      exact hq.frame rfl rfl (fun _ => Or.inr (by simp [Session.create])) ⟨rfl, rfl⟩

theorem ReadOrder.disturbed {authentic : SignedMessage → Bool} {y y' : Session}
    {h notes : List Note} (hr : ReadOrder authentic h) (hstep : Disturbed y y' notes) :
    ReadOrder authentic (h ++ notes) := by
  cases hstep with
  | idle => exact hr.append ⟨rfl, rfl, rfl⟩
  | forwarded _ msg hactive => exact hr.append (unread_enqueueOutgoing y msg)
  | primed => exact hr.append ⟨rfl, rfl, rfl⟩

section Run

variable {κ : Type*} {env : AuthEnv κ} {store : AuthStore κ}

theorem DropsNothing.length_le {x : ℕ} {s : Server} {op : StreamOp} {ok : Bool}
    {msg : SignedMessage} (h : DropsNothing x s (.complete x op ok msg)) :
    op = .write → ok = false → (s.sessions x).outbound.length ≤ 1 :=
  h rfl

theorem Sequential.step {x : ℕ} {s t : Server} {e : Event}
    (hs : Sequential (Authentic env store) x s) (horder : InIssueOrder x s e)
    (hdrop : DropsNothing x s e) (h : s.step env store e = some t) :
    Sequential (Authentic env store) x t := by
  refine ⟨hs.toAttributed.step horder h, ?_, ?_⟩ <;>
    rcases step_session hs.fresh h x with
      ⟨op, ok, msg, rfl, hmem, notes, hhistory, hhandled⟩ | ⟨-, notes, hhistory, hdisturbed⟩ <;>
    rw [hhistory]
  · exact hs.queue.handled hs.inOrder hmem horder.last hdrop.length_le hhandled
  · exact hs.queue.disturbed hdisturbed
  · exact hs.reads.handled hs.inOrder hmem horder.last hhandled
  · exact hs.reads.disturbed hdisturbed

/-- While the completions of a session arrive in the order of issue and no failed
write drops queued messages, the session writes a prefix of what it accepts, and
authenticates and dispatches each message it reads once, in order. -/
theorem messages_in_order (env : AuthEnv κ) (store : AuthStore κ) (x : ℕ) (es : List Event)
    (s : Server) (hrun : run (Server.step env store) Server.start es = some s)
    (horder : AllSteps (Server.step env store)
      (fun s e => InIssueOrder x s e ∧ DropsNothing x s e) Server.start es) :
    (s.history x).filterMap Note.writtenMsg <+: (s.history x).filterMap Note.acceptedMsg ∧
      (s.history x).filterMap Note.authenticatedMsg =
        (s.history x).filterMap Note.receivedMsg ∧
      (s.history x).filterMap Note.dispatchedMsg =
        ((s.history x).filterMap Note.receivedMsg).filter (Authentic env store) := by
  have h : Sequential (Authentic env store) x s :=
    run_invariant_of_allSteps (fun _ _ _ hs he hstep => hs.step he.1 he.2 hstep)
      (sequential_start _ x) horder hrun
  exact ⟨h.queue.sent, h.reads.authenticated, h.reads.dispatched⟩

end Run

theorem messages_in_order_sample :
    ∃ s, run (Server.step sampleEnv sampleStore) Server.start
        [.complete 0 .request true default, .complete 0 .read true (signedBy [1] [2]),
          .complete 0 .read true (signedBy [1] [])] = some s ∧
      (s.history 0).filterMap Note.writtenMsg <+: (s.history 0).filterMap Note.acceptedMsg ∧
      (s.history 0).filterMap Note.authenticatedMsg =
        (s.history 0).filterMap Note.receivedMsg :=
  have h := messages_in_order sampleEnv sampleStore 0
    [.complete 0 .request true default, .complete 0 .read true (signedBy [1] [2]),
      .complete 0 .read true (signedBy [1] [])] _ rfl (by decide)
  ⟨_, rfl, h.1, h.2.1⟩

/-- The completion of an echo dispatches the message a second time. -/
theorem echo_dispatched_twice :
    ∃ s, run (Server.step sampleEnv sampleStore) Server.start
        [.complete 0 .request true default, .complete 0 .read true (signedBy [1] []),
          .complete 0 .write true default] = some s ∧
      (s.history 0).filterMap Note.receivedMsg = [signedBy [1] []] ∧
      (s.history 0).filterMap Note.dispatchedMsg = [signedBy [1] [], signedBy [1] []] :=
  ⟨_, rfl, by decide, by decide⟩

end Message

end DistStorage
