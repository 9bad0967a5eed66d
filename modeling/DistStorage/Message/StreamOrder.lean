import DistStorage.Message.SessionStep
import DistStorage.Transition.Run

/-!
# Completions and messages in order

`process` gives every completion to the handler of the operation issued last,
so a session works as intended exactly while its completions arrive in that way:
`InIssueOrder`. Along such runs `InOrder` is an invariant of the session. It says
which operations are outstanding in each phase, and so that a completion always
reaches its own handler.
-/

namespace DistStorage

namespace Message

open Proto Peer Transition

/-- A completion of the streaming session `x` is that of the operation which the
session has issued last. -/
def InIssueOrder (x : ℕ) (s : Server) : Event → Prop
  | .complete z op _ _ =>
      z = x → (s.sessions x).streamConnectPhase = .streaming →
        (s.sessions x).issued.getLast? = some op
  | .getChannel _ => True

instance (x : ℕ) (s : Server) : (e : Event) → Decidable (InIssueOrder x s e)
  | .complete z op _ _ => inferInstanceAs (Decidable (z = x → _ → _ = some op))
  | .getChannel _ => .isTrue trivial

structure Connecting (y : Session) : Prop where
  inactive : y.sessionActive = false
  writePending : y.writePending = false
  closing : y.closingAfterWrites = false
  outbound : y.outbound = []
  noRead : y.outstanding.count .read = 0
  noWrite : y.outstanding.count .write = 0

/-- The operations of a session whose completions have arrived in order. -/
structure InOrder (y : Session) : Prop where
  connecting : y.streamConnectPhase ≠ .streaming → Connecting y
  last : y.streamConnectPhase = .streaming → y.issued.getLast? = some y.pending.op
  reads : y.outstanding.count .read ≤ 1
  writes : y.outstanding.count .write ≤ 1
  active : y.sessionActive = true →
    y.outstanding.count .write = (if y.writePending then 1 else 0) ∧
      y.closingAfterWrites = false ∧ y.pending ≠ .finish
  inactive : y.streamConnectPhase = .streaming → y.sessionActive = false →
    y.outstanding.count .read = 0 ∧ y.pending ≠ .write

theorem Connecting.inOrder {y : Session} (h : Connecting y)
    (hphase : y.streamConnectPhase ≠ .streaming) : InOrder y := by
  refine ⟨fun _ => h, fun hne => absurd hne hphase, ?_, ?_, fun hactive => ?_,
    fun hne => absurd hne hphase⟩
  · rw [h.noRead]
    exact Nat.zero_le 1
  · rw [h.noWrite]
    exact Nat.zero_le 1
  · simp [h.inactive] at hactive

theorem Connecting.deliver {y : Session} (h : Connecting y) (op : StreamOp) (ok : Bool)
    (msg : SignedMessage) : Connecting (y.deliver op ok msg) :=
  { h with
    noRead := Nat.le_zero.mp (h.noRead ▸ List.erase_sublist.count_le _)
    noWrite := Nat.le_zero.mp (h.noWrite ▸ List.erase_sublist.count_le _) }

theorem inOrder_create : InOrder Session.create :=
  Connecting.inOrder ⟨rfl, rfl, rfl, rfl, rfl, rfl⟩ (by simp [Session.create])

theorem inOrder_prime : InOrder Session.prime :=
  Connecting.inOrder ⟨rfl, rfl, rfl, rfl, rfl, rfl⟩
    (by simp [Session.prime, Session.acceptNext, Session.bind, Session.issue])

theorem InOrder.streaming {y : Session} (h : InOrder y) (hactive : y.sessionActive = true) :
    y.streamConnectPhase = .streaming := by
  by_contra hphase
  simp [(h.connecting hphase).inactive] at hactive

theorem count_issue_of_ne (y : Session) {op op' : StreamOp} (h : op ≠ op') :
    (y.issue op).outstanding.count op' = y.outstanding.count op' := by
  simp [Session.issue, h]

/-- Only the completion of a write leaves a session that must settle its queue. -/
theorem InOrder.deliver {y : Session} (h : InOrder y) {op : StreamOp} (hop : op ≠ .write)
    (ok : Bool) (msg : SignedMessage) : InOrder (y.deliver op ok msg) := by
  have hwrite : (y.outstanding.erase op).count .write = y.outstanding.count .write :=
    List.count_erase_of_ne hop.symm
  have hread : (y.outstanding.erase op).count .read ≤ y.outstanding.count .read :=
    (List.erase_sublist).count_le _
  refine ⟨fun hphase => (h.connecting hphase).deliver op ok msg, h.last,
    hread.trans h.reads, ?_, fun hactive => ?_, fun hphase hactive => ?_⟩
  · exact hwrite.le.trans h.writes
  · exact ⟨hwrite.trans (h.active hactive).1, (h.active hactive).2⟩
  · obtain ⟨hr, hpending⟩ := h.inactive hphase hactive
    exact ⟨Nat.le_zero.mp (hr ▸ hread), hpending⟩

theorem InOrder.enqueueOutgoing {y : Session} (h : InOrder y) (hactive : y.sessionActive = true)
    (msg : SignedMessage) : InOrder (y.enqueueOutgoing msg).1 := by
  have hphase := h.streaming hactive
  obtain ⟨hwrite, hclosing, hpending⟩ := h.active hactive
  cases hwp : y.writePending with
  | true =>
      rw [enqueueOutgoing_of_pending hwp]
      exact ⟨fun hne => absurd hphase hne, h.last, h.reads, h.writes, h.active, h.inactive⟩
  | false =>
      rw [enqueueOutgoing_of_idle hwp]
      rw [hwp] at hwrite
      refine ⟨fun hne => absurd hphase hne, ?_, ?_, ?_, ?_, ?_⟩
      · simp [Session.issue, PendingOp.op]
      · simpa [Session.issue] using h.reads
      · simp [Session.issue, hwrite]
      · simp [Session.issue, hwrite, hclosing]
      · simp [Session.issue, hactive]

theorem InOrder.readNext {y : Session} (h : InOrder y) (hactive : y.sessionActive = true)
    (hread : y.outstanding.count .read = 0) : InOrder y.readNext := by
  have hphase := h.streaming hactive
  obtain ⟨hwrite, hclosing, hpending⟩ := h.active hactive
  refine ⟨fun hne => absurd hphase hne, ?_, ?_, ?_, ?_, ?_⟩
  · simp [Session.readNext, Session.read, Session.issue, PendingOp.op]
  · simp [Session.readNext, Session.read, Session.issue, hread]
  · simpa [Session.readNext, Session.read, Session.issue] using h.writes
  · simp [Session.readNext, Session.read, Session.issue, hwrite, hclosing]
  · simp [Session.readNext, Session.read, Session.issue, hactive]

theorem enqueueOutgoing_frame (y : Session) (msg : SignedMessage) :
    (y.enqueueOutgoing msg).1.sessionActive = y.sessionActive ∧
      (y.enqueueOutgoing msg).1.streamConnectPhase = y.streamConnectPhase ∧
      (y.enqueueOutgoing msg).1.outstanding.count .read = y.outstanding.count .read := by
  cases hwp : y.writePending with
  | true => simp [enqueueOutgoing_of_pending hwp]
  | false => simp [enqueueOutgoing_of_idle hwp, Session.issue]

/-- A completion in order of a session in order is of the operation that the
session expects. -/
theorem InOrder.op_eq {y : Session} (h : InOrder y) {op : StreamOp}
    (horder : y.streamConnectPhase = .streaming → y.issued.getLast? = some op)
    (hphase : y.streamConnectPhase = .streaming) : op = y.pending.op := by
  have hlast := h.last hphase
  rw [horder hphase] at hlast
  exact Option.some.inj hlast

theorem InOrder.active_of_read {y : Session} (h : InOrder y)
    (hphase : y.streamConnectPhase = .streaming) (hmem : StreamOp.read ∈ y.outstanding) :
    y.sessionActive = true := by
  by_contra hactive
  have hcount := (h.inactive hphase (by simpa using hactive)).1
  exact absurd hmem (List.count_eq_zero.mp hcount)

theorem InOrder.active_of_write {y : Session} (h : InOrder y)
    (hphase : y.streamConnectPhase = .streaming) (hpending : y.pending = .write) :
    y.sessionActive = true := by
  by_contra hactive
  exact (h.inactive hphase (by simpa using hactive)).2 hpending

theorem InOrder.count_erase_read {y : Session} (h : InOrder y) :
    (y.outstanding.erase .read).count .read = 0 := by
  rw [List.count_erase_self]
  have := h.reads
  omega

theorem InOrder.writePending {y : Session} (h : InOrder y) (hactive : y.sessionActive = true)
    (hmem : StreamOp.write ∈ y.outstanding) : y.writePending = true := by
  have hcount := (h.active hactive).1
  by_contra hwp
  rw [if_neg hwp] at hcount
  exact absurd hmem (List.count_eq_zero.mp hcount)

theorem inOrder_closed {y : Session} (hphase : y.streamConnectPhase = .streaming)
    (hactive : y.sessionActive = false) (hlast : y.issued.getLast? = some y.pending.op)
    (hread : y.outstanding.count .read = 0) (hwrite : y.outstanding.count .write ≤ 1)
    (hpending : y.pending ≠ .write) : InOrder y := by
  refine ⟨fun hne => absurd hphase hne, fun _ => hlast, ?_, hwrite, fun h => ?_,
    fun _ _ => ⟨hread, hpending⟩⟩
  · rw [hread]
    exact Nat.zero_le 1
  · simp [hactive] at h

theorem InOrder.closeAfterReads {y : Session} (h : InOrder y)
    (hphase : y.streamConnectPhase = .streaming) (hpending : y.pending = .read)
    (hread : y.outstanding.count .read = 0) : InOrder y.deactivated.closeAfterReads.1 := by
  unfold Session.closeAfterReads
  dsimp only
  split
  · refine inOrder_closed hphase rfl ?_ ?_ ?_ (by simp [Session.finish, Session.issue])
    · simp [Session.finish, Session.issue, PendingOp.op]
    · exact (count_issue_of_ne _ (by decide)).trans hread
    · exact (count_issue_of_ne _ (by decide)).trans_le h.writes
  · refine inOrder_closed hphase rfl (h.last hphase) hread h.writes ?_
    change y.pending ≠ .write
    simp [hpending]

theorem InOrder.closeWithStatus {y : Session} (h : InOrder y)
    (hphase : y.streamConnectPhase = .streaming) (hread : y.outstanding.count .read = 0)
    (status : Status) : InOrder (y.deactivated.closeWithStatus status).1 := by
  refine inOrder_closed hphase rfl ?_ ?_ ?_
    (by simp [Session.closeWithStatus, Session.finish, Session.issue])
  · simp [Session.closeWithStatus, Session.finish, Session.issue, PendingOp.op]
  · exact (count_issue_of_ne _ (by decide)).trans hread
  · exact (count_issue_of_ne _ (by decide)).trans_le h.writes

/-- A message that is taken leaves the session in order, ready for the next read. -/
theorem InOrder.take {y : Session} (h : InOrder y) (hactive : y.sessionActive = true)
    (hread : y.outstanding.count .read = 0) (looped : Bool) :
    InOrder (y.take looped).1.readNext := by
  -- The sender's registration is outside of the invariant.
  have hregistered : InOrder { y with registeredPeerId := y.request.senderId } :=
    ⟨fun hne => absurd (h.streaming hactive) hne, h.last, h.reads, h.writes, h.active, h.inactive⟩
  unfold Session.take
  dsimp only
  split
  · obtain ⟨hactive', -, hcount⟩ := enqueueOutgoing_frame
      { y with registeredPeerId := y.request.senderId } y.request
    exact (hregistered.enqueueOutgoing hactive _).readNext (hactive'.trans hactive)
      (hcount.trans hread)
  · exact hregistered.readNext hactive hread

theorem InOrder.writeCompletion {y : Session} (h : InOrder y)
    (hphase : y.streamConnectPhase = .streaming) (hpending : y.pending = .write)
    (hmem : StreamOp.write ∈ y.outstanding) {ok : Bool} {msg : SignedMessage}
    {r : Session × List Note}
    (hwrite : (y.deliver .write ok msg).handleWriteCompletion ok = some r) : InOrder r.1 := by
  have hactive := h.active_of_write hphase hpending
  have hclosing := (h.active hactive).2.1
  have hread : (y.outstanding.erase .write).count .read ≤ 1 :=
    (List.erase_sublist.count_le _).trans h.reads
  have hnone : (y.outstanding.erase .write).count .write = 0 := by
    rw [List.count_erase_self]
    have := h.writes
    omega
  have hsettled : InOrder (y.deliver .write ok msg).finishIfClosing.1 := by
    rw [finishIfClosing_of_open (y := y.deliver .write ok msg) hclosing]
    refine ⟨fun hne => absurd hphase hne, h.last, hread, hnone.le.trans (Nat.zero_le 1),
      fun _ => ⟨hnone, rfl, (h.active hactive).2.2⟩, fun _ hinactive => ?_⟩
    have hinactive' : y.sessionActive = false := hinactive
    simp [hactive] at hinactive'
  unfold Session.handleWriteCompletion at hwrite
  split at hwrite
  · obtain rfl := Option.some.inj hwrite
    exact hsettled
  · split at hwrite
    · cases hwrite
    · obtain rfl := Option.some.inj hwrite
      exact hsettled
    · obtain rfl := Option.some.inj hwrite
      have hwp := h.writePending hactive hmem
      refine ⟨fun hne => absurd hphase hne, ?_, ?_, ?_, ?_, ?_⟩
      · simp [Session.write, Session.issue, PendingOp.op]
      · exact (count_issue_of_ne _ (by decide)).trans_le hread
      · simp [Session.write, Session.issue, Session.deliver, hnone]
      · simp [Session.write, Session.issue, Session.deliver, hnone, hwp, hclosing]
      · simp [Session.write, Session.issue, Session.deliver, hactive]

theorem InOrder.handled {authentic : SignedMessage → Bool} {y y' : Session} (h : InOrder y)
    {op : StreamOp} {ok : Bool} {msg : SignedMessage} {notes : List Note}
    (hmem : op ∈ y.outstanding)
    (horder : y.streamConnectPhase = .streaming → y.issued.getLast? = some op)
    (hstep : SessionHandled authentic (y.deliver op ok msg) ok y' notes) : InOrder y' := by
  have hop : y.streamConnectPhase = .streaming → op = y.pending.op := h.op_eq horder
  have hconnecting : y.streamConnectPhase ≠ .streaming → Connecting (y.deliver op ok msg) :=
    fun hphase => (h.connecting hphase).deliver op ok msg
  cases hstep with
  | initial hphase =>
      have hphase' : y.streamConnectPhase = .initial := hphase
      have hc := hconnecting (by simp [hphase'])
      refine Connecting.inOrder { hc with noRead := ?_, noWrite := ?_ } ?_
      · simp [Session.acceptNext, Session.bind, Session.issue, hc.noRead]
      · simp [Session.acceptNext, Session.bind, Session.issue, hc.noWrite]
      · simp [Session.acceptNext, Session.bind, Session.issue]
  | connectFailed hphase hrunning =>
      have hphase' : y.streamConnectPhase = .accepted := hphase
      have hc := hconnecting (by simp [hphase'])
      refine Connecting.inOrder { hc with inactive := rfl } ?_
      change y.streamConnectPhase ≠ .streaming
      simp [hphase']
  | connected hphase hrunning =>
      have hphase' : y.streamConnectPhase = .accepted := hphase
      have hc := hconnecting (by simp [hphase'])
      constructor <;>
        simp [Session.onStreamRpcConnected, Session.read, Session.issue, hc.writePending,
          hc.closing, hc.noRead, hc.noWrite, PendingOp.op]
  | readClosed hphase hpending hrunning =>
      obtain rfl : op = .read := (hop hphase).trans (congrArg PendingOp.op hpending)
      have hd := h.deliver (by simp : StreamOp.read ≠ .write) ok msg
      exact hd.closeAfterReads hphase hpending h.count_erase_read
  | rejected hphase hpending hrunning hauth =>
      obtain rfl : op = .read := (hop hphase).trans (congrArg PendingOp.op hpending)
      have hd := h.deliver (by simp : StreamOp.read ≠ .write) ok msg
      exact hd.closeWithStatus hphase h.count_erase_read _
  | taken hphase hpending hrunning hauth looped =>
      obtain rfl : op = .read := (hop hphase).trans (congrArg PendingOp.op hpending)
      have hd := h.deliver (by simp : StreamOp.read ≠ .write) ok msg
      exact hd.take (h.active_of_read hphase hmem) h.count_erase_read looped
  | writeDone hphase hpending r hwrite =>
      obtain rfl : op = .write := (hop hphase).trans (congrArg PendingOp.op hpending)
      exact h.writeCompletion hphase hpending hmem hwrite
  | finished hphase hpending =>
      have hop' : op = .finish := (hop hphase).trans (congrArg PendingOp.op hpending)
      subst hop'
      have hd := h.deliver (by simp : StreamOp.finish ≠ .write) ok msg
      have hinactive : y.sessionActive = false := by
        by_contra hactive
        exact (h.active (by simpa using hactive)).2.2 hpending
      refine inOrder_closed hphase rfl (hd.last hphase) (hd.inactive hphase hinactive).1
        hd.writes ?_
      change y.pending ≠ .write
      rw [show y.pending = .finish from hpending]
      simp

theorem InOrder.disturbed {y y' : Session} {notes : List Note} (h : InOrder y)
    (hstep : Disturbed y y' notes) : InOrder y' := by
  cases hstep with
  | idle => exact h
  | forwarded _ msg hactive => exact h.enqueueOutgoing hactive msg
  | primed => exact inOrder_prime

/-- A session whose completions have all reached their own handler. -/
structure Attributed (x : ℕ) (s : Server) : Prop where
  fresh : Fresh s
  inOrder : InOrder (s.sessions x)
  completed : ∀ op k, Note.completed op k ∈ s.history x → op = k.op

section Run

variable {κ : Type*} {env : AuthEnv κ} {store : AuthStore κ}

theorem attributed_start (x : ℕ) : Attributed x Server.start := by
  refine ⟨fresh_start, ?_, fun op k hmem => absurd hmem List.not_mem_nil⟩
  unfold Server.start
  dsimp only
  by_cases hx : x = 0
  · subst hx
    simpa using inOrder_prime
  · simpa [hx] using inOrder_create

theorem InIssueOrder.last {x : ℕ} {s : Server} {op : StreamOp} {ok : Bool} {msg : SignedMessage}
    (h : InIssueOrder x s (.complete x op ok msg)) :
    (s.sessions x).streamConnectPhase = .streaming →
      (s.sessions x).issued.getLast? = some op :=
  h rfl

theorem Attributed.step {x : ℕ} {s t : Server} {e : Event} (hs : Attributed x s)
    (horder : InIssueOrder x s e) (h : s.step env store e = some t) : Attributed x t := by
  rcases step_session hs.fresh h x with
    ⟨op, ok, msg, rfl, hmem, notes, hhistory, hhandled⟩ | ⟨-, notes, hhistory, hdisturbed⟩
  · refine ⟨hs.fresh.step h, hs.inOrder.handled hmem horder.last hhandled, ?_⟩
    intro op' k hcompleted
    rw [hhistory, List.mem_append, List.mem_append] at hcompleted
    rcases hcompleted with (hold | hnew) | hnotes
    · exact hs.completed op' k hold
    · have hstreaming : (s.sessions x).streamConnectPhase = .streaming ∧
          op' = op ∧ k = (s.sessions x).pending := by
        unfold Session.deliverNotes at hnew
        split at hnew <;> split at hnew <;> simp_all
      obtain ⟨hphase, rfl, rfl⟩ := hstreaming
      exact hs.inOrder.op_eq horder.last hphase
    · exact absurd (hhandled.no_arrival hnotes) (by simp [Note.isArrival])
  · refine ⟨hs.fresh.step h, hs.inOrder.disturbed hdisturbed, ?_⟩
    intro op k hcompleted
    rw [hhistory, List.mem_append] at hcompleted
    rcases hcompleted with hold | hnotes
    · exact hs.completed op k hold
    · exact absurd (hdisturbed.no_arrival hnotes) (by simp [Note.isArrival])

/-- While the completions of a session arrive in the order of issue, each of them
reaches the handler of its own operation, and never are two reads or two writes
outstanding. -/
theorem completions_reach_their_handlers (env : AuthEnv κ) (store : AuthStore κ) (x : ℕ)
    (es : List Event) (s : Server)
    (hrun : run (Server.step env store) Server.start es = some s)
    (horder : AllSteps (Server.step env store) (InIssueOrder x) Server.start es) :
    (∀ op k, Note.completed op k ∈ s.history x → op = k.op) ∧
      (s.sessions x).outstanding.count .read ≤ 1 ∧
      (s.sessions x).outstanding.count .write ≤ 1 := by
  have h : Attributed x s :=
    run_invariant_of_allSteps (fun _ _ _ hs he hstep => hs.step he hstep) (attributed_start x)
      horder hrun
  exact ⟨h.completed, h.inOrder.reads, h.inOrder.writes⟩

end Run

/-- Three peers that sign with their own id, and payloads that are the recipient. -/
def sampleEnv : AuthEnv Bytes :=
  { digestVerify := fun key _ signature => if signature = key then 1 else 0
    parseMessageData := fun data => some { recipientId := data } }

def sampleStore : AuthStore Bytes :=
  { selfId := [9]
    peers := ((AList.insert [1] [1] ∅).insert [2] [2]).insert [3] [3] }

def signedBy (peer recipient : Bytes) : SignedMessage :=
  { senderId := peer, signature := peer, senderCert := [], data := recipient, ttl := 4 }

/-- The echo of a message is on its way while the session reads another one, for
an unknown peer: the reads complete in order, with a write beside them. -/
theorem completions_reach_their_handlers_sample :
    ∃ s, run (Server.step sampleEnv sampleStore) Server.start
        [.complete 0 .request true default, .complete 0 .read true (signedBy [1] []),
          .complete 0 .read true (signedBy [1] [2])] = some s ∧
      (s.sessions 0).outstanding.count .read = 1 ∧ (s.sessions 0).outstanding.count .write = 1 ∧
      ∀ op k, Note.completed op k ∈ s.history 0 → op = k.op :=
  ⟨_, rfl, by decide, by decide, (completions_reach_their_handlers sampleEnv sampleStore 0
    [.complete 0 .request true default, .complete 0 .read true (signedBy [1] []),
      .complete 0 .read true (signedBy [1] [2])] _ rfl (by decide)).1⟩

/-- The echo of a message is on its way when the next read is issued, and the
completion of that write is handled as a read: two reads are outstanding. -/
theorem write_completion_handled_as_read :
    ∃ s, run (Server.step sampleEnv sampleStore) Server.start
        [.complete 0 .request true default, .complete 0 .read true (signedBy [1] []),
          .complete 0 .write true default] = some s ∧
      Note.completed .write .read ∈ s.history 0 ∧
      (s.sessions 0).outstanding.count .read = 2 :=
  ⟨_, rfl, by decide, by decide⟩

end Message

end DistStorage
