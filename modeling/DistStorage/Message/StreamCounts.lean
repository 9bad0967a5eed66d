import DistStorage.Message.StreamQueue

/-!
# How often a message is sent

A message of a client goes through three hands: the session that reads it dispatches it,
a session accepts it into its queue, and this session writes it. No step makes two of one.
What a session writes is part of what it has accepted, in that order, whatever order the
completions arrive in. Each dispatch leads to one acceptance at most, at one session. While
the completions of the sessions arrive in the order of issue, each message that was read is
dispatched once at most, so that no message is sent more often than it was read.
-/

namespace DistStorage

namespace Message

open Proto Peer Transition

/-- What a session has written, with what it has still to write, is part of what it has
accepted. -/
structure WritesPart (y : Session) (h : List Note) : Prop where
  idle : y.writePending = false → y.outbound = []
  part : (h.filterMap Note.writtenMsg ++ y.outbound.tail).Sublist
    (h.filterMap Note.acceptedMsg)

theorem WritesPart.frame {y y' : Session} {h notes : List Note} (hw : WritesPart y h)
    (hout : y'.outbound = y.outbound) (hwp : y'.writePending = y.writePending)
    (hsilent : Silent notes) : WritesPart y' (h ++ notes) := by
  refine ⟨fun hidle => hout.trans (hw.idle (hwp ▸ hidle)), ?_⟩
  rw [List.filterMap_append, List.filterMap_append, hsilent.1, hsilent.2, List.append_nil,
    List.append_nil, hout]
  exact hw.part

theorem WritesPart.drop {y y' : Session} {h notes : List Note} (hw : WritesPart y h)
    (hout : y'.outbound = []) (hsilent : Silent notes) : WritesPart y' (h ++ notes) := by
  refine ⟨fun _ => hout, ?_⟩
  rw [List.filterMap_append, List.filterMap_append, hsilent.1, hsilent.2, List.append_nil,
    List.append_nil, hout, List.tail_nil, List.append_nil]
  exact (List.sublist_append_left _ _).trans hw.part

theorem WritesPart.enqueueOutgoing {y : Session} {h : List Note} (hw : WritesPart y h)
    (msg : SignedMessage) :
    WritesPart (y.enqueueOutgoing msg).1 (h ++ (y.enqueueOutgoing msg).2) := by
  cases hwp : y.writePending with
  | true =>
      rw [enqueueOutgoing_of_pending hwp]
      refine ⟨fun hidle => absurd (hwp.symm.trans hidle) (by decide), ?_⟩
      have htail : ((y.outbound ++ [msg]).tail).Sublist (y.outbound.tail ++ [msg]) := by
        cases y.outbound with
        | nil => exact List.nil_sublist _
        | cons first rest => exact .refl _
      have hsilent : ([Note.accepted msg] : List Note).filterMap Note.writtenMsg = [] := rfl
      rw [List.filterMap_append, List.filterMap_append, hsilent, List.append_nil]
      refine (htail.append_left _).trans ?_
      rw [← List.append_assoc]
      exact hw.part.append_right [msg]
  | false =>
      rw [enqueueOutgoing_of_idle hwp, hw.idle hwp]
      refine ⟨fun hidle => absurd hidle (by simp [Session.issue]), ?_⟩
      have hpart := hw.part
      rw [hw.idle hwp, List.tail_nil, List.append_nil] at hpart
      rw [List.filterMap_append, List.filterMap_append]
      exact (List.append_nil _).symm ▸ hpart.append_right [msg]

theorem WritesPart.finishIfClosing {y : Session} {h : List Note} (hw : WritesPart y h) :
    WritesPart y.finishIfClosing.1 (h ++ y.finishIfClosing.2) := by
  unfold Session.finishIfClosing
  dsimp only
  split
  · exact hw.drop rfl ⟨rfl, rfl⟩
  · exact hw.drop rfl ⟨rfl, rfl⟩

theorem WritesPart.writeCompletion {y : Session} {h : List Note} (hw : WritesPart y h) {ok : Bool}
    {r : Session × List Note} (hwrite : y.handleWriteCompletion ok = some r) :
    WritesPart r.1 (h ++ r.2) := by
  unfold Session.handleWriteCompletion at hwrite
  split at hwrite
  · obtain rfl := Option.some.inj hwrite
    exact hw.finishIfClosing
  · split at hwrite
    · cases hwrite
    · obtain rfl := Option.some.inj hwrite
      exact hw.finishIfClosing
    · next first next rest hout =>
        obtain rfl := Option.some.inj hwrite
        have hpart := hw.part
        refine ⟨fun hidle => ?_, ?_⟩
        · have hnone := hw.idle hidle
          rw [hout] at hnone
          cases hnone
        · rw [hout] at hpart
          change ((h ++ [Note.written next]).filterMap Note.writtenMsg ++ rest).Sublist
            ((h ++ [Note.written next]).filterMap Note.acceptedMsg)
          have hsilent : ([Note.written next] : List Note).filterMap Note.acceptedMsg = [] := rfl
          rw [List.filterMap_append, List.filterMap_append, hsilent, List.append_nil,
            List.append_assoc]
          exact hpart

theorem WritesPart.handled {authentic : SignedMessage → Bool} {y y' : Session}
    {h notes : List Note} (hw : WritesPart y h) {running : Bool}
    (hstep : SessionHandled authentic y running y' notes) : WritesPart y' (h ++ notes) := by
  cases hstep with
  | initial | connectFailed | connected | finished => exact hw.frame rfl rfl ⟨rfl, rfl⟩
  | readClosed =>
      unfold Session.closeAfterReads
      dsimp only
      split <;> exact hw.drop rfl ⟨rfl, rfl⟩
  | rejected => exact hw.drop rfl ⟨rfl, rfl⟩
  | taken _ _ _ _ looped =>
      have hnoted : WritesPart { y with registeredPeerId := y.request.senderId }
          (h ++ [.authenticated y.request true, .dispatched y.request]) :=
        hw.frame rfl rfl ⟨rfl, rfl⟩
      cases looped with
      | false => exact ⟨hnoted.idle, hnoted.part⟩
      | true =>
          have hqueued := hnoted.enqueueOutgoing y.request
          rw [List.append_assoc] at hqueued
          exact ⟨hqueued.idle, hqueued.part⟩
  | writeDone _ _ r hwrite => exact hw.writeCompletion hwrite

theorem WritesPart.disturbed {y y' : Session} {h notes : List Note} (hw : WritesPart y h)
    (hstep : Disturbed y y' notes) : WritesPart y' (h ++ notes) := by
  cases hstep with
  | idle => exact hw.frame rfl rfl ⟨rfl, rfl⟩
  | forwarded _ msg hactive => exact hw.enqueueOutgoing msg
  | primed => exact hw.frame rfl rfl ⟨rfl, rfl⟩

section Counts

def Server.times (s : Server) (n : Note) : ℕ := s.log.countP fun entry => entry.2 = n

/-- What holds of each session holds of all together. -/
theorem times_le {s : Server} {n n' : Note}
    (h : ∀ x, (s.history x).count n ≤ (s.history x).count n') : s.times n ≤ s.times n' := by
  have hcount : ∀ (n : Note) (x : ℕ),
      ((s.log.filter fun entry => entry.2 = n).map Prod.fst).count x = (s.history x).count n := by
    intro n x
    unfold Server.history
    induction s.log with
    | nil => rfl
    | cons entry log ih =>
        obtain ⟨z, n'⟩ := entry
        by_cases hz : z = x <;> by_cases hn : n' = n <;> simp [hz, hn, ih]
  have hsub : ((s.log.filter fun entry => entry.2 = n).map Prod.fst).Subperm
      ((s.log.filter fun entry => entry.2 = n').map Prod.fst) := by
    refine List.subperm_iff_count.mpr fun x => ?_
    rw [hcount, hcount]
    exact h x
  have hlength := hsub.length_le
  rwa [List.length_map, List.length_map, ← List.countP_eq_length_filter,
    ← List.countP_eq_length_filter] at hlength

theorem times_act (s : Server) (x : ℕ) (r : Session × List Note) (n : Note) :
    (s.act x r).times n = s.times n + r.2.count n := by
  rw [Server.times, act_log, List.countP_append, List.countP_map]
  rfl

theorem times_eq_of_log_eq {s t : Server} (h : t.log = s.log) (n : Note) :
    t.times n = s.times n := by
  rw [Server.times, h]
  rfl

/-- From one state to the next a message is accepted no more often than dispatched. -/
def Balanced (msg : SignedMessage) (s t : Server) : Prop :=
  t.times (.accepted msg) + s.times (.dispatched msg) ≤
    s.times (.accepted msg) + t.times (.dispatched msg)

theorem Balanced.trans {msg : SignedMessage} {s t u : Server} (h : Balanced msg s t)
    (h' : Balanced msg t u) : Balanced msg s u := by
  unfold Balanced at h h' ⊢
  omega

theorem balanced_of_log_eq {s t : Server} (h : t.log = s.log) (msg : SignedMessage) :
    Balanced msg s t := by
  rw [Balanced, times_eq_of_log_eq h, times_eq_of_log_eq h]

theorem balanced_act {msg : SignedMessage} {s : Server} {x : ℕ} {r : Session × List Note}
    (h : Note.accepted msg ∉ r.2) : Balanced msg s (s.act x r) := by
  rw [Balanced, times_act, times_act, List.count_eq_zero.mpr h]
  omega

theorem balanced_sending {msg : SignedMessage} {s : Server} {x : ℕ} {r : Session × List Note}
    (h : ∀ n ∈ r.2, n.isSending = true) : Balanced msg s (s.act x r) :=
  balanced_act fun hmem => absurd (h _ hmem) (by simp [Note.isSending])

theorem times_enqueueOutgoing (s : Server) (x : ℕ) (msg msg' : SignedMessage) :
    (s.act x ((s.sessions x).enqueueOutgoing msg)).times (.accepted msg') =
        s.times (.accepted msg') + (if msg = msg' then 1 else 0) ∧
      (s.act x ((s.sessions x).enqueueOutgoing msg)).times (.dispatched msg') =
        s.times (.dispatched msg') := by
  rw [times_act, times_act]
  cases hwp : (s.sessions x).writePending with
  | true =>
      rw [enqueueOutgoing_of_pending hwp]
      by_cases h : msg = msg' <;> simp [h]
  | false =>
      rw [enqueueOutgoing_of_idle hwp]
      by_cases h : msg = msg' <;> simp [h]

theorem Delivery.balanced {κ : Type*} {store : AuthStore κ} {s t : Server} {x : ℕ}
    {data : MessageData} (h : Delivery store (s.admitSender x) x (s.sessions x).request data t)
    (msg : SignedMessage) : Balanced msg s t := by
  have hadmit : ∀ n : Note, (s.admitSender x).times n = s.times n +
      [Note.authenticated (s.sessions x).request true, .dispatched (s.sessions x).request].count
        n := by
    intro n
    unfold Server.admitSender
    simp only [Server.note, Server.modify, times_act, List.count_nil, Nat.add_zero,
      times_eq_of_log_eq (registerSession_log _ _ _)]
    rw [Nat.add_assoc, ← List.count_append]
    rfl
  have haccepted := hadmit (.accepted msg)
  have hdispatched := hadmit (.dispatched msg)
  have hsent : ∀ z, Balanced msg s ((s.admitSender x).act z
      (((s.admitSender x).sessions z).enqueueOutgoing (s.sessions x).request)) := by
    intro z
    obtain ⟨hone, hnone⟩ := times_enqueueOutgoing (s.admitSender x) z (s.sessions x).request msg
    rw [Balanced, hone, hnone, haccepted, hdispatched]
    by_cases h : (s.sessions x).request = msg
    · simp [h]
      omega
    · simp [h]
  have hkept : Balanced msg s (s.admitSender x) := by
    rw [Balanced, haccepted, hdispatched]
    by_cases h : (s.sessions x).request = msg <;> simp [h]
  cases h with
  | deliverLocal => exact hsent x
  | forwarded _ _ z => exact hsent z
  | unknown => exact hkept
  | stale => exact hkept.trans (balanced_of_log_eq (unregisterSession_log _ _) msg)

theorem Handled.balanced {κ : Type*} {env : AuthEnv κ} {store : AuthStore κ} {s t : Server}
    {x : ℕ} {running : Bool} (h : Handled env store s x running t) (msg : SignedMessage) :
    Balanced msg s t := by
  have hdeact : Balanced msg s (s.deactivate x) := balanced_of_log_eq (deactivate_log s x) msg
  cases h with
  | initial => exact balanced_of_log_eq (modify_log s x _) msg
  | connectFailed => exact hdeact.trans (balanced_of_log_eq (modify_log _ x _) msg)
  | connected =>
      refine balanced_of_log_eq ?_ msg
      simp [Server.cloneAcceptorForNextRequest]
  | readClosed => exact hdeact.trans (balanced_sending fun n hn => closeAfterReads_notes hn)
  | rejected =>
      refine Balanced.trans (balanced_act (by simp)) (Balanced.trans
        (balanced_of_log_eq (deactivate_log _ x) msg)
        (balanced_sending fun n hn => closeWithStatus_notes hn))
  | taken _ _ _ data _ u hdelivery =>
      exact (hdelivery.balanced msg).trans (balanced_of_log_eq (modify_log u x _) msg)
  | writeDone _ _ r hwrite =>
      exact balanced_sending fun n hn => handleWriteCompletion_notes hwrite hn
  | finished => exact hdeact.trans (balanced_of_log_eq (modify_log _ x _) msg)

theorem balanced_step {κ : Type*} {env : AuthEnv κ} {store : AuthStore κ} {s t : Server}
    {e : Event} (h : s.step env store e = some t) (msg : SignedMessage) : Balanced msg s t := by
  cases e with
  | getChannel peerId =>
      obtain rfl : (s.getChannel peerId).1 = t := Option.some.inj h
      rcases getChannel_eq s peerId with hsame | hsame <;> rw [hsame] <;>
        exact balanced_of_log_eq rfl msg
  | complete x op ok msg' =>
      refine Balanced.trans (balanced_act fun hmem => ?_) ((step_complete h).2.2.balanced msg)
      unfold Session.deliverNotes at hmem
      split at hmem <;> split at hmem <;> simp at hmem

end Counts

section Run

variable {κ : Type*} {env : AuthEnv κ} {store : AuthStore κ}

/-- Every completion of a stream is that of the operation that its session has issued
last. -/
def AllInIssueOrder (s : Server) : Event → Prop
  | .complete x op ok msg => InIssueOrder x s (.complete x op ok msg)
  | .getChannel _ => True

instance (s : Server) : (e : Event) → Decidable (AllInIssueOrder s e)
  | .complete x op ok msg => inferInstanceAs (Decidable (InIssueOrder x s (.complete x op ok msg)))
  | .getChannel _ => .isTrue trivial

theorem AllInIssueOrder.session {s : Server} {e : Event} (h : AllInIssueOrder s e) (x : ℕ) :
    InIssueOrder x s e := by
  cases e with
  | complete z op ok msg => exact fun hz => by subst hz; exact h rfl
  | getChannel peerId => exact trivial

theorem writesPart_step {s t : Server} {e : Event}
    (hs : Fresh s ∧ ∀ x, WritesPart (s.sessions x) (s.history x))
    (h : s.step env store e = some t) :
    Fresh t ∧ ∀ x, WritesPart (t.sessions x) (t.history x) := by
  refine ⟨hs.1.step h, fun x => ?_⟩
  rcases step_session hs.1 h x with
    ⟨op, ok, msg, rfl, hmem, notes, hhistory, hhandled⟩ | ⟨-, notes, hhistory, hdisturbed⟩ <;>
  rw [hhistory]
  · have hdelivered : WritesPart ((s.sessions x).deliver op ok msg)
        (s.history x ++ (s.sessions x).deliverNotes op ok msg) :=
      (hs.2 x).frame rfl rfl (silent_deliverNotes _ op ok msg)
    exact hdelivered.handled hhandled
  · exact (hs.2 x).disturbed hdisturbed

theorem writesPart_start (x : ℕ) :
    WritesPart (Server.start.sessions x) (Server.start.history x) := by
  have hidle : (Server.start.sessions x).outbound = [] := by
    unfold Server.start
    dsimp only
    by_cases hx : x = 0
    · subst hx
      rfl
    · simp [hx, Session.create]
  exact ⟨fun _ => hidle, by rw [hidle]; exact List.nil_sublist _⟩

theorem readOrder_step {x : ℕ} {s t : Server} {e : Event}
    (hs : Attributed x s ∧ ReadOrder (Authentic env store) (s.history x))
    (horder : InIssueOrder x s e) (h : s.step env store e = some t) :
    Attributed x t ∧ ReadOrder (Authentic env store) (t.history x) := by
  refine ⟨hs.1.step horder h, ?_⟩
  rcases step_session hs.1.fresh h x with
    ⟨op, ok, msg, rfl, hmem, notes, hhistory, hhandled⟩ | ⟨-, notes, hhistory, hdisturbed⟩ <;>
  rw [hhistory]
  · exact hs.2.handled hs.1.inOrder hmem horder.last hhandled
  · exact hs.2.disturbed hdisturbed

theorem count_filterMap {β : Type*} [DecidableEq β] {f : Note → Option β} {g : β → Note}
    (hf : ∀ n b, f n = some b ↔ n = g b) (h : List Note) (b : β) :
    (h.filterMap f).count b = h.count (g b) := by
  induction h with
  | nil => rfl
  | cons n h ih =>
      rw [List.count_cons, ← ih]
      cases hn : f n with
      | none =>
          have hne : n ≠ g b := fun heq => by simp [(hf n b).mpr heq] at hn
          simp [hn, hne]
      | some b' =>
          obtain rfl := (hf n b').mp hn
          have hiff : g b' = g b ↔ b' = b := by rw [← hf, hn, Option.some_inj]
          rw [List.filterMap_cons_some hn, List.count_cons]
          by_cases hb : b' = b <;> simp [hb, hiff]

/-- No step makes two messages of one: in every run a session writes part of what it has
accepted, in that order, and no message is accepted more often than it was dispatched. In a
run in which all completions arrive in the order of issue, no message is written more often
than it was read. -/
theorem written_le_received (env : AuthEnv κ) (store : AuthStore κ) (es : List Event)
    (s : Server) (hrun : run (Server.step env store) Server.start es = some s) :
    (∀ x, ((s.history x).filterMap Note.writtenMsg).Sublist
        ((s.history x).filterMap Note.acceptedMsg)) ∧
      (∀ msg, s.times (.accepted msg) ≤ s.times (.dispatched msg)) ∧
      (AllSteps (Server.step env store) AllInIssueOrder Server.start es →
        ∀ msg, s.times (.written msg) ≤ s.times (.received msg)) := by
  have hpart : ∀ x, WritesPart (s.sessions x) (s.history x) :=
    (run_invariant (fun _ _ _ hs hstep => writesPart_step hs hstep)
      ⟨fresh_start, writesPart_start⟩ hrun).2
  have hsub : ∀ x, ((s.history x).filterMap Note.writtenMsg).Sublist
      ((s.history x).filterMap Note.acceptedMsg) :=
    fun x => (List.sublist_append_left _ _).trans (hpart x).part
  have hbalance : ∀ msg, s.times (.accepted msg) ≤ s.times (.dispatched msg) := fun msg =>
    run_invariant (I := fun s => s.times (.accepted msg) ≤ s.times (.dispatched msg))
      (fun s e t hs hstep => by
        have := balanced_step hstep msg
        unfold Balanced at this
        omega) (le_of_eq rfl) hrun
  refine ⟨hsub, hbalance, fun hall msg => ?_⟩
  have hwritten : s.times (.written msg) ≤ s.times (.accepted msg) := by
    refine times_le fun x => ?_
    have hcount := (hsub x).count_le msg
    rwa [count_filterMap (g := .written) (by intro n b; cases n <;> simp [Note.writtenMsg]),
      count_filterMap (g := .accepted) (by intro n b; cases n <;> simp [Note.acceptedMsg])]
      at hcount
  have hdispatched : s.times (.dispatched msg) ≤ s.times (.received msg) := by
    refine times_le fun x => ?_
    have hread : ReadOrder (Authentic env store) (s.history x) :=
      (run_invariant_of_allSteps (fun _ _ _ hs he hstep => readOrder_step hs he hstep)
        ⟨attributed_start x, rfl, rfl⟩
        (hall.imp (I := fun _ => True) (fun _ _ _ _ _ _ => trivial)
          (fun _ _ _ h => h.session x) trivial) hrun).2
    have hcount : ((s.history x).filterMap Note.dispatchedMsg).count msg ≤
        ((s.history x).filterMap Note.receivedMsg).count msg := by
      rw [hread.dispatched]
      exact List.filter_sublist.count_le msg
    rwa [count_filterMap (g := .dispatched) (by intro n b; cases n <;> simp [Note.dispatchedMsg]),
      count_filterMap (g := .received) (by intro n b; cases n <;> simp [Note.receivedMsg])]
      at hcount
  exact hwritten.trans ((hbalance msg).trans hdispatched)

end Run

/-- A message for the server itself is read once and echoed once. -/
theorem written_le_received_sample :
    ∃ s, run (Server.step sampleEnv sampleStore) Server.start
        [.complete 0 .request true default, .complete 0 .read true (signedBy [1] [9])] = some s ∧
      s.times (.written (signedBy [1] [9])) = 1 ∧
      s.times (.written (signedBy [1] [9])) ≤ s.times (.received (signedBy [1] [9])) :=
  ⟨_, rfl, by decide, (written_le_received sampleEnv sampleStore
    [.complete 0 .request true default, .complete 0 .read true (signedBy [1] [9])] _ rfl).2.2
    (by decide) (signedBy [1] [9])⟩

end Message

end DistStorage
