import DistStorage.Message.SessionRun

/-!
# The queue of a session

When every completion has the handler of its own operation, the message at the
front of the queue is the one being written, and `write_pending_` says whether one
is. That fails as soon as a read ends the session while a write is outstanding,
for then the queue is emptied under the write; and it fails in no other way.
-/

namespace DistStorage

namespace Message

open Proto Transition

/-- The message given to the last Write. -/
def lastWritten (notes : List Note) : Option SignedMessage :=
  (notes.filterMap Note.writtenMsg).getLast?

theorem lastWritten_append (l l' : List Note) :
    lastWritten (l ++ l') = (lastWritten l').or (lastWritten l) := by
  rw [lastWritten, List.filterMap_append, List.getLast?_append]
  rfl

/-- A Write is outstanding exactly if `write_pending_` is set, and then its message is
at the front of the queue. -/
structure WritesFront (s : Session × List Note) : Prop where
  writing : .write ∈ s.1.outstanding → s.1.writePending = true ∧ s.1.outbound ≠ [] ∧
    s.1.outbound.head? = lastWritten s.2
  idle : .write ∉ s.1.outstanding → s.1.writePending = false

/-- A read completion that ends the session arrives while no Write is outstanding. -/
def EndsIdle (s : Session × List Note) : SessionEvent → Prop
  | .complete .read ok _ verdict => ok = false ∨ verdict = none → .write ∉ s.1.outstanding
  | _ => True

instance (s : Session × List Note) : (e : SessionEvent) → Decidable (EndsIdle s e)
  | .complete .read ok _ verdict => inferInstanceAs (Decidable (ok = false ∨ verdict = none → _))
  | .complete .request _ _ _ | .complete .write _ _ _ | .complete .finish _ _ _ | .enqueue _ =>
      .isTrue trivial

/-- The same with one Write at a time. -/
structure WritesOne (s : Session × List Note) : Prop extends WritesFront s where
  single : s.1.outstanding.count .write ≤ 1

section Functions

variable {y : Session} {history : List Note}

/-- Changes that leave the queue and the writes alone. -/
theorem WritesOne.congr {y' : Session} {notes : List Note} (h : WritesOne (y, history))
    (hwrites : y'.outstanding.count .write = y.outstanding.count .write)
    (hpending : y'.writePending = y.writePending) (houtbound : y'.outbound = y.outbound)
    (hnotes : lastWritten notes = none) : WritesOne (y', history ++ notes) := by
  have hmem : .write ∈ y'.outstanding ↔ .write ∈ y.outstanding := by
    rw [← List.count_pos_iff, ← List.count_pos_iff, hwrites]
  refine ⟨⟨fun hw => ?_, fun hw => ?_⟩, hwrites.trans_le h.single⟩
  · obtain ⟨hwp, hne, hfront⟩ := h.writing (hmem.mp hw)
    refine ⟨hpending.trans hwp, houtbound.symm ▸ hne, ?_⟩
    rw [lastWritten_append, hnotes, Option.none_or, houtbound]
    exact hfront
  · exact hpending.trans (h.idle fun hw' => hw (hmem.mpr hw'))

theorem WritesOne.enqueueOutgoing (h : WritesOne (y, history)) (msg : SignedMessage) :
    WritesOne ((y.enqueueOutgoing msg).1, history ++ (y.enqueueOutgoing msg).2) := by
  cases hwp : y.writePending with
  | true =>
      have hw : .write ∈ y.outstanding := by
        by_contra hw
        exact absurd (hwp.symm.trans (h.idle hw)) (by simp)
      obtain ⟨-, hne, hfront⟩ := h.writing hw
      rw [enqueueOutgoing_of_pending hwp]
      refine ⟨⟨fun _ => ⟨hwp, by simp, ?_⟩, fun hw' => absurd hw hw'⟩, h.single⟩
      change (y.outbound ++ [msg]).head? = _
      rw [List.head?_append_of_ne_nil _ hne, lastWritten_append]
      exact hfront
  | false =>
      have hw : .write ∉ y.outstanding := by
        intro hw
        exact absurd ((h.writing hw).1.symm.trans hwp) (by simp)
      rw [enqueueOutgoing_of_idle hwp]
      refine ⟨⟨fun _ => ⟨rfl, by simp [Session.issue], ?_⟩, fun hw' => ?_⟩, ?_⟩
      · change (y.outbound ++ [msg]).head? = _
        rw [lastWritten_append]
        cases y.outbound <;> rfl
      · exact absurd (List.mem_append_right _ List.mem_cons_self) hw'
      · simp [Session.issue, List.count_eq_zero_of_not_mem hw]

theorem WritesOne.of_idle (hw : .write ∉ y.outstanding) (hwp : y.writePending = false) :
    WritesOne (y, history) :=
  ⟨⟨fun hw' => absurd hw' hw, fun _ => hwp⟩, by simp [List.count_eq_zero_of_not_mem hw]⟩

theorem not_mem_finish (status : Status) (hw : .write ∉ y.outstanding) :
    .write ∉ (y.finish status).1.outstanding := by
  simpa [Session.finish, Session.issue] using hw

theorem writesOne_finishIfClosing (hw : .write ∉ y.outstanding) :
    WritesOne (y.finishIfClosing.1, history) := by
  unfold Session.finishIfClosing
  dsimp only
  split
  · exact .of_idle (not_mem_finish .ok hw) rfl
  · exact .of_idle hw rfl

theorem writesOne_closeAfterReads (hw : .write ∉ y.outstanding) (hwp : y.writePending = false) :
    WritesOne (y.closeAfterReads.1, history) := by
  unfold Session.closeAfterReads
  dsimp only
  rw [if_pos (by simpa using hwp)]
  exact .of_idle (not_mem_finish .ok hw) hwp

theorem WritesOne.handleWriteCompletion {ok : Bool} {msg : SignedMessage} {notes : List Note}
    {r : Session × List Note} (h : WritesOne (y, history)) (hw : .write ∈ y.outstanding)
    (hr : (y.deliver .write ok msg).handleWriteCompletion ok = some r) :
    WritesOne (r.1, history ++ notes ++ r.2) := by
  have hnone : .write ∉ (y.deliver .write ok msg).outstanding := by
    rw [← List.count_eq_zero]
    change (y.outstanding.erase .write).count .write = 0
    have hsingle : y.outstanding.count .write ≤ 1 := h.single
    rw [List.count_erase_self]
    omega
  unfold Session.handleWriteCompletion at hr
  split at hr
  · obtain rfl := Option.some.inj hr
    exact writesOne_finishIfClosing hnone
  · split at hr
    · cases hr
    · obtain rfl := Option.some.inj hr
      exact writesOne_finishIfClosing hnone
    · obtain rfl := Option.some.inj hr
      refine ⟨⟨fun _ => ⟨(h.writing hw).1, by simp [Session.write, Session.issue], ?_⟩,
        fun hw' => ?_⟩, ?_⟩
      · rw [lastWritten_append]
        rfl
      · exact absurd (List.mem_append_right _ List.mem_cons_self) hw'
      · simp [Session.write, Session.issue, List.count_eq_zero_of_not_mem hnone]

theorem WritesOne.deliver_read {ok : Bool} {msg : SignedMessage} {kind : PendingOp}
    (h : WritesOne (y, history)) :
    WritesOne (y.deliver .read ok msg, history ++ completionNotes .read ok msg kind) := by
  refine h.congr (List.count_erase_of_ne (by simp)) rfl rfl ?_
  unfold completionNotes
  split <;> rfl

theorem WritesOne.take (h : WritesOne (y, history)) (looped : Bool) :
    WritesOne ((y.take looped).1.readNext, history ++ (.authenticated y.request true ::
      .dispatched y.request :: (y.take looped).2)) := by
  have htaken : WritesOne ({ y with registeredPeerId := y.request.senderId },
      history ++ [.authenticated y.request true, .dispatched y.request]) :=
    h.congr rfl rfl rfl rfl
  have hread : ∀ {y' : Session} {history' : List Note}, WritesOne (y', history') →
      WritesOne (y'.readNext, history') := by
    intro y' history' h'
    have hnext : WritesOne (y'.readNext, history' ++ []) :=
      h'.congr (by simp [Session.readNext, Session.read, Session.issue]) rfl rfl rfl
    rwa [List.append_nil] at hnext
  cases looped with
  | false => exact hread htaken
  | true =>
      have hqueued := hread (htaken.enqueueOutgoing y.request)
      rw [List.append_assoc] at hqueued
      exact hqueued

theorem WritesOne.handleReadCompletion {ok : Bool} {verdict : Option Bool}
    (h : WritesOne (y, history))
    (hends : ok = false ∨ verdict = none → .write ∉ y.outstanding) :
    WritesOne ((y.handleReadCompletion ok verdict).1,
      history ++ (y.handleReadCompletion ok verdict).2) := by
  cases ok with
  | false => exact writesOne_closeAfterReads (hends (.inl rfl)) (h.idle (hends (.inl rfl)))
  | true =>
      cases verdict with
      | none => exact .of_idle (not_mem_finish .rejected (hends (.inr rfl))) rfl
      | some looped => exact h.take looped

/-- A read that ends the session empties the queue under a Write. -/
theorem not_writesFront_handleReadCompletion {ok : Bool} {verdict : Option Bool}
    (hw : .write ∈ y.outstanding) (hends : ok = false ∨ verdict = none) :
    ¬WritesFront ((y.handleReadCompletion ok verdict).1, history) := by
  have hmem : ∀ l, .write ∈ y.outstanding ++ l := fun l => List.mem_append_left l hw
  have hclosed : .write ∈ y.deactivated.closeAfterReads.1.outstanding ∧
      y.deactivated.closeAfterReads.1.outbound = [] := by
    unfold Session.closeAfterReads
    dsimp only
    split
    · exact ⟨hmem [.finish], rfl⟩
    · exact ⟨hw, rfl⟩
  intro h
  cases ok with
  | false => exact (h.writing hclosed.1).2.1 hclosed.2
  | true =>
      obtain rfl : verdict = none := hends.resolve_left (by simp)
      exact (h.writing (hmem [.finish])).2.1 rfl

end Functions

theorem WritesOne.step {s t : Session × List Note} {e : SessionEvent} (h : WritesOne s)
    (he : EndsIdle s e) (hstep : sessionStep byOperation s e = some t) : WritesOne t := by
  obtain ⟨y, history⟩ := s
  cases e with
  | enqueue msg =>
      obtain rfl := Option.some.inj hstep
      exact h.enqueueOutgoing msg
  | complete op ok msg verdict =>
      obtain ⟨hop, kind, r, hkind, hr, rfl⟩ := sessionStep_complete hstep
      cases op with
      | request => cases hkind
      | read =>
          obtain rfl := Option.some.inj hkind
          obtain rfl := Option.some.inj hr
          have hwrites : .write ∉ y.outstanding →
              .write ∉ (y.deliver .read ok msg).outstanding := fun hw hw' =>
            hw (List.mem_of_mem_erase hw')
          exact h.deliver_read.handleReadCompletion fun hends => hwrites (he hends)
      | write =>
          obtain rfl := Option.some.inj hkind
          exact h.handleWriteCompletion hop hr
      | finish =>
          obtain rfl := Option.some.inj hkind
          obtain rfl := Option.some.inj hr
          rw [List.append_assoc]
          exact h.congr (List.count_erase_of_ne (by simp)) rfl rfl rfl

theorem endsIdle_of_writesFront {s t : Session × List Note} {e : SessionEvent}
    (hstep : sessionStep byOperation s e = some t) (h : WritesFront t) : EndsIdle s e := by
  cases e with
  | enqueue msg => trivial
  | complete op ok msg verdict =>
      obtain ⟨hop, kind, r, hkind, hr, rfl⟩ := sessionStep_complete hstep
      cases op with
      | read =>
          obtain rfl := Option.some.inj hkind
          obtain rfl := Option.some.inj hr
          intro hends hw
          have hw' : .write ∈ (s.1.deliver .read ok msg).outstanding :=
            (List.mem_erase_of_ne (by simp)).mpr hw
          exact not_writesFront_handleReadCompletion hw' hends h
      | request | write | finish => trivial

theorem WritesFront.isSome_handleWriteCompletion {s : Session × List Note} (h : WritesFront s)
    (hop : .write ∈ s.1.outstanding) (ok : Bool) (msg : SignedMessage) :
    ((s.1.deliver .write ok msg).handleWriteCompletion ok).isSome = true := by
  obtain ⟨m, rest, hqueue⟩ := List.exists_cons_of_ne_nil (h.writing hop).2.1
  have hqueue' : (s.1.deliver .write ok msg).outbound = m :: rest := hqueue
  unfold Session.handleWriteCompletion
  rw [hqueue']
  cases ok <;> cases rest <;> rfl

/-- In a run of a session whose completions all have their own handlers, the queue is in
order in every state exactly if no read ends the session under a Write; and then the
handler of a Write never takes the front of an empty queue. -/
theorem writesFront_iff_endsIdle {es : List SessionEvent} {s : Session × List Note}
    (hrun : run (sessionStep byOperation) opened es = some s) :
    AllSteps (sessionStep byOperation) EndsIdle opened es ↔
      ∀ pre t, pre <+: es → run (sessionStep byOperation) opened pre = some t →
        WritesFront t ∧ (.write ∈ t.1.outstanding → ∀ ok msg,
          ((t.1.deliver .write ok msg).handleWriteCompletion ok).isSome = true) := by
  refine allSteps_iff_of_seen (I := WritesOne) (fun _ _ _ h he hstep => h.step he hstep)
    (fun _ _ _ _ hstep h => endsIdle_of_writesFront hstep h.1)
    (fun _ h => ⟨h.toWritesFront, h.isSome_handleWriteCompletion⟩) ?_ hrun
  exact .of_idle (by decide) rfl

/-- A message is read, its echo is written, and then the stream is closed. -/
def echoedThenClosed : List SessionEvent :=
  [.complete .read true default (some true), .complete .write true default none,
    .complete .read false default none]

theorem writesFront_iff_endsIdle_sample :
    ∃ s, run (sessionStep byOperation) opened echoedThenClosed = some s ∧ WritesFront s := by
  obtain ⟨s, hrun⟩ : ∃ s, run (sessionStep byOperation) opened echoedThenClosed = some s :=
    ⟨_, rfl⟩
  have hfront := (writesFront_iff_endsIdle hrun).mp (by decide) _ _ List.prefix_rfl hrun
  exact ⟨s, hrun, hfront.1⟩

/-- The stream is closed while the echo of a message is being written: the queue is empty
under the Write, whose completion then takes its front. -/
theorem closed_under_write :
    ∃ s, run (sessionStep byOperation) opened
        [.complete .read true default (some true), .complete .read false default none] =
          some s ∧
      .write ∈ s.1.outstanding ∧ s.1.outbound = [] ∧ ¬WritesFront s ∧
      sessionStep byOperation s (.complete .write true default none) = none := by
  refine ⟨_, rfl, by decide, rfl, fun h => ?_, rfl⟩
  exact (h.writing (by decide)).2.1 rfl

end Message

end DistStorage
