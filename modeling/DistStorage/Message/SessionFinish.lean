import DistStorage.Message.SessionRun

/-!
# The end of a session

A session ends with a Finish, whose completion lets go of the handler. The source
knows one operation at a time: once Finish has been issued, every completion passes
for that of Finish. So the handler outlives its operations exactly if nothing else
is outstanding when Finish is issued, and nothing is queued from then on.
-/

namespace DistStorage

namespace Message

open Proto Transition

/-- Finish is issued once and as the last Read, Write or Finish, and the handler is let
go of when none is outstanding. -/
structure EndsClean (s : Session × List Note) : Prop where
  once : s.1.issued.count .finish ≤ 1
  last : ∀ pre post, s.1.issued = pre ++ .finish :: post → .read ∉ post ∧ .write ∉ post
  released : ∀ op, .completed op .finish ∈ s.2 → s.1.outstanding = []

/-- The handling of a completion issues Finish. -/
def Session.finishes (y : Session) (ok : Bool) (verdict : Option Bool) : Bool :=
  match y.pending with
  | .read => if ok then verdict.isNone else !y.writePending
  | .write => y.closingAfterWrites && (!ok || decide (y.outbound.length ≤ 1))
  | .finish => false

/-- Finish is issued at the completion of the only outstanding operation, and no message
is queued after it was issued. -/
def FinishesAlone (s : Session × List Note) : SessionEvent → Prop
  | .complete op ok _ verdict => s.1.finishes ok verdict = true → s.1.outstanding = [op]
  | .enqueue _ => .finish ∉ s.1.issued

instance (s : Session × List Note) : (e : SessionEvent) → Decidable (FinishesAlone s e)
  | .complete op ok _ verdict =>
      inferInstanceAs (Decidable (s.1.finishes ok verdict = true → s.1.outstanding = [op]))
  | .enqueue _ => inferInstanceAs (Decidable (.finish ∉ s.1.issued))

/-- The states of a run before the handler gets into disorder. -/
inductive Ending : Session × List Note → Prop
  | running {s : Session × List Note} (hissued : .finish ∉ s.1.issued)
      (hpending : s.1.pending ≠ .finish) (hnotes : ∀ op, .completed op .finish ∉ s.2) : Ending s
  | finishing {s : Session × List Note} (before : List StreamOp)
      (hissued : s.1.issued = before ++ [.finish]) (hbefore : .finish ∉ before)
      (hpending : s.1.pending = .finish) (hidle : s.1.writePending = false)
      (houtstanding : s.1.outstanding = [.finish]) (hnotes : ∀ op, .completed op .finish ∉ s.2) :
      Ending s
  | ended {s : Session × List Note} (before : List StreamOp)
      (hissued : s.1.issued = before ++ [.finish]) (hbefore : .finish ∉ before)
      (hpending : s.1.pending = .finish) (hidle : s.1.writePending = false)
      (houtstanding : s.1.outstanding = []) : Ending s

section EndsClean

variable {s : Session × List Note}

theorem endsClean_of_not_mem (hissued : .finish ∉ s.1.issued)
    (hnotes : ∀ op, .completed op .finish ∉ s.2) : EndsClean s := by
  refine ⟨?_, ?_, fun op hop => absurd hop (hnotes op)⟩
  · rw [List.count_eq_zero_of_not_mem hissued]
    exact Nat.zero_le 1
  · intro pre post heq
    rw [heq] at hissued
    exact absurd (List.mem_append_right pre List.mem_cons_self) hissued

theorem endsClean_of_last {before : List StreamOp} (hissued : s.1.issued = before ++ [.finish])
    (hbefore : .finish ∉ before)
    (hreleased : ∀ op, .completed op .finish ∈ s.2 → s.1.outstanding = []) : EndsClean s := by
  refine ⟨?_, ?_, hreleased⟩
  · rw [hissued, List.count_append, List.count_eq_zero_of_not_mem hbefore]
    exact le_rfl
  · intro pre post heq
    rcases List.eq_nil_or_concat post with rfl | ⟨init, last, rfl⟩
    · exact ⟨List.not_mem_nil, List.not_mem_nil⟩
    · rw [hissued, List.concat_eq_append, ← List.cons_append, ← List.append_assoc] at heq
      rw [(List.append_inj' heq rfl).1] at hbefore
      exact absurd (List.mem_append_right pre List.mem_cons_self) hbefore

theorem Ending.endsClean (h : Ending s) : EndsClean s := by
  cases h with
  | running hissued _ hnotes => exact endsClean_of_not_mem hissued hnotes
  | finishing before hissued hbefore _ _ _ hnotes =>
      exact endsClean_of_last hissued hbefore fun op hop => absurd hop (hnotes op)
  | ended before hissued hbefore _ _ houtstanding =>
      exact endsClean_of_last hissued hbefore fun _ _ => houtstanding

end EndsClean

section Handlers

variable {y : Session} {op : StreamOp} {ok : Bool} {msg : SignedMessage}
  {verdict : Option Bool} {kind : PendingOp} {r : Session × List Note}

structure Finishing (y : Session) (op : StreamOp) (r : Session) : Prop where
  issued : r.issued = y.issued ++ [.finish]
  pending : r.pending = .finish
  idle : r.writePending = false
  outstanding : r.outstanding = y.outstanding.erase op ++ [.finish]

/-- The handling of a completion has issued Reads and Writes at most. -/
structure Continuing (y : Session) (r : Session) : Prop where
  issued : ∃ ops : List StreamOp, .finish ∉ ops ∧ r.issued = y.issued ++ ops
  pending : r.pending ≠ .finish

theorem finishIfClosing_outcome (hpending : y.pending ≠ .finish) :
    if y.closingAfterWrites then
      Finishing y op (y.deliver op ok msg).finishIfClosing.1
    else Continuing y (y.deliver op ok msg).finishIfClosing.1 := by
  unfold Session.finishIfClosing
  dsimp only
  cases hclosing : y.closingAfterWrites with
  | false =>
      have hclosing' : (y.deliver op ok msg).closingAfterWrites = false := hclosing
      rw [hclosing']
      exact ⟨⟨[], by simp, by simp [Session.deliver]⟩, hpending⟩
  | true =>
      have hclosing' : (y.deliver op ok msg).closingAfterWrites = true := hclosing
      rw [hclosing']
      exact ⟨rfl, rfl, rfl, rfl⟩

theorem closeAfterReads_outcome (hpending : y.pending ≠ .finish) :
    if y.writePending then
      Continuing y (y.deliver op ok msg).deactivated.closeAfterReads.1
    else Finishing y op (y.deliver op ok msg).deactivated.closeAfterReads.1 := by
  unfold Session.closeAfterReads
  dsimp only
  cases hwp : y.writePending with
  | false =>
      have hwp' : (y.deliver op ok msg).deactivated.writePending = false := hwp
      rw [hwp']
      exact ⟨rfl, rfl, rfl, rfl⟩
  | true =>
      have hwp' : (y.deliver op ok msg).deactivated.writePending = true := hwp
      rw [hwp']
      exact ⟨⟨[], by simp, by simp [Session.deactivated, Session.deliver]⟩, hpending⟩

theorem enqueueOutgoing_issued (y : Session) (msg : SignedMessage) :
    ∃ ops : List StreamOp, .finish ∉ ops ∧
      (y.enqueueOutgoing msg).1.issued = y.issued ++ ops := by
  cases hwp : y.writePending with
  | true =>
      rw [enqueueOutgoing_of_pending hwp]
      exact ⟨[], by simp, (List.append_nil _).symm⟩
  | false =>
      rw [enqueueOutgoing_of_idle hwp]
      exact ⟨[.write], by simp, rfl⟩

theorem continuing_take (looped : Bool) :
    Continuing y ((y.deliver op ok msg).take looped).1.readNext := by
  cases looped with
  | false =>
      exact ⟨⟨[.read], by simp, rfl⟩, by simp [Session.readNext, Session.read, Session.issue]⟩
  | true =>
      obtain ⟨ops, hops, hissued⟩ := enqueueOutgoing_issued { y.deliver op ok msg with
        registeredPeerId := (y.deliver op ok msg).request.senderId } (y.deliver op ok msg).request
      refine ⟨⟨ops ++ [.read], by simp [hops], ?_⟩,
        by simp [Session.readNext, Session.read, Session.issue]⟩
      change _ ++ [StreamOp.read] = _
      rw [← List.append_assoc]
      exact congrArg (· ++ [StreamOp.read]) hissued

theorem handle_outcome (hpending : y.pending ≠ .finish)
    (h : (y.deliver op ok msg).handle ok verdict y.pending = some r) :
    if y.finishes ok verdict then Finishing y op r.1 else Continuing y r.1 := by
  unfold Session.finishes
  cases hkind : y.pending with
  | finish => exact absurd hkind hpending
  | read =>
      rw [hkind] at h
      obtain rfl := Option.some.inj h
      cases ok with
      | false => simpa [Session.handleReadCompletion] using closeAfterReads_outcome hpending
      | true =>
          cases verdict with
          | none => exact ⟨rfl, rfl, rfl, rfl⟩
          | some looped => exact continuing_take looped
  | write =>
      rw [hkind] at h
      change (y.deliver op ok msg).handleWriteCompletion ok = some r at h
      unfold Session.handleWriteCompletion at h
      split at h
      · next hok =>
          obtain rfl := Option.some.inj h
          simpa [hok] using finishIfClosing_outcome hpending
      · next hok =>
          split at h
          · cases h
          · next m hqueue =>
              have hqueue' : y.outbound = [m] := hqueue
              obtain rfl := Option.some.inj h
              simpa [hqueue'] using finishIfClosing_outcome hpending
          · next m next rest hqueue =>
              have hqueue' : y.outbound = m :: next :: rest := hqueue
              obtain rfl := Option.some.inj h
              simp only [hok, hqueue', List.length_cons, Bool.false_or]
              rw [if_neg (by simp)]
              exact ⟨⟨[.write], by simp, rfl⟩, by simp [Session.write, Session.issue]⟩

theorem handle_notes (h : y.handle ok verdict kind = some r) {op : StreamOp} {k : PendingOp} :
    .completed op k ∉ r.2 := by
  have hsending : ∀ {notes : List Note}, (∀ n ∈ notes, n.isSending = true) →
      .completed op k ∉ notes := fun hall hmem => absurd (hall _ hmem) (by simp [Note.isSending])
  cases kind with
  | read =>
      obtain rfl := Option.some.inj h
      cases ok with
      | false => exact hsending fun n hn => closeAfterReads_notes hn
      | true =>
          cases verdict with
          | none => simp [Session.handleReadCompletion, Session.closeWithStatus, Session.finish]
          | some looped =>
              cases looped with
              | false => simp [Session.handleReadCompletion, Session.take]
              | true =>
                  intro hmem
                  have hqueued := (List.mem_cons.mp ((List.mem_cons.mp hmem).resolve_left
                    (by simp))).resolve_left (by simp)
                  rcases enqueueOutgoing_notes hqueued with heq | hn
                  · cases heq
                  · cases hn
  | write => exact hsending fun n hn => handleWriteCompletion_notes h hn
  | finish =>
      obtain rfl := Option.some.inj h
      exact List.not_mem_nil

end Handlers

section Step

variable {s t : Session × List Note} {op : StreamOp} {ok : Bool} {msg : SignedMessage}
  {verdict : Option Bool}

theorem not_mem_of_completed {kind : PendingOp} {notes : List Note}
    (hold : ∀ op, .completed op .finish ∉ s.2) (hkind : kind ≠ .finish)
    (hnew : ∀ op, .completed op .finish ∉ notes) (op' : StreamOp) :
    .completed op' .finish ∉ s.2 ++ completionNotes op ok msg kind ++ notes := by
  have hcompletion : .completed op' .finish ∉ completionNotes op ok msg kind := by
    unfold completionNotes
    split <;> simp [hkind.symm]
  simp only [List.mem_append, not_or]
  exact ⟨⟨hold op', hcompletion⟩, hnew op'⟩

theorem sessionStep_running (hpending : s.1.pending ≠ .finish)
    (hnotes : ∀ op, .completed op .finish ∉ s.2)
    (h : sessionStep byPending s (.complete op ok msg verdict) = some t) :
    op ∈ s.1.outstanding ∧ (∀ op, .completed op .finish ∉ t.2) ∧
      if s.1.finishes ok verdict then Finishing s.1 op t.1 else Continuing s.1 t.1 := by
  obtain ⟨hop, kind, r, hkind, hr, rfl⟩ := sessionStep_complete h
  obtain rfl := Option.some.inj hkind
  have houtcome := handle_outcome hpending hr
  exact ⟨hop, not_mem_of_completed hnotes hpending fun _ => handle_notes hr, houtcome⟩

theorem sessionStep_finish (hpending : s.1.pending = .finish)
    (h : sessionStep byPending s (.complete op ok msg verdict) = some t) :
    op ∈ s.1.outstanding ∧ t.1.outstanding = s.1.outstanding.erase op ∧
      t.1.issued = s.1.issued ∧ t.1.pending = .finish ∧
      t.1.writePending = s.1.writePending ∧ .completed op .finish ∈ t.2 := by
  obtain ⟨hop, kind, r, hkind, hr, rfl⟩ := sessionStep_complete h
  obtain rfl := Option.some.inj hkind
  rw [hpending] at hr ⊢
  obtain rfl := Option.some.inj hr
  refine ⟨hop, rfl, rfl, hpending, rfl, ?_⟩
  simp [completionNotes]

theorem Continuing.not_mem {y r : Session} (h : Continuing y r) (hissued : .finish ∉ y.issued) :
    .finish ∉ r.issued := by
  obtain ⟨ops, hops, heq⟩ := h.issued
  rw [heq]
  simp [hissued, hops]

theorem Ending.enqueue (h : Ending s) (he : .finish ∉ s.1.issued) (msg : SignedMessage) :
    Ending ((s.1.enqueueOutgoing msg).1, s.2 ++ (s.1.enqueueOutgoing msg).2) := by
  cases h with
  | running hissued hpending hnotes =>
      obtain ⟨ops, hops, heq⟩ := enqueueOutgoing_issued s.1 msg
      refine .running ?_ ?_ fun op => ?_
      · change .finish ∉ (s.1.enqueueOutgoing msg).1.issued
        rw [heq]
        simp [hissued, hops]
      · cases hwp : s.1.writePending with
        | true =>
            rw [enqueueOutgoing_of_pending hwp]
            exact hpending
        | false =>
            rw [enqueueOutgoing_of_idle hwp]
            simp [Session.issue]
      · intro hmem
        rcases List.mem_append.mp hmem with hmem | hmem
        · exact hnotes op hmem
        · rcases enqueueOutgoing_notes hmem with heq | hsending
          · cases heq
          · cases hsending
  | finishing before hissued => exact absurd (by rw [hissued]; simp) he
  | ended before hissued => exact absurd (by rw [hissued]; simp) he

theorem Ending.step {e : SessionEvent} (h : Ending s) (he : FinishesAlone s e)
    (hstep : sessionStep byPending s e = some t) : Ending t := by
  cases e with
  | enqueue msg =>
      obtain rfl := Option.some.inj hstep
      exact h.enqueue he msg
  | complete op ok msg verdict =>
      cases h with
      | running hissued hpending hnotes =>
          obtain ⟨hop, hnotes', houtcome⟩ := sessionStep_running hpending hnotes hstep
          cases hfinishes : s.1.finishes ok verdict with
          | false =>
              rw [hfinishes, if_neg (by simp)] at houtcome
              exact .running (houtcome.not_mem hissued) houtcome.pending hnotes'
          | true =>
              rw [hfinishes, if_pos rfl] at houtcome
              refine .finishing s.1.issued houtcome.issued hissued houtcome.pending
                houtcome.idle ?_ hnotes'
              rw [houtcome.outstanding, he hfinishes]
              simp
      | finishing before hissued hbefore hpending hidle houtstanding =>
          obtain ⟨hop, herase, hsame, hpending', hidle', -⟩ := sessionStep_finish hpending hstep
          obtain rfl : op = .finish := by simpa [houtstanding] using hop
          refine .ended before (hsame.trans hissued) hbefore hpending' (hidle'.trans hidle) ?_
          rw [herase, houtstanding]
          rfl
      | ended before hissued hbefore hpending hidle houtstanding =>
          have hop := (sessionStep_finish hpending hstep).1
          rw [houtstanding] at hop
          cases hop

/-- One completion after the last that met the condition shows nothing yet. -/
theorem Ending.endsClean_complete (h : Ending s)
    (hstep : sessionStep byPending s (.complete op ok msg verdict) = some t) : EndsClean t := by
  cases h with
  | running hissued hpending hnotes =>
      obtain ⟨-, hnotes', houtcome⟩ := sessionStep_running hpending hnotes hstep
      cases hfinishes : s.1.finishes ok verdict with
      | false =>
          rw [hfinishes, if_neg (by simp)] at houtcome
          exact endsClean_of_not_mem (houtcome.not_mem hissued) hnotes'
      | true =>
          rw [hfinishes, if_pos rfl] at houtcome
          exact endsClean_of_last houtcome.issued hissued fun op hop => absurd hop (hnotes' op)
  | finishing before hissued hbefore hpending hidle houtstanding hnotes =>
      have halone : FinishesAlone s (.complete op ok msg verdict) := fun hfinishes => by
        simp [Session.finishes, hpending] at hfinishes
      exact (Ending.step (.finishing before hissued hbefore hpending hidle houtstanding hnotes)
        halone hstep).endsClean
  | ended before hissued hbefore hpending hidle houtstanding =>
      have hop := (sessionStep_finish hpending hstep).1
      rw [houtstanding] at hop
      cases hop

/-- A state of a run is seen to be in order if it is, and stays so with one more
completion. -/
def SeenClean (s : Session × List Note) : Prop :=
  EndsClean s ∧ ∀ op ok msg verdict t,
    sessionStep byPending s (.complete op ok msg verdict) = some t → EndsClean t

theorem Finishing.not_seenClean (h : Finishing s.1 op t.1) (hop : op ∈ s.1.outstanding)
    (hother : s.1.outstanding ≠ [op]) : ¬SeenClean t := by
  intro hseen
  have hrest : s.1.outstanding.erase op ≠ [] := by
    intro hnil
    have hlength := List.length_erase_of_mem hop
    rw [hnil] at hlength
    obtain ⟨op', hsingle⟩ := List.length_eq_one_iff.mp
      (le_antisymm (by simp at hlength; omega) (List.length_pos_of_mem hop))
    rw [hsingle, List.mem_singleton] at hop
    exact hother (hop ▸ hsingle)
  have hmem : StreamOp.finish ∈ t.1.outstanding := by
    rw [h.outstanding]
    simp
  obtain ⟨u, hu⟩ : ∃ u, sessionStep byPending t (.complete .finish true default none) =
      some u := by
    rw [sessionStep, if_pos hmem, byPending, Option.bind_some, h.pending]
    exact ⟨_, rfl⟩
  obtain ⟨-, herase, -, -, -, hcompleted⟩ := sessionStep_finish h.pending hu
  have hnil := (hseen.2 _ _ _ _ u hu).released .finish hcompleted
  have hlength := List.length_erase_of_mem hmem
  rw [← herase, hnil, h.outstanding, List.length_append] at hlength
  have hpos := List.length_pos_of_ne_nil hrest
  simp at hlength
  omega

theorem Ending.finishesAlone (h : Ending s) {e : SessionEvent}
    (hstep : sessionStep byPending s e = some t) (hseen : SeenClean t) : FinishesAlone s e := by
  cases e with
  | enqueue msg =>
      obtain rfl := Option.some.inj hstep
      -- A message queued after Finish is written at once.
      have hlate : ∀ before, s.1.issued = before ++ [.finish] → s.1.writePending = false →
          .finish ∉ s.1.issued := by
        intro before hissued hidle
        rw [enqueueOutgoing_of_idle hidle] at hseen
        refine absurd List.mem_cons_self (hseen.1.last before [.write] ?_).2
        change s.1.issued ++ [.write] = _
        rw [hissued, List.append_assoc]
        rfl
      cases h with
      | running hissued => exact hissued
      | finishing before hissued _ _ hidle => exact hlate before hissued hidle
      | ended before hissued _ _ hidle => exact hlate before hissued hidle
  | complete op ok msg verdict =>
      intro hfinishes
      by_contra hother
      have hpending : s.1.pending ≠ .finish := fun hpending => by
        simp [Session.finishes, hpending] at hfinishes
      cases h with
      | running hissued _ hnotes =>
          obtain ⟨hop, -, houtcome⟩ := sessionStep_running hpending hnotes hstep
          rw [hfinishes, if_pos rfl] at houtcome
          exact houtcome.not_seenClean hop hother hseen
      | finishing _ _ _ hfinish => exact hpending hfinish
      | ended _ _ _ hfinish => exact hpending hfinish

end Step

theorem ending_opened : Ending opened :=
  .running (by decide) (by decide) fun _ => List.not_mem_nil

/-- A run of a session is in order in every state, and stays so with one more completion in
each, exactly if Finish is issued at the completion of the only outstanding operation and
no message is queued after it. -/
theorem endsClean_iff_finishesAlone {es : List SessionEvent} {s : Session × List Note}
    (hrun : run (sessionStep byPending) opened es = some s) :
    AllSteps (sessionStep byPending) FinishesAlone opened es ↔
      ∀ pre t, pre <+: es → run (sessionStep byPending) opened pre = some t →
        EndsClean t ∧ ∀ op ok msg verdict u,
          sessionStep byPending t (.complete op ok msg verdict) = some u → EndsClean u := by
  refine allSteps_iff_of_seen (I := Ending) (fun _ _ _ h he hstep => h.step he hstep)
    (fun _ _ _ h hstep hseen => h.finishesAlone hstep hseen)
    (fun _ h => ⟨h.endsClean, fun _ _ _ _ _ hstep => h.endsClean_complete hstep⟩) ending_opened hrun

/-- A session of the server ends in order, unless on its own run Finish was issued beside
another operation or a message was queued after it. -/
theorem endsClean_or_not_finishesAlone {κ : Type*} {env : Peer.AuthEnv κ}
    {store : Peer.AuthStore κ} {s : Server} {es : List Event}
    (hrun : run (Server.step env store) Server.start es = some s) (x : ℕ) :
    EndsClean (s.sessions x, s.history x) ∨
      ∃ own, run (sessionStep byPending) opened own = some (s.sessions x, s.history x) ∧
        ¬AllSteps (sessionStep byPending) FinishesAlone opened own := by
  have horigin := originated_of_run hrun x
  generalize s.sessions x = y at horigin ⊢
  generalize s.history x = notes at horigin ⊢
  cases horigin with
  | create => exact .inl (endsClean_of_not_mem (by decide) fun _ => List.not_mem_nil)
  | prime => exact .inl (endsClean_of_not_mem (by decide) fun _ => List.not_mem_nil)
  | failed msg =>
      have hissued : Session.prime.issued = [.request] := rfl
      exact .inl (endsClean_of_not_mem (by simp [Session.deliver, Session.deactivated, hissued])
        fun _ => List.not_mem_nil)
  | run own hown =>
      by_cases hall : AllSteps (sessionStep byPending) FinishesAlone opened own
      · exact .inl (run_invariant_of_allSteps (fun _ _ _ h he hstep => h.step he hstep)
          ending_opened hall hown).endsClean
      · exact .inr ⟨own, hown, hall⟩

/-- A message for another peer is read, then the stream is closed. -/
def readThenClosed : List SessionEvent :=
  [.complete .read true default (some false), .complete .read false default none,
    .complete .finish true default none]

theorem endsClean_iff_finishesAlone_sample :
    ∃ s, run (sessionStep byPending) opened readThenClosed = some s ∧ s.1.selfRef = false ∧
      EndsClean s := by
  obtain ⟨s, hrun, hself⟩ : ∃ s, run (sessionStep byPending) opened readThenClosed = some s ∧
      s.1.selfRef = false := ⟨_, rfl, rfl⟩
  have hclean := (endsClean_iff_finishesAlone hrun).mp (by decide) _ _ List.prefix_rfl hrun
  exact ⟨s, hrun, hself, hclean.1⟩

/-- The echo of a message is being written when the next message is rejected: the handler
is let go of with Finish outstanding, when the Write completes. -/
theorem released_beside_finish :
    ∃ s, run (sessionStep byPending) opened
        [.complete .read true default (some true), .complete .read true default none,
          .complete .write true default none] = some s ∧
      s.1.selfRef = false ∧ s.1.outstanding = [.finish] ∧ ¬EndsClean s := by
  refine ⟨_, rfl, rfl, rfl, fun h => ?_⟩
  cases h.released .write (by decide)

end Message

end DistStorage
