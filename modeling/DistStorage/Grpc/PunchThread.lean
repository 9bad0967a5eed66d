import DistStorage.Grpc.ConnectEngine
import DistStorage.Grpc.PunchCompletion

/-!
# The thread of a connection attempt

`Connect` runs `PerformHolePunchAndHandshake` in a detached thread, which the engine
sees as phases with calls of `CancelConnect` in between. Here the phases are compared
with the function itself on the descriptors: every way out of the function is a run of
the phases with the same calls of `on_connect`.
-/

namespace DistStorage

namespace Grpc

open Cpp Cpp.Action Net Transition HolePunch

namespace Attempt

/-- What can happen to an attempt: a step of its thread, or a call of `CancelConnect`
sets its flag. -/
inductive ThreadEvent
  | work (w : Work)
  | cancel
  deriving DecidableEq, Repr

def threadStep (a : Attempt) : ThreadEvent → Option Attempt
  | .work w => a.work w
  | .cancel => some { a with cancelFlag := true }

section Refinement

variable (what : Exception → String)

def resultOf : Completion → ConnectResult
  | .cancelledBefore => .cancelled "Cancelled before punch"
  | .cancelledDuring => .cancelled "Cancelled during punch"
  | .handshakeFailed => .unavailable "TLS Handshake failed or timed out"
  | .endpoint _ => .endpoint
  | .failed e => .unavailable ("Hole punch failed: " ++ what e)

/-- A load of the flag between the two states has read it as set. -/
def SawCancel (s t : Machine) : Prop := ∃ k, s.loads ≤ k ∧ k < t.loads ∧ s.cancelled k = true

/-- From the state `s` of the descriptors to `t`, the attempt `a` runs into a phase with
the same new calls, none of which brings an endpoint; it was cancelled only if the
function saw the flag. -/
def Reaches (a : Attempt) (s : Machine) (phase : Phase) (t : Machine) : Prop :=
  ∃ es b new, run threadStep a es = some b ∧ b.phase = phase ∧
    t.completions = s.completions ++ new ∧
    b.onConnect = a.onConnect ++ new.map (resultOf what) ∧
    (∀ r ∈ new.map (resultOf what), r ≠ .endpoint) ∧
    (b.cancelFlag = true → SawCancel s t)

variable {what} {a b : Attempt} {s t : Machine} {p : Progress} {c : Completion}
  {punch : Run ℤ} {callback : Callback}

variable (what c) in
/-- The phases up to a call of the callback before a handshake is done. -/
theorem run_of_completion (hphase : a.phase = .beforePunch) (hflag : a.cancelFlag = false)
    (hp : p.completion = some c) :
    ∃ es flag, run threadStep a es =
        some { a with phase := .completing (resultOf what c) false, cancelFlag := flag } ∧
      (flag = true → p = .cancelledBefore ∨ p = .cancelledDuring) := by
  obtain ⟨handle, cancelFlag, phase, onConnect⟩ := a
  obtain rfl : phase = .beforePunch := hphase
  obtain rfl : cancelFlag = false := hflag
  cases p with
  | cancelledBefore =>
      obtain rfl := Option.some.inj hp
      exact ⟨[.cancel, .work .load], true, rfl, fun _ => .inl rfl⟩
  | cancelledDuring =>
      obtain rfl := Option.some.inj hp
      exact ⟨[.work .load, .work (.punch none), .cancel, .work .load], true, rfl, fun _ => .inr rfl⟩
  | handshakeFailed =>
      obtain rfl := Option.some.inj hp
      exact ⟨[.work .load, .work (.punch none), .work .load, .work (.handshake .failed)], false,
        rfl, by simp⟩
  | handshakeDone => cases hp

theorem triple_true {α : Type} (m : Run α) :
    Triple (fun _ => True) m (fun _ _ => True) (fun _ _ => True) := by
  intro s _
  cases m s <;> trivial

/-- The flag that the loads will read, and the loads so far. -/
def Loaded (f : ℕ → Bool) (n : ℕ) (s : Machine) : Prop := s.cancelled = f ∧ s.loads = n

theorem loaded_stable (f : ℕ → Bool) (n : ℕ) : Stable (Loaded f n) where
  answer _ h := h
  allocate _ h := h
  check fd s h := by
    unfold Machine.check
    split_ifs <;> exact h
  setVar _ _ _ h := h
  close fd s h := by
    unfold Machine.close Machine.check
    split_ifs <;> exact h
  polls _ _ h := h

theorem loadCancelFlag_triple (f : ℕ → Bool) (n : ℕ) :
    Triple (Loaded f n) loadCancelFlag
      (fun cancelled t => Loaded f (n + 1) t ∧ cancelled = f n) (fun _ _ => True) := by
  rintro s ⟨rfl, rfl⟩
  exact ⟨⟨rfl, rfl⟩, rfl⟩

/-- A flag that made the function stop was set. -/
theorem sawCancel_of_progress (hpunch : ∀ I, Stable I → Keeps I punch)
    (hprogress : progress punch s = .returned p t)
    (hp : p = .cancelledBefore ∨ p = .cancelledDuring) : SawCancel s t := by
  have htriple : Triple (Loaded s.cancelled s.loads) (progress punch)
      (fun p t => p = .cancelledBefore ∨ p = .cancelledDuring → SawCancel s t)
      (fun _ _ => True) := by
    have hkept {α : Type} {m : Run α} {P : Machine → Prop} {n : ℕ}
        (hP : ∀ u, P u → Loaded s.cancelled n u) (h : Keeps (Loaded s.cancelled n) m) :
        Triple P m (fun _ => Loaded s.cancelled n) (fun _ _ => True) :=
      h.consequence hP (fun _ _ h => h) fun _ _ _ => trivial
    have hseen {n : ℕ} {u : Machine} {cancelled : Bool} (hn : s.loads ≤ n)
        (hu : Loaded s.cancelled (n + 1) u ∧ cancelled = s.cancelled n)
        (hcancelled : cancelled = true) : SawCancel s u :=
      ⟨n, hn, hu.1.2 ▸ n.lt_succ_self, hu.2 ▸ hcancelled⟩
    have hmove : Keeps (Loaded s.cancelled (s.loads + 1))
        (Action.modify (Machine.move .fd .listenFd)) := Keeps.modify fun _ h => h
    have hset (raw : ℤ) : Keeps (Loaded s.cancelled (s.loads + 1))
        (Action.modify (Machine.setVar .connectedFd raw)) := Keeps.modify fun _ h => h
    unfold progress
    refine (loadCancelFlag_triple s.cancelled s.loads).bind fun cancelled => ?_
    split_ifs with hcancelled
    · exact fun u hu _ => hseen le_rfl hu hcancelled
    refine (hkept (fun _ => And.left) hmove).bind fun _ => ?_
    refine (hkept (fun _ h => h) (hpunch _ (loaded_stable _ _))).bind fun raw => ?_
    refine (hkept (fun _ h => h) (hset raw)).bind fun _ => ?_
    refine (loadCancelFlag_triple s.cancelled (s.loads + 1)).bind fun cancelled => ?_
    split_ifs with hcancelled
    · exact fun u hu _ => hseen (Nat.le_succ _) hu hcancelled
    refine Triple.bind (Q := fun _ _ => True) (fun u hu => trivial) fun fd => ?_
    refine (triple_true _).bind fun _ => (triple_true _).bind fun fd => ?_
    refine (triple_true _).bind fun _ => (triple_true _).bind fun _ => ?_
    refine (triple_true _).bind fun fd => (triple_true _).bind fun _ => ?_
    refine (triple_true _).bind fun ret => ?_
    split_ifs
    · exact fun u _ h => absurd h (by simp)
    · exact fun u _ h => absurd h (by simp)
  exact htriple.returned ⟨rfl, rfl⟩ hprogress hp

theorem SawCancel.congr {u : Machine} (h : SawCancel s t) (hloads : u.loads = t.loads) :
    SawCancel s u := by
  obtain ⟨k, hfrom, hto, hset⟩ := h
  exact ⟨k, hfrom, hloads ▸ hto, hset⟩

/-- The exception of the block is given to the callback, after which the thread leaves or
ends by the exception of the callback. -/
theorem reaches_of_thrown {e : Exception} (es : List ThreadEvent) (new : List Completion)
    (hbody : punchAndHandshakeBy punch (invoke callback) s = .thrown e t)
    (hrun : run threadStep a es = some b)
    (hphase : b.phase = .completing (resultOf what (.failed e)) true)
    (hnew : t.completions = s.completions ++ new)
    (hconnect : b.onConnect = a.onConnect ++ new.map (resultOf what))
    (hwithout : ∀ r ∈ new.map (resultOf what), r ≠ .endpoint)
    (hflag : b.cancelFlag = true → SawCancel s t) :
    Triple (· = s) (performBy punch (invoke callback))
      (fun _ t => Reaches what a s .leaving t) (fun _ t => Reaches what a s (.calling true) t) := by
  obtain ⟨handle, cancelFlag, phase, onConnect⟩ := b
  obtain rfl : phase = .completing (resultOf what (.failed e)) true := hphase
  have hcalls : ∀ u : Machine, u.completions = t.completions ++ [.failed e] →
      u.completions = s.completions ++ (new ++ [.failed e]) ∧
      onConnect ++ [resultOf what (.failed e)] =
        a.onConnect ++ (new ++ [Completion.failed e]).map (resultOf what) ∧
      ∀ r ∈ (new ++ [Completion.failed e]).map (resultOf what), r ≠ .endpoint := by
    intro u hu
    refine ⟨by rw [hu, hnew, List.append_assoc], ?_, ?_⟩
    · rw [List.map_append, ← List.append_assoc, ← hconnect]
      rfl
    · rw [List.map_append]
      refine List.forall_mem_append.mpr ⟨hwithout, ?_⟩
      simp [resultOf]
  rintro s' rfl
  have hcatch : tryCatch (punchAndHandshakeBy punch (invoke callback))
      (fun e => invoke callback (.failed e)) s' = invoke callback (.failed e) t :=
    tryCatch_of_thrown hbody
  cases hcallback : callback t.completions.length (.failed e) with
  | none =>
      rw [invoke_of_none hcallback] at hcatch
      rw [performBy, finallyDo_of_returned hcatch]
      obtain ⟨hu, hresults, hnone⟩ := hcalls
        (Machine.reset .fd { t with completions := t.completions ++ [.failed e] })
        (Machine.reset_completions _ _)
      refine ⟨es ++ [.work .invoke, .work .returned],
        ⟨handle, cancelFlag, .leaving, onConnect ++ [resultOf what (.failed e)]⟩, _, ?_, rfl, hu,
        hresults, hnone, fun hset => (hflag hset).congr (Machine.reset_loads _ _)⟩
      rw [run_append, hrun]
      rfl
  | some e' =>
      rw [invoke_of_some hcallback] at hcatch
      rw [performBy, finallyDo_of_thrown hcatch]
      obtain ⟨hu, hresults, hnone⟩ := hcalls
        (Machine.reset .fd { t with completions := t.completions ++ [.failed e] })
        (Machine.reset_completions _ _)
      refine ⟨es ++ [.work .invoke],
        ⟨handle, cancelFlag, .calling true, onConnect ++ [resultOf what (.failed e)]⟩, _, ?_, rfl,
        hu, hresults, hnone, fun hset => (hflag hset).congr (Machine.reset_loads _ _)⟩
      rw [run_append, hrun]
      rfl

/-- Every way out of `PerformHolePunchAndHandshake` is a run of the phases of its thread
with the same calls of `on_connect`: the thread leaves the function, or the exception of
a callback that was called by the handler ends it. No call brings an endpoint, and the
attempt was cancelled only if the function saw the flag. -/
theorem thread_refines (hpunch : ∀ I, Stable I → Keeps I punch) (callback : Callback)
    (what : Exception → String) (hs : Calm s.completions s) (hphase : a.phase = .beforePunch)
    (hflag : a.cancelFlag = false) :
    Triple (· = s) (performBy punch (invoke callback))
      (fun _ t => Reaches what a s .leaving t) (fun _ t => Reaches what a s (.calling true) t) := by
  have htriple := progress_triple (hpunch _ (calm_stable s.completions))
  obtain ⟨cleanup, hcleanup, hbody⟩ := punchAndHandshakeBy_tidies punch (invoke callback) s
  rw [Action.finallyDo] at hbody
  obtain ⟨handle, cancelFlag, phase, onConnect⟩ := a
  obtain rfl : phase = .beforePunch := hphase
  obtain rfl : cancelFlag = false := hflag
  cases hprogress : progress punch s with
  | returned p u =>
      obtain ⟨hu, hdone⟩ := htriple.returned hs hprogress
      cases hp : p.completion with
      | some c =>
          obtain ⟨es, flag, hrun, hseen⟩ := run_of_completion what c
            (a := ⟨handle, false, .beforePunch, onConnect⟩) rfl rfl hp
          have hproceed : proceed (invoke callback) p = invoke callback c := by
            cases p <;> cases hp <;> rfl
          have hcancelled : ∀ v, v.loads = u.loads → flag = true → SawCancel s v :=
            fun v hv hset => (sawCancel_of_progress hpunch hprogress (hseen hset)).congr hv
          have hresult : ∀ r ∈ [c].map (resultOf what), r ≠ .endpoint := by
            cases p <;> cases hp <;> simp [resultOf]
          rw [bind_of_returned hprogress, hproceed] at hbody
          cases hcallback : callback u.completions.length c with
          | none =>
              rw [invoke_of_none hcallback] at hbody
              rintro s' rfl
              rw [performBy, finallyDo_of_returned (tryCatch_of_returned hbody)]
              refine ⟨es ++ [.work .invoke, .work .returned],
                ⟨handle, flag, .leaving, onConnect ++ [resultOf what c]⟩, [c], ?_, rfl, ?_, rfl,
                hresult, hcancelled _ ((Machine.reset_loads _ _).trans (hcleanup.loads _))⟩
              · rw [run_append, hrun]
                rfl
              · rw [Machine.reset_completions, hcleanup.completions, hu.completions_eq]
          | some e =>
              rw [invoke_of_some hcallback] at hbody
              refine reaches_of_thrown (es ++ [.work .invoke, .work (.threw (what e))]) [c] hbody
                (b := ⟨handle, flag, .completing (resultOf what (.failed e)) true,
                  onConnect ++ [resultOf what c]⟩) ?_ rfl ?_ rfl hresult
                (hcancelled _ (hcleanup.loads _))
              · rw [run_append, hrun]
                rfl
              · rw [hcleanup.completions, hu.completions_eq]
      | none =>
          obtain rfl : p = .handshakeDone := by cases p <;> cases hp; rfl
          obtain ⟨e, v, hthrown, hv⟩ :=
            proceed_handshakeDone (invoke callback) (Emptied.mk hu (hdone rfl))
          rw [bind_of_returned hprogress, hthrown] at hbody
          refine reaches_of_thrown [.work .load, .work (.punch none), .work .load,
            .work (.handshake (.threw (what e)))] [] hbody rfl rfl ?_ (List.append_nil _).symm
            (by simp) (fun h => absurd h Bool.false_ne_true)
          rw [hcleanup.completions, hv, List.append_nil]
  | thrown e u =>
      have hu := htriple.thrown hs hprogress
      rw [bind_of_thrown hprogress] at hbody
      refine reaches_of_thrown [.work .load, .work (.punch (some (what e)))] [] hbody rfl rfl ?_
        (List.append_nil _).symm (by simp) (fun h => absurd h Bool.false_ne_true)
      rw [hcleanup.completions, hu.completions_eq, List.append_nil]
  | undefined =>
      rw [bind_of_undefined hprogress] at hbody
      rintro s' rfl
      rw [performBy, Action.finallyDo, Action.tryCatch, hbody]
      trivial

/-- The thread of a punch that connects and whose handshake is done. -/
theorem thread_refines_sample :
    ∃ t, performBy easyPunch (invoke fun _ _ => none)
        (.received (sampleAnswers 1) (fun _ => false) 5) = .returned () t ∧
      t.completions = [.failed (.connectionError "setting socket recv timeout")] ∧
      Reaches (fun _ => "") ⟨⟨1, 0⟩, false, .beforePunch, []⟩
        (.received (sampleAnswers 1) (fun _ => false) 5) .leaving t := by
  have hpunch : ∀ I, Stable I → Keeps I easyPunch := fun I hI => allocate_keeps hI
  have hrun := thread_refines (a := ⟨⟨1, 0⟩, false, .beforePunch, []⟩)
    (s := .received (sampleAnswers 1) (fun _ => false) 5) hpunch (fun _ _ => none)
    (fun _ => "") (received_calm _ _ (by decide)) rfl rfl
  exact ⟨_, rfl, rfl, hrun.returned rfl rfl⟩

end Refinement

end Attempt

end Grpc

end DistStorage
