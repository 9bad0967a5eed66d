import DistStorage.Cpp.Trace
import DistStorage.Grpc.HolePunchPath
import DistStorage.Net.PunchInvariant

/-!
# The completion of a hole punch

`PerformHolePunchAndHandshake` promises to call its callback once, with an endpoint
if the punch and the handshake succeeded without a cancellation, and with an error
otherwise. Here the punch is any action, and the callback may throw.

The function calls back inside the block whose exceptions it catches, so that a
callback that throws is called again. After a handshake it sets a timeout on the
descriptor that `handle` has just taken away, so that no handshake leads to an
endpoint.
-/

namespace DistStorage

namespace Grpc

namespace HolePunch

open Cpp Cpp.Action Net

inductive Progress
  | cancelledBefore
  | cancelledDuring
  | handshakeFailed
  | handshakeDone
  deriving DecidableEq, Repr

section Definitions

variable (punch : Run ℤ)

/-- The block of `PerformHolePunchAndHandshake` whose exceptions are caught, for a
given punch. -/
def punchAndHandshakeBy (onComplete : Completion → Run Unit) : Run Unit := do
  if ← loadCancelFlag then onComplete .cancelledBefore
  else do
    Action.modify (Machine.move .fd .listenFd)
    let raw ← punch
    Action.finallyDo (do
      Action.modify (Machine.setVar .connectedFd raw)
      if ← loadCancelFlag then onComplete .cancelledDuring
      else handshake onComplete) (Machine.reset .connectedFd)

/-- `PerformHolePunchAndHandshake` for a given punch. -/
def performBy (onComplete : Completion → Run Unit) : Run Unit :=
  Action.finallyDo
    (Action.tryCatch (punchAndHandshakeBy punch onComplete) fun e => onComplete (.failed e))
    (Machine.reset .fd)

def progress : Run Progress := do
  if ← loadCancelFlag then pure .cancelledBefore
  else do
    Action.modify (Machine.move .fd .listenFd)
    let raw ← punch
    Action.modify (Machine.setVar .connectedFd raw)
    if ← loadCancelFlag then pure .cancelledDuring
    else do
      tcpv4SetBlocking (← value .connectedFd)
      tcpv4SetTimeout (← value .connectedFd)
      sslNew
      sslSetFd (← handle .connectedFd)
      let ret ← sslHandshake
      if ret ≠ 1 then pure .handshakeFailed else pure .handshakeDone

/-- A callback, which is told how often it was called before. It may throw what the
handler catches; after any other exception there is no further call, as after a return. -/
abbrev Callback := ℕ → Completion → Option Exception

/-- A call of the callback is kept, whether it returns or throws. -/
def invoke (callback : Callback) (c : Completion) : Run Unit := do
  let s ← Action.get
  keepCompletion c
  match callback s.completions.length c with
  | none => pure ()
  | some e => Action.throw e

/-- The function ends with one call of the callback, which gets an endpoint exactly
if the handshake was done. -/
def CompletesOnce (callback : Callback) (s : Machine) : Prop :=
  ∃ t c, Leaves (performBy punch (invoke callback)) s t ∧
    t.completions = s.completions ++ [c] ∧
    ((∃ owned, c = .endpoint owned) ↔ ∃ u, progress punch s = .returned .handshakeDone u)

/-- The call of the callback with which the function ends before a handshake. -/
def Progress.completion : Progress → Option Completion
  | .cancelledBefore => some .cancelledBefore
  | .cancelledDuring => some .cancelledDuring
  | .handshakeFailed => some .handshakeFailed
  | .handshakeDone => none

/-- The punch or a socket option fails, or the function ends before a handshake is done
and the callback does not throw at that. -/
def EndsWell (callback : Callback) (s : Machine) : Prop :=
  match progress punch s with
  | .returned p _ => ∃ c, p.completion = some c ∧ callback s.completions.length c = none
  | .thrown _ _ => True
  | .undefined => False

end Definitions

theorem performHolePunchAndHandshake_eq (params : HolePunchParameters) :
    performHolePunchAndHandshake params = performBy (tcpv4HolePunch params) := rfl

section Tidies

variable {α β : Type}

/-- A cleanup that makes no call of the callback and does not read the flag. -/
structure Harmless (cleanup : Machine → Machine) : Prop where
  completions : ∀ t, (cleanup t).completions = t.completions
  loads : ∀ t, (cleanup t).loads = t.loads

theorem harmless_id : Harmless id := ⟨fun _ => rfl, fun _ => rfl⟩

/-- From every state, an action does what another one does, and cleans up after it. -/
def Tidies (m r : Run α) : Prop :=
  ∀ s, ∃ cleanup, Harmless cleanup ∧ m s = Action.finallyDo r cleanup s

theorem Tidies.refl (m : Run α) : Tidies m m := by
  refine fun s => ⟨id, harmless_id, ?_⟩
  unfold Action.finallyDo
  cases m s <;> rfl

theorem Tidies.finallyDo {m r : Run α} {cleanup : Machine → Machine} (h : Tidies m r)
    (hcleanup : Harmless cleanup) : Tidies (Action.finallyDo m cleanup) r := by
  intro s
  obtain ⟨inner, hinner, hm⟩ := h s
  refine ⟨cleanup ∘ inner, ⟨fun t => (hcleanup.completions _).trans (hinner.completions t),
    fun t => (hcleanup.loads _).trans (hinner.loads t)⟩, ?_⟩
  rw [Action.finallyDo, hm, Action.finallyDo, Action.finallyDo]
  cases r s <;> rfl

/-- Two sequences with the same beginning, of which the second is put together in
another way. -/
theorem Tidies.bind {m : Run α} {f : α → Run β} {g : α → Run Progress} {k : Progress → Run β}
    (h : ∀ a, Tidies (f a) (g a >>= k)) : Tidies (m >>= f) (m >>= g >>= k) := by
  intro s
  cases hm : m s with
  | returned a t =>
      obtain ⟨cleanup, hcleanup, hf⟩ := h a t
      refine ⟨cleanup, hcleanup, ?_⟩
      rw [bind_of_returned hm, hf, Action.finallyDo, Action.finallyDo]
      cases hg : g a t with
      | returned p u =>
          rw [bind_of_returned hg, bind_of_returned ((bind_of_returned hm).trans hg)]
      | thrown e u =>
          rw [bind_of_thrown hg, bind_of_thrown ((bind_of_returned hm).trans hg)]
      | undefined =>
          rw [bind_of_undefined hg, bind_of_undefined ((bind_of_returned hm).trans hg)]
  | thrown e t =>
      refine ⟨id, harmless_id, ?_⟩
      rw [bind_of_thrown hm, Action.finallyDo, bind_of_thrown (bind_of_thrown hm)]
      rfl
  | undefined =>
      refine ⟨id, harmless_id, ?_⟩
      rw [bind_of_undefined hm, Action.finallyDo, bind_of_undefined (bind_of_undefined hm)]

theorem reset_harmless (v : Var) : Harmless (Machine.reset v) :=
  ⟨Machine.reset_completions v, Machine.reset_loads v⟩

theorem freeLocal_harmless : Harmless freeLocal := by
  constructor
  all_goals
    intro t
    unfold freeLocal
    split_ifs <;> rfl

end Tidies

/-- What the function does once it is clear how far the handshake came. -/
def proceed (onComplete : Completion → Run Unit) : Progress → Run Unit
  | .cancelledBefore => onComplete .cancelledBefore
  | .cancelledDuring => onComplete .cancelledDuring
  | .handshakeFailed => onComplete .handshakeFailed
  | .handshakeDone => do
      tcpv4SetTimeout (← value .connectedFd)
      tcpv4SetBlocking (← value .connectedFd)
      newEndpoint
      let s ← Action.get
      onComplete (.endpoint (s.vars .endpointFd ∈ s.opened))

/-- The block of the function is the punch and the handshake, what follows on them,
and a cleanup. -/
theorem punchAndHandshakeBy_tidies (punch : Run ℤ) (onComplete : Completion → Run Unit) :
    Tidies (punchAndHandshakeBy punch onComplete) (progress punch >>= proceed onComplete) := by
  unfold punchAndHandshakeBy progress
  refine Tidies.bind fun cancelled => ?_
  split_ifs
  · exact .refl _
  refine Tidies.bind fun _ => Tidies.bind fun raw => Tidies.finallyDo ?_ (reset_harmless _)
  refine Tidies.bind fun _ => Tidies.bind fun cancelled => ?_
  split_ifs
  · exact .refl _
  unfold handshake
  refine Tidies.bind fun fd => Tidies.bind fun _ => Tidies.bind fun fd => ?_
  refine Tidies.bind fun _ => Tidies.bind fun _ => Tidies.finallyDo ?_ freeLocal_harmless
  refine Tidies.bind fun fd => Tidies.bind fun _ => Tidies.bind fun ret => ?_
  split_ifs
  · exact .refl _
  · exact .refl _

section Calm

variable {cs : List Completion}

/-- The descriptors that are open are not negative, and so many calls of the callback
were made. -/
structure Calm (cs : List Completion) (s : Machine) : Prop where
  completions_eq : s.completions = cs
  not_mem : -1 ∉ s.opened
  nextFd_nonneg : 0 ≤ s.nextFd

theorem calm_stable (cs : List Completion) : Stable (Calm cs) where
  answer _ h := ⟨h.completions_eq, h.not_mem, h.nextFd_nonneg⟩
  allocate s h := by
    refine ⟨h.completions_eq, ?_, h.nextFd_nonneg.trans (Int.le_add_one le_rfl)⟩
    have hne : -1 ≠ s.nextFd := by
      have := h.nextFd_nonneg
      omega
    exact fun hmem => (List.mem_append.mp hmem).elim h.not_mem fun hlast =>
      hne (List.mem_singleton.mp hlast)
  check fd s h := by
    unfold Machine.check
    split_ifs <;> exact ⟨h.completions_eq, h.not_mem, h.nextFd_nonneg⟩
  setVar _ _ _ h := ⟨h.completions_eq, h.not_mem, h.nextFd_nonneg⟩
  close fd s h := by
    have hcheck : Calm cs (s.check fd) := by
      unfold Machine.check
      split_ifs <;> exact ⟨h.completions_eq, h.not_mem, h.nextFd_nonneg⟩
    exact ⟨hcheck.completions_eq, fun hmem => hcheck.not_mem (List.mem_of_mem_erase hmem),
      hcheck.nextFd_nonneg⟩
  polls _ _ h := ⟨h.completions_eq, h.not_mem, h.nextFd_nonneg⟩

theorem received_calm (answers : ℕ → Answer) (cancelled : ℕ → Bool) {fd : ℤ} (hfd : 0 ≤ fd) :
    Calm [] (.received answers cancelled fd) := by
  refine ⟨rfl, fun hmem => ?_, hfd.trans (Int.le_add_one le_rfl)⟩
  have hneg : -1 = fd := List.mem_singleton.mp hmem
  omega

theorem loadCancelFlag_keeps : Keeps (Calm cs) loadCancelFlag :=
  fun _ h => ⟨h.completions_eq, h.not_mem, h.nextFd_nonneg⟩

theorem sslNew_keeps : Keeps (Calm cs) sslNew := by
  refine (answer_keeps (calm_stable cs)).bind fun a => ?_
  change Keeps _ (if a.ret = 0 then (Action.ofOption none : Run Unit) else Action.modify _)
  split_ifs
  · exact fun _ _ => trivial
  · exact Keeps.modify fun s h => ⟨h.completions_eq, h.not_mem, h.nextFd_nonneg⟩

structure Emptied (cs : List Completion) (s : Machine) : Prop extends Calm cs s where
  connectedFd_eq : s.vars .connectedFd = -1

theorem sslHandshake_keeps : Keeps (Emptied cs) sslHandshake := by
  intro s h
  have hchecked := operate_keeps (calm_stable cs) s.sslFd s h.toCalm
  refine ⟨hchecked, ?_⟩
  rw [(check_eq s.sslFd { s with calls := s.calls + 1 }).1]
  exact h.connectedFd_eq

/-- The punch and the handshake make no call of the callback, and a handshake that is
done leaves no descriptor behind. -/
theorem progress_triple {punch : Run ℤ} (hpunch : Keeps (Calm cs) punch) :
    Triple (Calm cs) (progress punch)
      (fun p t => Calm cs t ∧ (p = .handshakeDone → t.vars .connectedFd = -1))
      (fun _ => Calm cs) := by
  have hstable := calm_stable cs
  have hmove : ∀ s, Calm cs s → Calm cs (s.move .fd .listenFd) := fun s h =>
    hstable.setVar _ _ _ (hstable.setVar _ _ _ h)
  have hpure : ∀ p ≠ Progress.handshakeDone, Triple (Calm cs) (pure p : Run Progress)
      (fun p t => Calm cs t ∧ (p = .handshakeDone → t.vars .connectedFd = -1))
      (fun _ => Calm cs) :=
    fun p hp s h => ⟨h, fun hdone => absurd hdone hp⟩
  unfold progress
  refine Triple.bind loadCancelFlag_keeps fun cancelled => ?_
  split_ifs
  · exact hpure _ (by simp)
  refine Triple.bind (Keeps.modify hmove) fun _ => Triple.bind hpunch fun raw => ?_
  refine Triple.bind (Keeps.modify (hstable.setVar _ raw)) fun _ => ?_
  refine Triple.bind loadCancelFlag_keeps fun cancelled => ?_
  split_ifs
  · exact hpure _ (by simp)
  refine Triple.bind (Keeps.value _) fun fd => ?_
  refine Triple.bind (tcpv4SetBlocking_keeps hstable fd) fun _ => ?_
  refine Triple.bind (Keeps.value _) fun fd => ?_
  refine Triple.bind (tcpv4SetTimeout_keeps hstable fd) fun _ => ?_
  refine Triple.bind sslNew_keeps fun _ => ?_
  have hhandle : Triple (Calm cs) (handle .connectedFd) (fun _ => Emptied cs)
      (fun _ => Calm cs) :=
    fun s h => ⟨hstable.setVar _ _ _ h, rfl⟩
  have hset : ∀ fd, Triple (Emptied cs) (sslSetFd fd) (fun _ => Emptied cs)
      (fun _ => Calm cs) :=
    fun fd s h => ⟨⟨h.completions_eq, h.not_mem, h.nextFd_nonneg⟩, h.connectedFd_eq⟩
  have hconnect : Triple (Emptied cs) sslHandshake (fun _ => Emptied cs) (fun _ => Calm cs) :=
    sslHandshake_keeps.consequence (fun _ h => h) (fun _ _ h => h) fun _ _ h => h.toCalm
  refine hhandle.bind fun fd => (hset fd).bind fun _ => hconnect.bind fun ret => ?_
  split_ifs
  · exact fun s h => ⟨h.toCalm, fun _ => h.connectedFd_eq⟩
  · exact fun s h => ⟨h.toCalm, fun _ => h.connectedFd_eq⟩

end Calm

section Outcomes

variable {punch : Run ℤ} {callback : Callback} {s t u : Machine} {cs : List Completion}

/-- After a handshake the timeout is set on no descriptor. -/
theorem proceed_handshakeDone (onComplete : Completion → Run Unit) (h : Emptied cs t) :
    ∃ e u, proceed onComplete .handshakeDone t = .thrown e u ∧ u.completions = cs := by
  have hoperate : operate (-1) t = .returned
      { t.answers t.calls with
        ret := -1
        errno := .other
        pollIn := false
        pollOut := false
        soError := 0 } (Machine.check (-1) { t with calls := t.calls + 1 }) := by
    change Outcome.returned (if _ ∈ t.opened then _ else _) _ = _
    rw [if_neg h.not_mem]
  have htimeout : tcpv4SetTimeout (t.vars .connectedFd) t =
      .thrown (.connectionError "setting socket recv timeout")
        (Machine.check (-1) { t with calls := t.calls + 1 }) := by
    rw [h.connectedFd_eq]
    exact (bind_of_returned hoperate).trans
      (bind_of_thrown (ccall_thrown (show ¬(0 : ℤ) ≤ -1 by decide) _))
  have hvalue : value .connectedFd t = .returned (t.vars .connectedFd) t := rfl
  exact ⟨_, _, (bind_of_returned hvalue).trans (bind_of_thrown htimeout),
    (Machine.check_completions _ _).trans h.completions_eq⟩

theorem invoke_of_none {c : Completion} (h : callback s.completions.length c = none) :
    invoke callback c s = .returned () { s with completions := s.completions ++ [c] } := by
  change (match callback s.completions.length c with
    | none => (pure () : Run Unit)
    | some e => Action.throw e) _ = _
  rw [h]
  rfl

theorem invoke_of_some {c : Completion} {e : Exception}
    (h : callback s.completions.length c = some e) :
    invoke callback c s = .thrown e { s with completions := s.completions ++ [c] } := by
  change (match callback s.completions.length c with
    | none => (pure () : Run Unit)
    | some e => Action.throw e) _ = _
  rw [h]
  rfl

theorem performBy_of_returned
    (h : punchAndHandshakeBy punch (invoke callback) s = .returned () t) :
    Leaves (performBy punch (invoke callback)) s (t.reset .fd) :=
  .returned () (finallyDo_of_returned (tryCatch_of_returned h))

/-- What is thrown is reported to the callback, whatever it answers. -/
theorem performBy_of_thrown {e : Exception}
    (h : punchAndHandshakeBy punch (invoke callback) s = .thrown e t) :
    ∃ u, Leaves (performBy punch (invoke callback)) s u ∧
      u.completions = t.completions ++ [.failed e] := by
  refine ⟨Machine.reset .fd { t with completions := t.completions ++ [.failed e] }, ?_,
    Machine.reset_completions _ _⟩
  have hcatch : tryCatch (punchAndHandshakeBy punch (invoke callback))
      (fun e => invoke callback (.failed e)) s = invoke callback (.failed e) t :=
    tryCatch_of_thrown h
  cases hcallback : callback t.completions.length (.failed e) with
  | none =>
      rw [invoke_of_none hcallback] at hcatch
      exact .returned () (finallyDo_of_returned hcatch)
  | some e' =>
      rw [invoke_of_some hcallback] at hcatch
      exact .thrown e' (finallyDo_of_thrown hcatch)

theorem performBy_of_undefined
    (h : punchAndHandshakeBy punch (invoke callback) s = .undefined) :
    ¬Leaves (performBy punch (invoke callback)) s t := by
  have hperform : performBy punch (invoke callback) s = .undefined := by
    rw [performBy, Action.finallyDo, Action.tryCatch, h]
  intro hleaves
  cases hleaves with
  | returned a ha => cases hperform.symm.trans ha
  | thrown e he => cases hperform.symm.trans he

theorem completesOnce_of_leaves (h : Leaves (performBy punch (invoke callback)) s t) :
    CompletesOnce punch callback s ↔ ∃ c, t.completions = s.completions ++ [c] ∧
      ((∃ owned, c = .endpoint owned) ↔
        ∃ u, progress punch s = .returned .handshakeDone u) := by
  constructor
  · rintro ⟨u, c, hleaves, hc⟩
    obtain rfl := h.unique hleaves
    exact ⟨c, hc⟩
  · rintro ⟨c, hc⟩
    exact ⟨t, c, h, hc⟩

/-- Where the function calls back with an error outside the handler, all depends on the
callback. -/
theorem completesOnce_of_completion {p : Progress} {c : Completion}
    (hprogress : progress punch s = .returned p t) (ht : t.completions = s.completions)
    (hp : p.completion = some c) :
    CompletesOnce punch callback s ↔ callback s.completions.length c = none := by
  have hproceed : proceed (invoke callback) p = invoke callback c := by
    cases p <;> cases hp <;> rfl
  have hnot : ¬((∃ owned, c = .endpoint owned) ↔
      ∃ u, progress punch s = .returned .handshakeDone u) ↔ False := by
    rw [hprogress]
    cases p <;> cases hp <;> simp
  obtain ⟨cleanup, hcleanup, hbody⟩ := punchAndHandshakeBy_tidies punch (invoke callback) s
  rw [Action.finallyDo, bind_of_returned hprogress, hproceed] at hbody
  cases hcallback : callback s.completions.length c with
  | none =>
      rw [invoke_of_none (by rw [ht]; exact hcallback)] at hbody
      refine iff_of_true ((completesOnce_of_leaves (performBy_of_returned hbody)).mpr
        ⟨c, ?_, not_not.mp (fun h => hnot.mp h)⟩) rfl
      rw [Machine.reset_completions, hcleanup.completions, ht]
  | some e =>
      rw [invoke_of_some (by rw [ht]; exact hcallback)] at hbody
      obtain ⟨u, hleaves, hu⟩ := performBy_of_thrown hbody
      refine iff_of_false (fun h => ?_) (by simp)
      obtain ⟨c', hc', -⟩ := (completesOnce_of_leaves hleaves).mp h
      rw [hu, hcleanup.completions, ht, List.append_assoc] at hc'
      exact absurd (congrArg List.length (List.append_cancel_left hc')) (by simp)

end Outcomes

/-- The callback is called once and with the right result exactly if the punch or a
socket option fails, or the function ends before a handshake is done and the callback
does not throw at that. -/
theorem completesOnce_iff {punch : Run ℤ} (hpunch : ∀ cs, Keeps (Calm cs) punch)
    (callback : Callback) (answers : ℕ → Answer) (cancelled : ℕ → Bool) {fd : ℤ} (hfd : 0 ≤ fd) :
    CompletesOnce punch callback (.received answers cancelled fd) ↔
      EndsWell punch callback (.received answers cancelled fd) := by
  have hcalm := received_calm answers cancelled hfd
  have htriple := progress_triple (hpunch [])
  obtain ⟨cleanup, hcleanup, hbody⟩ :=
    punchAndHandshakeBy_tidies punch (invoke callback) (.received answers cancelled fd)
  rw [Action.finallyDo] at hbody
  rw [EndsWell]
  cases hprogress : progress punch (.received answers cancelled fd) with
  | returned p t =>
      obtain ⟨ht, hdone⟩ := htriple.returned hcalm hprogress
      cases hp : p.completion with
      | some c =>
          have hiff : CompletesOnce punch callback _ ↔ callback _ c = none :=
            completesOnce_of_completion hprogress ht.completions_eq hp
          simpa [hp] using hiff
      | none =>
          obtain rfl : p = .handshakeDone := by cases p <;> cases hp; rfl
          obtain ⟨e, u, hthrown, hu⟩ :=
            proceed_handshakeDone (invoke callback) (Emptied.mk ht (hdone rfl))
          rw [bind_of_returned hprogress, hthrown] at hbody
          obtain ⟨v, hleaves, hv⟩ := performBy_of_thrown hbody
          refine iff_of_false (fun h => ?_) (by simp [hp])
          obtain ⟨c, hc, hiff⟩ := (completesOnce_of_leaves hleaves).mp h
          obtain ⟨owned, rfl⟩ := hiff.mpr ⟨t, hprogress⟩
          rw [hv, hcleanup.completions, hu] at hc
          cases hc
  | thrown e t =>
      have ht := htriple.thrown hcalm hprogress
      rw [bind_of_thrown hprogress] at hbody
      obtain ⟨u, hleaves, hu⟩ := performBy_of_thrown hbody
      refine iff_of_true ((completesOnce_of_leaves hleaves).mpr ⟨.failed e, ?_, ?_⟩) trivial
      · rw [hu, hcleanup.completions, ht.completions_eq]
        rfl
      · simp [hprogress]
  | undefined =>
      rw [bind_of_undefined hprogress] at hbody
      refine iff_of_false ?_ id
      rintro ⟨t, c, hleaves, -⟩
      exact performBy_of_undefined hbody hleaves

def easyPunch : Run ℤ := allocate

def throwing : Callback := fun _ _ => some (.invalidArgument "callback")

theorem completesOnce_iff_sample :
    CompletesOnce (tcpv4HolePunch sampleParameters) throwing
      (.received (sampleAnswers (-1)) (fun _ => false) 5) :=
  (completesOnce_iff (fun cs => tcpv4HolePunch_keeps (calm_stable cs) sampleParameters) throwing
    (sampleAnswers (-1)) (fun _ => false) (by decide : (0 : ℤ) ≤ 5)).mpr trivial

/-- A handshake that is done ends in an error, and a callback that throws at a
cancellation is called twice. -/
theorem completion_wrong :
    ¬CompletesOnce easyPunch (fun _ _ => none)
        (.received (sampleAnswers 1) (fun _ => false) 5) ∧
      ¬CompletesOnce (tcpv4HolePunch sampleParameters) throwing
        (.received (sampleAnswers 1) (fun _ => true) 5) := by
  constructor
  · rintro ⟨t, c, hleaves, hc, hiff⟩
    obtain rfl := hleaves.unique (.returned () rfl)
    obtain rfl : c = .failed (.connectionError "setting socket recv timeout") :=
      (List.cons.inj hc).1.symm
    obtain ⟨owned, howned⟩ := hiff.mpr ⟨_, rfl⟩
    cases howned
  · rintro ⟨t, c, hleaves, hc, -⟩
    obtain rfl := hleaves.unique (.thrown (.invalidArgument "callback") rfl)
    have hlength : 2 = 1 := congrArg List.length hc
    cases hlength

end HolePunch

end Grpc

end DistStorage
