import DistStorage.Transition.Run

/-!
# Connection attempts and their cancellation

`HolePunchEventEngine::Connect` numbers an attempt, registers its cancel flag and
leaves the rest to a detached thread; attempts without hole-punch parameters go
to the default engine, whose handles are arbitrary. `CancelConnect` finds a flag
by the first key of a handle and sets it outside the lock.

A run interleaves these steps. The attempts are numbered in the order of the
calls of `Connect`, and a thread can always be started. A thread that leaves an
exception uncaught ends the run.
-/

namespace DistStorage

namespace Grpc

open Transition

structure ConnectionHandle where
  key0 : ℤ
  key1 : ℤ
  deriving DecidableEq, Repr

def ConnectionHandle.kInvalid : ConnectionHandle := ⟨-1, -1⟩

inductive ConnectResult
  | endpoint
  | cancelled (message : String)
  | unavailable (message : String)
  deriving DecidableEq, Repr

/-- Where the thread of an attempt stands. An attempt of the default engine has
no thread here; `caught` says that the handler of the `try` block is running. -/
inductive Phase
  | registering
  | beforePunch
  | punching
  | beforeHandshake
  | handshaking
  | completing (r : ConnectResult) (caught : Bool)
  | calling (caught : Bool)
  | leaving
  | finished
  | delegated
  deriving DecidableEq, Repr

structure Attempt where
  handle : ConnectionHandle
  cancelFlag : Bool
  phase : Phase
  onConnect : List ConnectResult
  deriving DecidableEq, Repr

inductive Handshake
  | connected
  | failed
  | threw (what : String)
  deriving DecidableEq, Repr

/-- The steps of an attempt: the rest of `Connect`, and those of its thread. -/
inductive Work
  | register
  | load
  | punch (threw : Option String)
  | handshake (result : Handshake)
  | invoke
  | returned
  | threw (what : String)
  | cleanup
  deriving DecidableEq, Repr

namespace Attempt

def caught (a : Attempt) (what : String) : Attempt :=
  { a with phase := .completing (.unavailable ("Hole punch failed: " ++ what)) true }

/-- `PerformHolePunchAndHandshake` in the thread of the attempt. -/
def work (a : Attempt) (w : Work) : Option Attempt :=
  match a.phase, w with
  | .registering, .register => some { a with phase := .beforePunch }
  | .beforePunch, .load =>
      some { a with
        phase :=
          if a.cancelFlag then .completing (.cancelled "Cancelled before punch") false
          else .punching }
  | .punching, .punch none => some { a with phase := .beforeHandshake }
  | .punching, .punch (some what) => some (a.caught what)
  | .beforeHandshake, .load =>
      some { a with
        phase :=
          if a.cancelFlag then .completing (.cancelled "Cancelled during punch") false
          else .handshaking }
  | .handshaking, .handshake .connected =>
      some { a with phase := .completing .endpoint false }
  | .handshaking, .handshake .failed =>
      some { a with
        phase := .completing (.unavailable "TLS Handshake failed or timed out") false }
  | .handshaking, .handshake (.threw what) => some (a.caught what)
  | .completing r caught, .invoke =>
      some { a with phase := .calling caught, onConnect := a.onConnect ++ [r] }
  | .calling _, .returned => some { a with phase := .leaving }
  | .calling false, .threw what => some (a.caught what)
  | .leaving, .cleanup => some { a with phase := .finished }
  | _, _ => none

/-- The thread of the attempt was started, and if it has completed the attempt
then `on_connect` was invoked. -/
def Started (a : Attempt) : Prop :=
  match a.phase with
  | .registering | .delegated => False
  | .calling _ | .leaving | .finished => a.onConnect ≠ []
  | _ => True

/-- What every step keeps of an attempt. -/
structure Advances (a b : Attempt) : Prop where
  handle_eq : b.handle = a.handle
  cancelFlag_of : a.cancelFlag = true → b.cancelFlag = true
  started_of : a.Started → b.Started

theorem Advances.refl (a : Attempt) : Advances a a := ⟨rfl, id, id⟩

theorem work_keeps {a b : Attempt} {w : Work} (h : a.work w = some b) :
    b.handle = a.handle ∧ b.cancelFlag = a.cancelFlag := by
  unfold work at h
  split at h <;> cases h <;> exact ⟨rfl, rfl⟩

/-- `on_connect` was invoked before the thread leaves the function. -/
theorem Started.work {a b : Attempt} {w : Work} (ha : a.Started) (h : a.work w = some b) :
    b.Started := by
  unfold Attempt.work at h
  split at h <;> cases h <;> rename_i hphase <;> simp only [Started, hphase, caught] at ha ⊢
  case h_2 => split_ifs <;> trivial
  case h_5 => split_ifs <;> trivial
  case h_9 => simp
  all_goals trivial

theorem started_of_register {a b : Attempt} (h : a.work .register = some b) : b.Started := by
  unfold Attempt.work at h
  split at h <;> cases h
  all_goals trivial

theorem advances_of_work {a b : Attempt} {w : Work} (h : a.work w = some b) : Advances a b := by
  obtain ⟨hhandle, hflag⟩ := work_keeps h
  exact ⟨hhandle, fun ha => hflag.trans ha, fun ha => ha.work h⟩

def Invokes (a : Attempt) : Prop :=
  ∃ ws b, run work a ws = some b ∧ b.handle = a.handle ∧ b.onConnect ≠ []

theorem invokes_of_work {a b : Attempt} {w : Work} (h : a.work w = some b) (hb : b.Invokes) :
    a.Invokes := by
  obtain ⟨ws, c, hrun, hhandle, hinvoked⟩ := hb
  exact ⟨w :: ws, c, run_cons_eq_some.mpr ⟨b, h, hrun⟩, hhandle.trans (work_keeps h).1, hinvoked⟩

theorem invokes_of_completing {a : Attempt} {r : ConnectResult} {caught : Bool}
    (h : a.phase = .completing r caught) : a.Invokes := by
  have hwork : a.work .invoke = some { a with
      phase := .calling caught
      onConnect := a.onConnect ++ [r] } := by
    unfold work
    rw [h]
  exact ⟨[.invoke], _, run_cons_eq_some.mpr ⟨_, hwork, rfl⟩, rfl, by simp⟩

/-- A thread that was started has called `on_connect` or still can: at the two
blocking calls by an exception, at the checks if the flag is set. -/
theorem invokes_of_started {a : Attempt} (h : a.Started) (hflag : a.cancelFlag = true) :
    a.Invokes := by
  have hdone : a.onConnect ≠ [] → a.Invokes := fun hne => ⟨[], a, rfl, rfl, hne⟩
  unfold Started at h
  cases hphase : a.phase with
  | registering =>
      rw [hphase] at h
      exact h.elim
  | delegated =>
      rw [hphase] at h
      exact h.elim
  | beforePunch =>
      have hwork : a.work .load = some { a with
          phase := .completing (.cancelled "Cancelled before punch") false } := by
        unfold work
        simp only [hphase, hflag, if_true]
      exact invokes_of_work hwork (invokes_of_completing rfl)
  | beforeHandshake =>
      have hwork : a.work .load = some { a with
          phase := .completing (.cancelled "Cancelled during punch") false } := by
        unfold work
        simp only [hphase, hflag, if_true]
      exact invokes_of_work hwork (invokes_of_completing rfl)
  | punching =>
      have hwork : a.work (.punch (some "")) = some (a.caught "") := by
        unfold work
        rw [hphase]
      exact invokes_of_work hwork (invokes_of_completing rfl)
  | handshaking =>
      have hwork : a.work (.handshake (.threw "")) = some (a.caught "") := by
        unfold work
        rw [hphase]
      exact invokes_of_work hwork (invokes_of_completing rfl)
  | completing r caught => exact invokes_of_completing hphase
  | calling caught =>
      rw [hphase] at h
      exact hdone h
  | leaving =>
      rw [hphase] at h
      exact hdone h
  | finished =>
      rw [hphase] at h
      exact hdone h

end Attempt

/-- The engine with its calls of `CancelConnect`: those that found the flag of an
attempt and did not set it yet, and those that returned, with the attempt whose
flag they set if they returned true. -/
structure ConnectEngine where
  nextConnectionId : ℤ
  activeFlags : ℤ → Option ℕ
  attempts : List Attempt
  found : List (ConnectionHandle × ℕ)
  returned : List (ConnectionHandle × Option ℕ)

namespace ConnectEngine

inductive Event
  | connect (reserved : Bool)
  | connectDelegated (handle : ConnectionHandle)
  | completeDelegated (i : ℕ) (r : ConnectResult)
  | work (i : ℕ) (w : Work)
  | cancelConnect (handle : ConnectionHandle)
  | storeFlag (j : ℕ)
  deriving DecidableEq, Repr

def new : ConnectEngine where
  nextConnectionId := 1
  activeFlags := fun _ => none
  attempts := []
  found := []
  returned := []

/-- The tracker after a step of an attempt: `Connect` registers the flag, and
`CleanupGuard` erases it. -/
def track (s : ConnectEngine) (i : ℕ) (a : Attempt) : Work → ℤ → Option ℕ
  | .register => Function.update s.activeFlags a.handle.key0 (some i)
  | .cleanup => Function.update s.activeFlags a.handle.key0 none
  | _ => s.activeFlags

def step (s : ConnectEngine) : Event → Option ConnectEngine
  | .connect false =>
      some { s with
        attempts := s.attempts ++
          [⟨.kInvalid, false, .finished, [.unavailable "Socket consumed by previous attempt"]⟩] }
  | .connect true =>
      some { s with
        nextConnectionId := Int.bmod (s.nextConnectionId + 1) (2 ^ 64)
        attempts := s.attempts ++ [⟨⟨s.nextConnectionId, 0⟩, false, .registering, []⟩] }
  | .connectDelegated handle =>
      some { s with attempts := s.attempts ++ [⟨handle, false, .delegated, []⟩] }
  | .completeDelegated i r => do
      let a ← s.attempts[i]?
      if a.phase = .delegated ∧ a.onConnect = [] then
        some { s with attempts := s.attempts.set i { a with onConnect := [r] } }
      else none
  | .work i w => do
      let a ← s.attempts[i]?
      let b ← a.work w
      some { s with attempts := s.attempts.set i b, activeFlags := s.track i a w }
  | .cancelConnect handle =>
      match s.activeFlags handle.key0 with
      | some i => some { s with found := s.found ++ [(handle, i)] }
      | none => some { s with returned := s.returned ++ [(handle, none)] }
  | .storeFlag j => do
      let (handle, i) ← s.found[j]?
      let a ← s.attempts[i]?
      some { s with
        attempts := s.attempts.set i { a with cancelFlag := true }
        found := s.found.eraseIdx j
        returned := s.returned ++ [(handle, some i)] }

/-- No flag is registered under the first key of the handle of a call of
`CancelConnect`. -/
def Untracked (s : ConnectEngine) : Event → Prop
  | .cancelConnect handle => s.activeFlags handle.key0 = none
  | _ => True

instance (s : ConnectEngine) : (e : Event) → Decidable (s.Untracked e)
  | .cancelConnect handle => inferInstanceAs (Decidable (s.activeFlags handle.key0 = none))
  | .connect _ | .connectDelegated _ | .completeDelegated _ _ | .work _ _ | .storeFlag _ =>
      .isTrue trivial

/-- The calls under way go on, and no new call is made. -/
def GoesOn : Event → Prop
  | .completeDelegated _ _ | .work _ _ | .storeFlag _ => True
  | .connect _ | .connectDelegated _ | .cancelConnect _ => False

/-- A call of `CancelConnect` that returns in this step changes no attempt but
those of its handle, and none if it returns false. -/
def Contained (s : ConnectEngine) (e : Event) : Prop :=
  ∀ (t : ConnectEngine) (handle : ConnectionHandle) (flag : Option ℕ), s.step e = some t →
    t.returned = s.returned ++ [(handle, flag)] →
    (flag = none → t.attempts = s.attempts) ∧
      ∀ (i : ℕ) (a : Attempt), s.attempts[i]? = some a → a.handle ≠ handle →
        t.attempts[i]? = some a

/-- Where `CancelConnect` returned true, `on_connect` of the attempt was not
invoked. -/
def NeverInvoked (s : ConnectEngine) : Prop :=
  ∀ handle i, (handle, some i) ∈ s.returned →
    ∀ a : Attempt, a ∈ s.attempts → a.handle = handle → a.onConnect = []

/-- What the calls of a run promise. -/
structure Honours (es : List Event) : Prop where
  contained : AllSteps step Contained new es
  neverInvoked : ∀ pre s, pre <+: es → run step new pre = some s → s.NeverInvoked

theorem step_completeDelegated_eq_some {s t : ConnectEngine} {i : ℕ} {r : ConnectResult} :
    s.step (.completeDelegated i r) = some t ↔
      ∃ a, s.attempts[i]? = some a ∧ (a.phase = .delegated ∧ a.onConnect = []) ∧
        t = { s with attempts := s.attempts.set i { a with onConnect := [r] } } := by
  change (s.attempts[i]? >>= fun a : Attempt =>
    if a.phase = .delegated ∧ a.onConnect = [] then _ else _) = some t ↔ _
  rw [Option.bind_eq_bind, Option.bind_eq_some_iff]
  constructor
  · rintro ⟨a, ha, h⟩
    split_ifs at h with hphase
    exact ⟨a, ha, hphase, (Option.some.inj h).symm⟩
  · rintro ⟨a, ha, hphase, rfl⟩
    exact ⟨a, ha, if_pos hphase⟩

theorem step_work_eq_some {s t : ConnectEngine} {i : ℕ} {w : Work} :
    s.step (.work i w) = some t ↔
      ∃ a b, s.attempts[i]? = some a ∧ a.work w = some b ∧
        t = { s with attempts := s.attempts.set i b, activeFlags := s.track i a w } := by
  change (s.attempts[i]? >>= fun a => a.work w >>= fun b => _) = some t ↔ _
  simp only [Option.bind_eq_bind, Option.bind_eq_some_iff, Option.some.injEq]
  constructor
  · rintro ⟨a, ha, b, hb, rfl⟩
    exact ⟨a, b, ha, hb, rfl⟩
  · rintro ⟨a, b, ha, hb, rfl⟩
    exact ⟨a, ha, b, hb, rfl⟩

theorem step_cancelConnect_eq_some {s t : ConnectEngine} {handle : ConnectionHandle} :
    s.step (.cancelConnect handle) = some t ↔
      (∃ i, s.activeFlags handle.key0 = some i ∧ t = { s with found := s.found ++ [(handle, i)] }) ∨
        s.activeFlags handle.key0 = none ∧
          t = { s with returned := s.returned ++ [(handle, none)] } := by
  change (match s.activeFlags handle.key0 with
    | some i => some { s with found := s.found ++ [(handle, i)] }
    | none => some { s with returned := s.returned ++ [(handle, none)] }) = some t ↔ _
  cases s.activeFlags handle.key0 with
  | none => simp [eq_comm]
  | some i => simp [eq_comm]

theorem step_storeFlag_eq_some {s t : ConnectEngine} {j : ℕ} :
    s.step (.storeFlag j) = some t ↔
      ∃ handle i a, s.found[j]? = some (handle, i) ∧ s.attempts[i]? = some a ∧
        t = { s with
          attempts := s.attempts.set i { a with cancelFlag := true }
          found := s.found.eraseIdx j
          returned := s.returned ++ [(handle, some i)] } := by
  change (s.found[j]? >>= fun c => s.attempts[c.2]? >>= fun a => _) = some t ↔ _
  simp only [Option.bind_eq_bind, Option.bind_eq_some_iff, Option.some.injEq, Prod.exists]
  constructor
  · rintro ⟨handle, i, hj, a, ha, rfl⟩
    exact ⟨handle, i, a, hj, ha, rfl⟩
  · rintro ⟨handle, i, a, hj, ha, rfl⟩
    exact ⟨handle, i, hj, a, ha, rfl⟩

theorem getElem?_set_of_related {R : Attempt → Attempt → Prop} (hrefl : ∀ a, R a a)
    {l : List Attempt} {i : ℕ} {a b : Attempt} (ha : l[i]? = some a) (hab : R a b) {k : ℕ}
    {c : Attempt} (hc : l[k]? = some c) : ∃ d, (l.set i b)[k]? = some d ∧ R c d := by
  by_cases hik : i = k
  · subst hik
    obtain rfl : a = c := Option.some.inj (ha.symm.trans hc)
    obtain ⟨hlt, -⟩ := List.getElem?_eq_some_iff.mp hc
    exact ⟨b, List.getElem?_set_self hlt, hab⟩
  · exact ⟨c, by rw [List.getElem?_set_ne hik]; exact hc, hrefl c⟩

theorem getElem?_append_singleton_of_some {l : List Attempt} {i : ℕ} {a b : Attempt}
    (h : l[i]? = some a) : (l ++ [b])[i]? = some a := by
  obtain ⟨hlt, -⟩ := List.getElem?_eq_some_iff.mp h
  rw [List.getElem?_append_left hlt]
  exact h

theorem attempts_advance {s t : ConnectEngine} {e : Event} (h : s.step e = some t) {i : ℕ}
    {a : Attempt} (ha : s.attempts[i]? = some a) :
    ∃ b, t.attempts[i]? = some b ∧ a.Advances b := by
  cases e with
  | connect reserved =>
      cases reserved <;> cases h <;>
        exact ⟨a, getElem?_append_singleton_of_some ha, .refl a⟩
  | connectDelegated handle =>
      cases h
      exact ⟨a, getElem?_append_singleton_of_some ha, .refl a⟩
  | completeDelegated k r =>
      obtain ⟨c, hc, ⟨hphase, -⟩, rfl⟩ := step_completeDelegated_eq_some.mp h
      apply getElem?_set_of_related Attempt.Advances.refl hc _ ha
      refine ⟨rfl, id, fun hstarted => ?_⟩
      rw [Attempt.Started, hphase] at hstarted
      exact hstarted.elim
  | work k w =>
      obtain ⟨c, d, hc, hd, rfl⟩ := step_work_eq_some.mp h
      exact getElem?_set_of_related Attempt.Advances.refl hc (Attempt.advances_of_work hd) ha
  | cancelConnect handle =>
      rcases step_cancelConnect_eq_some.mp h with ⟨k, -, rfl⟩ | ⟨-, rfl⟩ <;>
        exact ⟨a, ha, .refl a⟩
  | storeFlag j =>
      obtain ⟨handle, k, c, -, hc, rfl⟩ := step_storeFlag_eq_some.mp h
      have hstore : c.Advances { c with cancelFlag := true } := ⟨rfl, fun _ => rfl, id⟩
      exact getElem?_set_of_related Attempt.Advances.refl hc hstore ha

theorem found_step {s t : ConnectEngine} {e : Event} (h : s.step e = some t)
    {handle : ConnectionHandle} {i : ℕ} (hmem : (handle, i) ∈ t.found) :
    (handle, i) ∈ s.found ∨ e = .cancelConnect handle ∧ s.activeFlags handle.key0 = some i := by
  cases e with
  | connect reserved => cases reserved <;> cases h <;> exact .inl hmem
  | connectDelegated handle =>
      cases h
      exact .inl hmem
  | completeDelegated k r =>
      obtain ⟨c, -, -, rfl⟩ := step_completeDelegated_eq_some.mp h
      exact .inl hmem
  | work k w =>
      obtain ⟨c, d, -, -, rfl⟩ := step_work_eq_some.mp h
      exact .inl hmem
  | cancelConnect handle' =>
      rcases step_cancelConnect_eq_some.mp h with ⟨k, hk, rfl⟩ | ⟨-, rfl⟩
      · rcases List.mem_append.mp hmem with hmem | hmem
        · exact .inl hmem
        · obtain ⟨rfl, rfl⟩ := Prod.mk.inj (List.mem_singleton.mp hmem)
          exact .inr ⟨rfl, hk⟩
      · exact .inl hmem
  | storeFlag j =>
      obtain ⟨handle', k, c, -, -, rfl⟩ := step_storeFlag_eq_some.mp h
      exact .inl (List.mem_of_mem_eraseIdx hmem)

theorem activeFlags_step {s t : ConnectEngine} {e : Event} (h : s.step e = some t) {key : ℤ}
    {i : ℕ} (hkey : t.activeFlags key = some i) :
    s.activeFlags key = some i ∨ ∃ b, t.attempts[i]? = some b ∧ b.Started := by
  cases e with
  | connect reserved => cases reserved <;> cases h <;> exact .inl hkey
  | connectDelegated handle =>
      cases h
      exact .inl hkey
  | completeDelegated k r =>
      obtain ⟨c, -, -, rfl⟩ := step_completeDelegated_eq_some.mp h
      exact .inl hkey
  | work k w =>
      obtain ⟨c, d, hc, hd, rfl⟩ := step_work_eq_some.mp h
      obtain ⟨hlt, -⟩ := List.getElem?_eq_some_iff.mp hc
      change s.track k c w key = some i at hkey
      unfold track at hkey
      split at hkey
      · by_cases heq : key = c.handle.key0
        · rw [heq, Function.update_self] at hkey
          obtain rfl := Option.some.inj hkey
          exact .inr ⟨d, List.getElem?_set_self hlt, Attempt.started_of_register hd⟩
        · rw [Function.update_of_ne heq] at hkey
          exact .inl hkey
      · by_cases heq : key = c.handle.key0
        · rw [heq, Function.update_self] at hkey
          cases hkey
        · rw [Function.update_of_ne heq] at hkey
          exact .inl hkey
      · exact .inl hkey
  | cancelConnect handle =>
      rcases step_cancelConnect_eq_some.mp h with ⟨k, hk, rfl⟩ | ⟨-, rfl⟩ <;> exact .inl hkey
  | storeFlag j =>
      obtain ⟨handle, k, c, -, -, rfl⟩ := step_storeFlag_eq_some.mp h
      exact .inl hkey

theorem returned_step {s t : ConnectEngine} {e : Event} (h : s.step e = some t) :
    t.returned = s.returned ∨
      (∃ handle, s.activeFlags handle.key0 = none ∧ e = .cancelConnect handle ∧
        t = { s with returned := s.returned ++ [(handle, none)] }) ∨
      ∃ handle i a, (handle, i) ∈ s.found ∧ s.attempts[i]? = some a ∧
        t.attempts = s.attempts.set i { a with cancelFlag := true } ∧
        t.returned = s.returned ++ [(handle, some i)] := by
  cases e with
  | connect reserved => cases reserved <;> cases h <;> exact .inl rfl
  | connectDelegated handle =>
      cases h
      exact .inl rfl
  | completeDelegated k r =>
      obtain ⟨c, -, -, rfl⟩ := step_completeDelegated_eq_some.mp h
      exact .inl rfl
  | work k w =>
      obtain ⟨c, d, -, -, rfl⟩ := step_work_eq_some.mp h
      exact .inl rfl
  | cancelConnect handle =>
      rcases step_cancelConnect_eq_some.mp h with ⟨k, -, rfl⟩ | ⟨hnone, rfl⟩
      · exact .inl rfl
      · exact .inr (.inl ⟨handle, hnone, rfl, rfl⟩)
  | storeFlag j =>
      obtain ⟨handle, k, c, hj, hc, rfl⟩ := step_storeFlag_eq_some.mp h
      exact .inr (.inr ⟨handle, k, c, List.mem_of_getElem? hj, hc, rfl, rfl⟩)

theorem returned_grows {s t : ConnectEngine} {e : Event} (h : s.step e = some t) :
    s.returned <+: t.returned := by
  rcases returned_step h with heq | ⟨handle, -, -, rfl⟩ | ⟨handle, i, a, -, -, -, heq⟩
  · rw [heq]
  · exact List.prefix_append _ _
  · rw [heq]
    exact List.prefix_append _ _

theorem eq_or_getElem?_of_append_singleton {l : List Attempt} {i : ℕ} {a b : Attempt}
    (h : (l ++ [a])[i]? = some b) : l[i]? = some b ∨ a = b := by
  rw [List.getElem?_append] at h
  split_ifs at h with hlt
  · exact .inl h
  · exact .inr (List.mem_singleton.mp (List.mem_of_getElem? h)).symm

theorem eq_or_getElem?_of_set {l : List Attempt} {i k : ℕ} {a b : Attempt}
    (h : (l.set i a)[k]? = some b) : l[k]? = some b ∨ i = k ∧ a = b := by
  rw [List.getElem?_set] at h
  split_ifs at h with hik hlt
  · exact .inr ⟨hik, Option.some.inj h⟩
  · exact .inl h

theorem cancelFlag_step {s t : ConnectEngine} {e : Event} (h : s.step e = some t) {i : ℕ}
    {b : Attempt} (hb : t.attempts[i]? = some b) (hflag : b.cancelFlag = true) :
    ∃ a, s.attempts[i]? = some a ∧ a.handle = b.handle ∧
      (a.cancelFlag = true ∨ ∃ handle, t.returned = s.returned ++ [(handle, some i)]) := by
  cases e with
  | connect reserved =>
      cases reserved <;> cases h <;>
        rcases eq_or_getElem?_of_append_singleton hb with hb | rfl
      · exact ⟨b, hb, rfl, .inl hflag⟩
      · cases hflag
      · exact ⟨b, hb, rfl, .inl hflag⟩
      · cases hflag
  | connectDelegated handle =>
      cases h
      rcases eq_or_getElem?_of_append_singleton hb with hb | rfl
      · exact ⟨b, hb, rfl, .inl hflag⟩
      · cases hflag
  | completeDelegated k r =>
      obtain ⟨c, hc, -, rfl⟩ := step_completeDelegated_eq_some.mp h
      rcases eq_or_getElem?_of_set hb with hb | ⟨rfl, rfl⟩
      · exact ⟨b, hb, rfl, .inl hflag⟩
      · exact ⟨c, hc, rfl, .inl hflag⟩
  | work k w =>
      obtain ⟨c, d, hc, hd, rfl⟩ := step_work_eq_some.mp h
      rcases eq_or_getElem?_of_set hb with hb | ⟨rfl, rfl⟩
      · exact ⟨b, hb, rfl, .inl hflag⟩
      · obtain ⟨hhandle, hsame⟩ := Attempt.work_keeps hd
        exact ⟨c, hc, hhandle.symm, .inl (hsame.symm.trans hflag)⟩
  | cancelConnect handle =>
      rcases step_cancelConnect_eq_some.mp h with ⟨k, -, rfl⟩ | ⟨-, rfl⟩ <;>
        exact ⟨b, hb, rfl, .inl hflag⟩
  | storeFlag j =>
      obtain ⟨handle, k, c, -, hc, rfl⟩ := step_storeFlag_eq_some.mp h
      rcases eq_or_getElem?_of_set hb with hb | ⟨rfl, rfl⟩
      · exact ⟨b, hb, rfl, .inl hflag⟩
      · exact ⟨c, hc, rfl, .inr ⟨handle, rfl⟩⟩

/-- The flags that calls can still set, and those that they set, are those of
started attempts. -/
structure Tracked (s : ConnectEngine) : Prop where
  activeFlags : ∀ key i, s.activeFlags key = some i → ∃ a, s.attempts[i]? = some a ∧ a.Started
  found : ∀ handle i, (handle, i) ∈ s.found → ∃ a, s.attempts[i]? = some a ∧ a.Started
  returned : ∀ handle i, (handle, some i) ∈ s.returned →
    ∃ a, s.attempts[i]? = some a ∧ a.Started ∧ a.cancelFlag = true

theorem tracked_new : new.Tracked := by
  constructor <;> intro _ _ h <;> simp [new] at h

theorem tracked_step (s : ConnectEngine) (e : Event) (t : ConnectEngine) (hs : s.Tracked)
    (h : s.step e = some t) : t.Tracked := by
  have hstarted : ∀ {i : ℕ} {a : Attempt}, s.attempts[i]? = some a → a.Started →
      ∃ b, t.attempts[i]? = some b ∧ b.Started := by
    intro i a ha hstart
    obtain ⟨b, hb, hadvance⟩ := attempts_advance h ha
    exact ⟨b, hb, hadvance.started_of hstart⟩
  constructor
  · intro key i hkey
    rcases activeFlags_step h hkey with hkey | hnew
    · obtain ⟨a, ha, hstart⟩ := hs.activeFlags key i hkey
      exact hstarted ha hstart
    · exact hnew
  · intro handle i hmem
    rcases found_step h hmem with hmem | ⟨-, hkey⟩
    · obtain ⟨a, ha, hstart⟩ := hs.found handle i hmem
      exact hstarted ha hstart
    · obtain ⟨a, ha, hstart⟩ := hs.activeFlags _ i hkey
      exact hstarted ha hstart
  · have hold : ∀ handle i, (handle, some i) ∈ s.returned →
        ∃ b, t.attempts[i]? = some b ∧ b.Started ∧ b.cancelFlag = true := by
      intro handle i hmem
      obtain ⟨a, ha, hstart, hflag⟩ := hs.returned handle i hmem
      obtain ⟨b, hb, hadvance⟩ := attempts_advance h ha
      exact ⟨b, hb, hadvance.started_of hstart, hadvance.cancelFlag_of hflag⟩
    intro handle i hmem
    rcases returned_step h with heq | ⟨handle', -, -, rfl⟩ | ⟨handle', k, c, hk, hc, hset, heq⟩
    · rw [heq] at hmem
      exact hold handle i hmem
    · rcases List.mem_append.mp hmem with hmem | hmem
      · exact hold handle i hmem
      · cases (Prod.mk.inj (List.mem_singleton.mp hmem)).2
    · rw [heq] at hmem
      rcases List.mem_append.mp hmem with hmem | hmem
      · exact hold handle i hmem
      · obtain ⟨-, hik⟩ := Prod.mk.inj (List.mem_singleton.mp hmem)
        obtain rfl := Option.some.inj hik
        obtain ⟨a, ha, hstart⟩ := hs.found handle' i hk
        obtain rfl := Option.some.inj (hc.symm.trans ha)
        obtain ⟨hlt, -⟩ := List.getElem?_eq_some_iff.mp hc
        refine ⟨{ c with cancelFlag := true }, ?_, hstart, rfl⟩
        rw [hset]
        exact List.getElem?_set_self hlt

/-- A set flag was set by a call with the handle of its attempt. -/
def Owns (s : ConnectEngine) : Prop :=
  ∀ (i : ℕ) (a : Attempt), s.attempts[i]? = some a → a.cancelFlag = true →
    (a.handle, some i) ∈ s.returned

theorem owns_step (s : ConnectEngine) (e : Event) (t : ConnectEngine) (hs : s.Owns)
    (hcontained : s.Contained e) (h : s.step e = some t) : t.Owns := by
  intro i b hb hflag
  obtain ⟨a, ha, hhandle, hcases⟩ := cancelFlag_step h hb hflag
  have hold : a.cancelFlag = true → (b.handle, some i) ∈ t.returned := by
    intro hset
    rw [← hhandle]
    exact (returned_grows h).subset (hs i a ha hset)
  rcases hcases with hset | ⟨handle, heq⟩
  · exact hold hset
  · by_cases hown : a.handle = handle
    · rw [heq, ← hhandle, hown]
      exact List.mem_append_right _ (List.mem_singleton_self _)
    · obtain rfl := Option.some.inj (hb.symm.trans ((hcontained t handle _ h heq).2 i a ha hown))
      exact hold hflag

/-- No call of `CancelConnect` found a flag. -/
structure Quiet (s : ConnectEngine) : Prop where
  found : ∀ handle i, (handle, i) ∉ s.found
  returned : ∀ handle i, (handle, some i) ∉ s.returned

theorem quiet_new : new.Quiet := by
  constructor <;> intro _ _ h <;> simp [new] at h

theorem quiet_step_iff {s t : ConnectEngine} {e : Event} (hs : s.Quiet)
    (h : s.step e = some t) : t.Quiet ↔ s.Untracked e := by
  constructor
  · intro ht
    cases e with
    | cancelConnect handle =>
        rcases step_cancelConnect_eq_some.mp h with ⟨k, -, rfl⟩ | ⟨hnone, -⟩
        · exact absurd (List.mem_append_right _ (List.mem_singleton_self _)) (ht.found handle k)
        · exact hnone
    | connect reserved => exact trivial
    | connectDelegated handle => exact trivial
    | completeDelegated i r => exact trivial
    | work i w => exact trivial
    | storeFlag j => exact trivial
  · intro huntracked
    constructor
    · intro handle i hmem
      rcases found_step h hmem with hmem | ⟨rfl, hkey⟩
      · exact hs.found handle i hmem
      · change s.activeFlags handle.key0 = none at huntracked
        rw [hkey] at huntracked
        cases huntracked
    · intro handle i hmem
      rcases returned_step h with heq | ⟨handle', -, -, rfl⟩ | ⟨handle', k, -, hk, -, -, -⟩
      · rw [heq] at hmem
        exact hs.returned handle i hmem
      · rcases List.mem_append.mp hmem with hmem | hmem
        · exact hs.returned handle i hmem
        · cases (Prod.mk.inj (List.mem_singleton.mp hmem)).2
      · exact hs.found handle' k hk

theorem quiet_of_step {s t : ConnectEngine} {e : Event} (h : s.step e = some t)
    (ht : t.Quiet) : s.Quiet := by
  have hreturned : ∀ handle i, (handle, some i) ∉ s.returned := by
    intro handle i hmem
    exact ht.returned handle i ((returned_grows h).subset hmem)
  refine ⟨fun handle i hmem => ?_, hreturned⟩
  cases e with
  | connect reserved => cases reserved <;> cases h <;> exact ht.found handle i hmem
  | connectDelegated handle' =>
      cases h
      exact ht.found handle i hmem
  | completeDelegated k r =>
      obtain ⟨c, -, -, rfl⟩ := step_completeDelegated_eq_some.mp h
      exact ht.found handle i hmem
  | work k w =>
      obtain ⟨c, d, -, -, rfl⟩ := step_work_eq_some.mp h
      exact ht.found handle i hmem
  | cancelConnect handle' =>
      rcases step_cancelConnect_eq_some.mp h with ⟨k, -, rfl⟩ | ⟨-, rfl⟩
      · exact ht.found handle i (List.mem_append_left _ hmem)
      · exact ht.found handle i hmem
  | storeFlag j =>
      obtain ⟨handle', k, c, -, -, rfl⟩ := step_storeFlag_eq_some.mp h
      exact ht.returned handle' k (List.mem_append_right _ (List.mem_singleton_self _))

/-- The runs without a call that finds a flag are those that end quiet. -/
theorem quiet_iff {es : List Event} {s : ConnectEngine} (hrun : run step new es = some s) :
    s.Quiet ↔ AllSteps step Untracked new es := by
  constructor
  · intro hs
    apply (allSteps_iff_invariant (J := fun _ => True) (fun _ _ _ _ _ => trivial)
      (fun u e t _ hu ht => quiet_step_iff hu ht) trivial quiet_new hrun).mpr
    rintro pre t ⟨post, rfl⟩ ht
    rw [run_append, ht] at hrun
    by_contra hnot
    exact run_invariant (I := fun u => ¬u.Quiet)
      (fun u e v hu hstep hv => hu (quiet_of_step hstep hv)) hnot hrun hs
  · intro hall
    exact run_invariant_of_allSteps (fun u e t hu hP ht => (quiet_step_iff hu ht).mpr hP)
      quiet_new hall hrun

theorem contained_of_quiet {s : ConnectEngine} {e : Event} (hs : s.Quiet) : s.Contained e := by
  intro t handle flag h hreturned
  rcases returned_step h with heq | ⟨handle', -, -, rfl⟩ | ⟨handle', k, -, hk, -, -, -⟩
  · rw [heq] at hreturned
    simp at hreturned
  · exact ⟨fun _ => rfl, fun i a ha _ => ha⟩
  · exact absurd hk (hs.found handle' k)

theorem neverInvoked_of_quiet {s : ConnectEngine} (hs : s.Quiet) : s.NeverInvoked := by
  intro handle i hmem
  exact absurd hmem (hs.returned handle i)

theorem honours_of_untracked {es : List Event} (hall : AllSteps step Untracked new es) :
    Honours es := by
  constructor
  · exact hall.imp (fun u e t hu hP ht => (quiet_step_iff hu ht).mpr hP)
      (fun u e hu _ => contained_of_quiet hu) quiet_new
  · rintro pre s ⟨post, rfl⟩ hs
    exact neverInvoked_of_quiet ((quiet_iff hs).mpr (allSteps_append.mp hall).1)

theorem run_work {s : ConnectEngine} {i : ℕ} {a b : Attempt} {ws : List Work}
    (ha : s.attempts[i]? = some a) (hrun : run Attempt.work a ws = some b) :
    ∃ t, run step s (ws.map (.work i)) = some t ∧ t.attempts[i]? = some b ∧
      t.returned = s.returned := by
  induction ws generalizing s a with
  | nil =>
      obtain rfl := Option.some.inj hrun
      exact ⟨s, rfl, ha, rfl⟩
  | cons w ws ih =>
      obtain ⟨c, hc, hrest⟩ := run_cons_eq_some.mp hrun
      obtain ⟨hlt, -⟩ := List.getElem?_eq_some_iff.mp ha
      obtain ⟨t, ht, hb, hreturned⟩ := ih (s := { s with
        attempts := s.attempts.set i c
        activeFlags := s.track i a w }) (List.getElem?_set_self hlt) hrest
      exact ⟨t, run_cons_eq_some.mpr ⟨_, step_work_eq_some.mpr ⟨a, c, ha, hc, rfl⟩, ht⟩, hb,
        hreturned⟩

/-- Where a call returned true, the calls under way can go on to break a promise. -/
theorem not_honours_of_returned {es : List Event} {s : ConnectEngine}
    (hrun : run step new es = some s) {handle : ConnectionHandle} {i : ℕ}
    (hmem : (handle, some i) ∈ s.returned) :
    ∃ ws, (∀ e ∈ ws, GoesOn e) ∧ ¬Honours (es ++ ws) := by
  have htracked : s.Tracked := run_invariant tracked_step tracked_new hrun
  obtain ⟨a, ha, hstarted, hflag⟩ := htracked.returned handle i hmem
  obtain ⟨ws, b, hwork, hhandle, hinvoked⟩ := Attempt.invokes_of_started hstarted hflag
  obtain ⟨t, ht, hb, hreturned⟩ := run_work ha hwork
  have hrun' : run step new (es ++ ws.map (.work i)) = some t := by
    rw [run_append, hrun]
    exact ht
  refine ⟨ws.map (.work i), ?_, fun hhonours => ?_⟩
  · intro e he
    obtain ⟨w, -, rfl⟩ := List.mem_map.mp he
    exact trivial
  · have howns : s.Owns := run_invariant_of_allSteps owns_step
      (by intro k c hc; simp [new] at hc) (allSteps_append.mp hhonours.contained).1 hrun
    have hown : (a.handle, some i) ∈ t.returned := by
      rw [hreturned]
      exact howns i a ha hflag
    exact hinvoked (hhonours.neverInvoked _ t List.prefix_rfl hrun' a.handle i hown b
      (List.mem_of_getElem? hb) hhandle)

/-- Whatever the calls under way do next the run honours its promises, if and
only if no call of `CancelConnect` found a flag. -/
theorem honours_iff {es : List Event} {s : ConnectEngine} (hrun : run step new es = some s) :
    (∀ ws, (∀ e ∈ ws, GoesOn e) → Honours (es ++ ws)) ↔ AllSteps step Untracked new es := by
  constructor
  · intro h
    rw [← quiet_iff hrun]
    constructor
    · intro handle i hmem
      obtain ⟨a, ha, -⟩ := (run_invariant tracked_step tracked_new hrun).found handle i hmem
      obtain ⟨j, hj⟩ := List.mem_iff_getElem?.mp hmem
      have hstore := step_storeFlag_eq_some.mpr ⟨handle, i, a, hj, ha, rfl⟩
      have hstored := run_append step new es [.storeFlag j]
      rw [hrun, Option.bind_some, run_cons_eq_some.mpr ⟨_, hstore, rfl⟩] at hstored
      obtain ⟨ws, hws, hnot⟩ := not_honours_of_returned hstored
        (List.mem_append_right _ (List.mem_singleton_self (handle, some i)))
      rw [List.append_assoc] at hnot
      refine hnot (h ([.storeFlag j] ++ ws) ?_)
      intro e he
      rcases List.mem_append.mp he with he | he
      · rw [List.mem_singleton.mp he]
        exact trivial
      · exact hws e he
    · intro handle i hmem
      obtain ⟨ws, hws, hnot⟩ := not_honours_of_returned hrun hmem
      exact hnot (h ws hws)
  · intro hall ws hws
    apply honours_of_untracked
    refine allSteps_append.mpr ⟨hall, fun t _ => allSteps_of_forall_mem ?_ t⟩
    intro u e he
    have hgoes := hws e he
    cases e with
    | cancelConnect handle => exact hgoes.elim
    | connect reserved => exact trivial
    | connectDelegated handle => exact trivial
    | completeDelegated i r => exact trivial
    | work i w => exact trivial
    | storeFlag j => exact trivial

/-- An attempt is cancelled after its thread has left the tracker. -/
theorem honours_iff_sample :
    Honours [.connect true, .work 0 .register, .work 0 .load, .work 0 (.punch (some "timeout")),
      .work 0 .invoke, .work 0 .returned, .work 0 .cleanup, .cancelConnect ⟨1, 0⟩] := by
  have hrun : ∃ s, run step new [.connect true, .work 0 .register, .work 0 .load,
      .work 0 (.punch (some "timeout")), .work 0 .invoke, .work 0 .returned, .work 0 .cleanup,
      .cancelConnect ⟨1, 0⟩] = some s := ⟨_, rfl⟩
  obtain ⟨s, hs⟩ := hrun
  have hall := (honours_iff hs).mpr (by decide) [] (by simp)
  exact hall

/-- A call that finds the flag after the last check returns true, and
`on_connect` gets the endpoint; a handle of the default engine that shares its
first key with an attempt cancels that attempt. -/
theorem cancelled_attempt_invoked :
    (∃ s, run step new [.connect true, .work 0 .register, .work 0 .load, .work 0 (.punch none),
        .work 0 .load, .cancelConnect ⟨1, 0⟩, .storeFlag 0, .work 0 (.handshake .connected),
        .work 0 .invoke] = some s ∧
      s.returned = [(⟨1, 0⟩, some 0)] ∧ s.attempts.map Attempt.onConnect = [[.endpoint]] ∧
      ¬s.NeverInvoked) ∧
    ∃ s, run step new [.connectDelegated ⟨1, 7⟩, .connect true, .work 1 .register,
        .cancelConnect ⟨1, 7⟩, .storeFlag 0] = some s ∧
      s.returned = [(⟨1, 7⟩, some 1)] ∧ s.attempts.map Attempt.cancelFlag = [false, true] := by
  refine ⟨⟨_, rfl, rfl, rfl, fun h => ?_⟩, _, rfl, rfl, rfl⟩
  have hnil := h ⟨1, 0⟩ 0 (by simp) _ (List.mem_singleton_self _) rfl
  cases hnil

end ConnectEngine

end Grpc

end DistStorage
