import DistStorage.Transition.Run

/-!
# The listeners of the hole-punch engine

gRPC owns the listeners that `CreateListener` makes, any number of them, and
destroys them in an order of its own. The engine keeps a pointer to one of them, into
which it injects the connections that were punched. A new listener becomes the active
one; the destructor of a listener clears the pointer, whichever listener it points to.
-/

namespace DistStorage

namespace Grpc

open Transition

/-- The engine and the listeners that are alive, numbered as they were created. The
connections were injected into a listener, or dropped. -/
structure ListenerEngine (E : Type) where
  created : ℕ
  alive : Finset ℕ
  activeListener : Option ℕ
  injected : List (ℕ × E)
  dropped : List E

/-- A call of the engine, or the destruction of a listener by its owner. -/
inductive ListenerCall (E : Type)
  | createListener
  | destroy (listener : ℕ)
  | acceptIncomingHolePunch (ep : E)

namespace ListenerEngine

variable {E : Type}

def start : ListenerEngine E where
  created := 0
  alive := ∅
  activeListener := none
  injected := []
  dropped := []

def createListener (s : ListenerEngine E) : ListenerEngine E :=
  { s with
    created := s.created + 1
    alive := insert s.created s.alive
    activeListener := some s.created }

/-- `~HolePunchListener` with the callback that it was given. -/
def destroy (s : ListenerEngine E) (listener : ℕ) : ListenerEngine E :=
  { s with
    alive := s.alive.erase listener
    activeListener := none }

/-- `AcceptIncomingHolePunch`. -/
def acceptIncomingHolePunch (s : ListenerEngine E) (ep : E) : ListenerEngine E :=
  match s.activeListener with
  | some listener => { s with injected := s.injected ++ [(listener, ep)] }
  | none => { s with dropped := s.dropped ++ [ep] }

def step (s : ListenerEngine E) : ListenerCall E → Option (ListenerEngine E)
  | .createListener => some s.createListener
  | .destroy listener => if listener ∈ s.alive then some (s.destroy listener) else none
  | .acceptIncomingHolePunch ep => some (s.acceptIncomingHolePunch ep)

def newest (s : ListenerEngine E) : Option ℕ :=
  if s.created = 0 then none else some (s.created - 1)

def NewestAlive (s : ListenerEngine E) : Prop :=
  ∃ listener ∈ s.alive, s.newest = some listener

/-- The pointer is null or points to a listener that is alive, to the newest one if
that is alive, and a connection is dropped only when it is not. -/
structure Listens (s : ListenerEngine E) : Prop where
  active_mem : ∀ listener, s.activeListener = some listener → listener ∈ s.alive
  active_eq : s.NewestAlive → s.activeListener = s.newest
  not_newestAlive_of_dropped : ∀ ep,
    (s.acceptIncomingHolePunch ep).dropped ≠ s.dropped → ¬s.NewestAlive

/-- A listener is destroyed only if it is the newest one, or the newest one is not
alive any more. -/
def DestroysNewest (s : ListenerEngine E) : ListenerCall E → Prop
  | .destroy listener => s.newest = some listener ∨ ¬s.NewestAlive
  | _ => True

/-- The part of the property that every step keeps. -/
theorem active_mem_step {s t : ListenerEngine E} {e : ListenerCall E}
    (hs : ∀ listener, s.activeListener = some listener → listener ∈ s.alive)
    (hstep : s.step e = some t) :
    ∀ listener, t.activeListener = some listener → listener ∈ t.alive := by
  cases e with
  | createListener =>
      obtain rfl := Option.some.inj hstep
      intro listener hactive
      obtain rfl := Option.some.inj hactive
      exact Finset.mem_insert_self _ _
  | destroy listener =>
      rw [step] at hstep
      split_ifs at hstep
      obtain rfl := Option.some.inj hstep
      intro listener' hactive
      cases hactive
  | acceptIncomingHolePunch ep =>
      obtain rfl := Option.some.inj hstep
      unfold acceptIncomingHolePunch
      split
      · exact hs
      · exact hs

/-- A connection is dropped exactly if there is no active listener. -/
theorem dropped_ne_iff {s : ListenerEngine E} (ep : E) :
    (s.acceptIncomingHolePunch ep).dropped ≠ s.dropped ↔ s.activeListener = none := by
  unfold acceptIncomingHolePunch
  cases s.activeListener with
  | none => simp
  | some listener => simp

theorem listens_iff {s : ListenerEngine E}
    (hs : ∀ listener, s.activeListener = some listener → listener ∈ s.alive) :
    s.Listens ↔ (s.NewestAlive → s.activeListener = s.newest) := by
  constructor
  · exact Listens.active_eq
  · intro hactive
    refine ⟨hs, hactive, fun ep hdropped hnewest => ?_⟩
    have hnone := (dropped_ne_iff ep).mp hdropped
    have hsome := hactive hnewest
    obtain ⟨listener, -, heq⟩ := hnewest
    rw [hnone, heq] at hsome
    cases hsome

theorem listens_step_iff {s t : ListenerEngine E} {e : ListenerCall E}
    (hs : ∀ listener, s.activeListener = some listener → listener ∈ s.alive) (h : s.Listens)
    (hstep : s.step e = some t) : t.Listens ↔ s.DestroysNewest e := by
  rw [listens_iff (active_mem_step hs hstep)]
  cases e with
  | createListener =>
      obtain rfl := Option.some.inj hstep
      exact iff_of_true (fun _ => rfl) trivial
  | destroy listener =>
      rw [step] at hstep
      split_ifs at hstep
      obtain rfl := Option.some.inj hstep
      have halive : (s.destroy listener).NewestAlive ↔
          s.NewestAlive ∧ s.newest ≠ some listener := by
        constructor
        · rintro ⟨newest, hmem, heq⟩
          obtain ⟨hne, hmem⟩ := Finset.mem_erase.mp hmem
          exact ⟨⟨newest, hmem, heq⟩, fun hlistener =>
            hne (Option.some.inj (heq.symm.trans hlistener))⟩
        · rintro ⟨⟨newest, hmem, heq⟩, hne⟩
          refine ⟨newest, Finset.mem_erase.mpr ⟨?_, hmem⟩, heq⟩
          rintro rfl
          exact hne heq
      rw [halive, DestroysNewest]
      constructor
      · intro hactive
        by_cases hlistener : s.newest = some listener
        · exact .inl hlistener
        · refine .inr fun hnewest => ?_
          have hnone : none = s.newest := hactive ⟨hnewest, hlistener⟩
          obtain ⟨newest, -, heq⟩ := hnewest
          rw [heq] at hnone
          cases hnone
      · rintro (hlistener | hdead) ⟨hnewest, hne⟩
        · exact absurd hlistener hne
        · exact absurd hnewest hdead
  | acceptIncomingHolePunch ep =>
      obtain rfl := Option.some.inj hstep
      refine iff_of_true ?_ trivial
      unfold acceptIncomingHolePunch
      split
      · exact h.active_eq
      · exact h.active_eq

theorem start_listens : (start : ListenerEngine E).Listens := by
  refine (listens_iff ?_).mpr ?_
  · rintro listener ⟨⟩
  · rintro ⟨listener, hmem, -⟩
    exact absurd hmem (Finset.notMem_empty listener)

/-- In a run, all is well in every state exactly if no listener is destroyed while a
newer one, the newest, is alive. -/
theorem run_listens_iff {es : List (ListenerCall E)} {s : ListenerEngine E}
    (hrun : run step start es = some s) :
    (∀ pre t, pre <+: es → run step start pre = some t → t.Listens) ↔
      AllSteps step DestroysNewest start es := by
  refine (allSteps_iff_invariant
    (J := fun s => ∀ listener, s.activeListener = some listener → listener ∈ s.alive)
    (fun s e t => active_mem_step) (fun s e t => listens_step_iff) ?_ start_listens hrun).symm
  exact (start_listens (E := E)).active_mem

/-- Two listeners, of which the first is destroyed, and a connection. -/
def sampleCalls : List (ListenerCall Unit) :=
  [.createListener, .createListener, .destroy 0, .acceptIncomingHolePunch ()]

theorem run_listens_iff_sample :
    (run step (start : ListenerEngine Unit) [.createListener, .createListener, .destroy 1]).isSome ∧
      ∀ pre t, pre <+: [.createListener, .createListener, .destroy 1] →
        run step (start : ListenerEngine Unit) pre = some t → t.Listens := by
  refine ⟨rfl, (run_listens_iff rfl).mpr
    ⟨trivial, fun _ ht => by
      cases ht
      exact ⟨trivial, fun _ ht => by
        cases ht
        exact ⟨.inl rfl, fun _ _ => trivial⟩⟩⟩⟩

/-- The second listener is alive and does not get the connection. -/
theorem newest_forgotten :
    ∃ s, run step start sampleCalls = some s ∧ s.newest = some 1 ∧ 1 ∈ s.alive ∧
      s.activeListener = none ∧ s.dropped = [()] ∧ ¬s.Listens := by
  refine ⟨_, rfl, rfl, by decide, rfl, rfl, fun h => ?_⟩
  have hactive := h.active_eq ⟨1, by decide, rfl⟩
  cases hactive

end ListenerEngine

end Grpc

end DistStorage
