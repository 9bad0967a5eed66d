import DistStorage.Cpp.Action

/-!
# The events of an action

Some steps of an action are worth recording. `eventsThen p m q` puts the events
of a sequence together: those of the action `m`, and after it returned those of
the rest. `Follows T P m p` says of an action `m` with the events `p` that `T`
holds between the state before it, its events and the state that it leaves, be
it by a returned value or by an exception, and that `P` holds of the state
before it and its events when its behaviour is undefined. When `T` and `P`
compose, so does `Follows`.
-/

namespace Cpp

namespace Action

variable {ε σ α β E : Type}

inductive Leaves (m : Action ε σ α) (s t : σ) : Prop
  | returned (a : α) (h : m s = .returned a t)
  | thrown (e : ε) (h : m s = .thrown e t)

def eventsThen (p : σ → List E) (m : Action ε σ α) (q : α → σ → List E) (s : σ) : List E :=
  p s ++
    match m s with
    | .returned a t => q a t
    | .thrown _ _ => []
    | .undefined => []

/-- A relation along events that holds where nothing happens and composes, and
what holds along the events up to undefined behaviour. -/
structure Compositional (T : σ → List E → σ → Prop) (P : σ → List E → Prop) : Prop where
  refl : ∀ s, T s [] s
  trans : ∀ {s u t es es'}, T s es u → T u es' t → T s (es ++ es') t
  stuck : ∀ s, P s [] := by intros; trivial
  stuck_trans : ∀ {s u es es'}, T s es u → P u es' → P s (es ++ es') := by intros; trivial

/-- The relation holds along the events of an action from a state. -/
structure FollowsFrom (T : σ → List E → σ → Prop) (P : σ → List E → Prop) (m : Action ε σ α)
    (es : List E) (s : σ) : Prop where
  leaves : ∀ t, Leaves m s t → T s es t
  stuck : m s = .undefined → P s es

def Follows (T : σ → List E → σ → Prop) (P : σ → List E → Prop) (m : Action ε σ α)
    (p : σ → List E) : Prop :=
  ∀ s, FollowsFrom T P m (p s) s

theorem leaves_of_bind {m : Action ε σ α} {f : α → Action ε σ β} {s t : σ}
    (h : Leaves (m >>= f) s t) :
    (∃ a u, m s = .returned a u ∧ Leaves (f a) u t) ∨ ∃ e, m s = .thrown e t := by
  cases hm : m s with
  | returned a u =>
      refine .inl ⟨a, u, rfl, ?_⟩
      cases h with
      | returned b h => exact .returned b ((bind_of_returned hm).symm.trans h)
      | thrown e h => exact .thrown e ((bind_of_returned hm).symm.trans h)
  | thrown e u =>
      refine .inr ⟨e, ?_⟩
      cases h with
      | returned b h =>
          rw [bind_of_thrown hm] at h
          cases h
      | thrown e' h =>
          rw [bind_of_thrown hm] at h
          cases h
          rfl
  | undefined =>
      cases h with
      | returned b h =>
          rw [bind_of_undefined hm] at h
          cases h
      | thrown e h =>
          rw [bind_of_undefined hm] at h
          cases h

theorem Leaves.unique {m : Action ε σ α} {s t u : σ} (h : Leaves m s t) (h' : Leaves m s u) :
    t = u := by
  cases h with
  | returned a h =>
      cases h' with
      | returned b h' => exact (Outcome.returned.inj (h.symm.trans h')).2
      | thrown e h' => cases h.symm.trans h'
  | thrown e h =>
      cases h' with
      | returned b h' => cases h.symm.trans h'
      | thrown e' h' => exact (Outcome.thrown.inj (h.symm.trans h')).2

theorem Leaves.of_returned {m : Action ε σ α} {f : α → Action ε σ β} {s t u : σ} {a : α}
    (h : Leaves (f a) t u) (hm : m s = .returned a t) : Leaves (m >>= f) s u := by
  cases h with
  | returned b hb => exact .returned b ((bind_of_returned hm).trans hb)
  | thrown e he => exact .thrown e ((bind_of_returned hm).trans he)

theorem Leaves.of_bind_returned {m : Action ε σ α} {f : α → Action ε σ β} {s t u : σ} {a : α}
    (h : Leaves (m >>= f) s u) (hm : m s = .returned a t) : Leaves (f a) t u := by
  cases h with
  | returned b hb => exact .returned b ((bind_of_returned hm).symm.trans hb)
  | thrown e he => exact .thrown e ((bind_of_returned hm).symm.trans he)

theorem eq_of_leaves_pure {a : α} {s t : σ} (h : Leaves (pure a : Action ε σ α) s t) :
    s = t := by
  cases h with
  | returned b h => exact (pure_eq_returned.mp h).2
  | thrown e h => cases h

/-- A value returned at the end changes nothing. -/
theorem leaves_of_bind_pure {m : Action ε σ α} {b : β} {s t : σ}
    (h : Leaves (m >>= fun _ => pure b) s t) : Leaves m s t := by
  rcases leaves_of_bind h with ⟨a, u, hreturned, h⟩ | ⟨e, hthrown⟩
  · rw [← eq_of_leaves_pure h]
    exact .returned a hreturned
  · exact .thrown e hthrown

theorem eq_of_leaves_throw {e : ε} {s t : σ} (h : Leaves (throw e : Action ε σ α) s t) :
    s = t := by
  cases h with
  | returned b h => cases h
  | thrown e' h =>
      cases h
      rfl

theorem eq_of_leaves_modify {f : σ → σ} {s t : σ}
    (h : Leaves (modify f : Action ε σ Unit) s t) : f s = t := by
  cases h with
  | returned b h =>
      cases h
      rfl
  | thrown e h => cases h

theorem leaves_of_ofOption_bind {o : Option α} {f : α → Action ε σ β} {s t : σ}
    (h : Leaves (ofOption o >>= f) s t) : ∃ a, o = some a ∧ Leaves (f a) s t := by
  cases o with
  | none =>
      cases h with
      | returned b h => cases h
      | thrown e h => cases h
  | some a => exact ⟨a, rfl, h⟩

theorem ofOption_bind_eq_returned {o : Option α} {f : α → Action ε σ β} {s t : σ} {b : β} :
    (ofOption o >>= f) s = .returned b t ↔ ∃ a, o = some a ∧ f a s = .returned b t := by
  cases o with
  | none => exact iff_of_false (fun h => by cases h) (by simp)
  | some a => simp [ofOption_some_bind]

theorem leaves_of_tryCatch {m : Action ε σ α} {handler : ε → Action ε σ α} {s t : σ}
    (h : Leaves (tryCatch m handler) s t) :
    (∃ a, m s = .returned a t) ∨ ∃ e u, m s = .thrown e u ∧ Leaves (handler e) u t := by
  cases hm : m s with
  | returned a u =>
      cases h with
      | returned b h =>
          rw [tryCatch_of_returned hm] at h
          cases h
          exact .inl ⟨a, rfl⟩
      | thrown e h =>
          rw [tryCatch_of_returned hm] at h
          cases h
  | thrown e u =>
      refine .inr ⟨e, u, rfl, ?_⟩
      cases h with
      | returned b h => exact .returned b ((tryCatch_of_thrown hm).symm.trans h)
      | thrown e' h => exact .thrown e' ((tryCatch_of_thrown hm).symm.trans h)
  | undefined =>
      cases h with
      | returned b h => simp [tryCatch, hm] at h
      | thrown e h => simp [tryCatch, hm] at h

theorem bind_eq_undefined {m : Action ε σ α} {f : α → Action ε σ β} {s : σ}
    (h : (m >>= f) s = .undefined) :
    (∃ a u, m s = .returned a u ∧ f a u = .undefined) ∨ m s = .undefined := by
  cases hm : m s with
  | returned a u => exact .inl ⟨a, u, rfl, (bind_of_returned hm).symm.trans h⟩
  | thrown e u =>
      rw [bind_of_thrown hm] at h
      cases h
  | undefined => exact .inr rfl

theorem eventsThen_of_returned {p : σ → List E} {m : Action ε σ α} {q : α → σ → List E} {s t : σ}
    {a : α} (h : m s = .returned a t) : eventsThen p m q s = p s ++ q a t := by
  rw [eventsThen, h]

theorem eventsThen_of_thrown {p : σ → List E} {m : Action ε σ α} {q : α → σ → List E} {s t : σ}
    {e : ε} (h : m s = .thrown e t) : eventsThen p m q s = p s := by
  rw [eventsThen, h, List.append_nil]

theorem eventsThen_of_undefined {p : σ → List E} {m : Action ε σ α} {q : α → σ → List E} {s : σ}
    (h : m s = .undefined) : eventsThen p m q s = p s := by
  rw [eventsThen, h, List.append_nil]

namespace Follows

variable {T : σ → List E → σ → Prop} {P : σ → List E → Prop} {m : Action ε σ α}
  {f : α → Action ε σ β} {p : σ → List E} {q : α → σ → List E}

protected theorem pure (hT : Compositional T P) (a : α) :
    Follows T P (pure a : Action ε σ α) fun _ => [] := by
  refine fun s => ⟨fun t h => ?_, fun h => by cases h⟩
  rw [← eq_of_leaves_pure h]
  exact hT.refl s

protected theorem throw (hT : Compositional T P) (e : ε) :
    Follows T P (throw e : Action ε σ α) fun _ => [] := by
  refine fun s => ⟨fun t h => ?_, fun h => by cases h⟩
  rw [← eq_of_leaves_throw h]
  exact hT.refl s

theorem bind_from (hm : Follows T P m p)
    (hf : ∀ s a u, m s = .returned a u → T s (p s) u →
      (∀ t, Leaves (f a) u t → T s (p s ++ q a u) t) ∧
        (f a u = .undefined → P s (p s ++ q a u))) :
    Follows T P (m >>= f) (eventsThen p m q) := by
  refine fun s => ⟨fun t h => ?_, fun h => ?_⟩
  · rcases leaves_of_bind h with ⟨a, u, hreturned, h⟩ | ⟨e, hthrown⟩
    · rw [eventsThen_of_returned hreturned]
      exact (hf s a u hreturned ((hm s).leaves u (.returned a hreturned))).1 t h
    · rw [eventsThen_of_thrown hthrown]
      exact (hm s).leaves t (.thrown e hthrown)
  · rcases bind_eq_undefined h with ⟨a, u, hreturned, h⟩ | hundefined
    · rw [eventsThen_of_returned hreturned]
      exact (hf s a u hreturned ((hm s).leaves u (.returned a hreturned))).2 h
    · rw [eventsThen_of_undefined hundefined]
      exact (hm s).stuck hundefined

protected theorem bind (hT : Compositional T P) (hm : Follows T P m p)
    (hf : ∀ a, Follows T P (f a) (q a)) : Follows T P (m >>= f) (eventsThen p m q) :=
  hm.bind_from fun _ a u _ hu =>
    ⟨fun t h => hT.trans hu ((hf a u).leaves t h), fun h => hT.stuck_trans hu ((hf a u).stuck h)⟩

/-- A sequence whose rest has no events. -/
theorem last (hT : Compositional T P) (hm : Follows T P m p)
    (hf : ∀ a, Follows T P (f a) fun _ => []) : Follows T P (m >>= f) p := by
  intro s
  have hnil : eventsThen p m (fun _ _ => []) s = p s := by
    rw [eventsThen]
    cases m s <;> exact List.append_nil _
  have hrun := hm.bind hT hf s
  rwa [hnil] at hrun

theorem get_bind {f : σ → Action ε σ β} {r : σ → List E}
    (h : ∀ s, FollowsFrom T P (f s) (r s) s) : Follows T P (get >>= f) r := by
  refine fun s => ⟨fun t ht => ?_, fun hstuck => (h s).stuck hstuck⟩
  rcases leaves_of_bind ht with ⟨a, u, hread, ht⟩ | ⟨e, hthrown⟩
  · cases hread
    exact (h s).leaves t ht
  · cases hthrown

/-- After a partial read, up to which there was no event. -/
theorem ofOption_bind {o : Option α} {es : List E} {s : σ}
    (hsome : ∀ a, o = some a → FollowsFrom T P (f a) es s) (hnone : o = none → P s es) :
    FollowsFrom T P (ofOption o >>= f) es s := by
  cases o with
  | none =>
      refine ⟨fun t h => ?_, fun _ => hnone rfl⟩
      obtain ⟨a, ha, -⟩ := leaves_of_ofOption_bind h
      cases ha
  | some a => exact hsome a rfl

/-- What holds along the events however the action ends. -/
theorem along (h : Follows T P m p) {Q : Prop} {s : σ} (hT : ∀ t, T s (p s) t → Q)
    (hP : P s (p s) → Q) : Q := by
  cases hm : m s with
  | returned a t => exact hT t ((h s).leaves t (.returned a hm))
  | thrown e t => exact hT t ((h s).leaves t (.thrown e hm))
  | undefined => exact hP ((h s).stuck hm)

end Follows

end Action

end Cpp
