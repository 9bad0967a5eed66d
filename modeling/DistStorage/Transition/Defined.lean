import DistStorage.Transition.Run

/-!
# Runs that are defined

The rules of `Transition.Run` speak of runs that come to an end. Here the steps that
meet a condition are known to be defined, so the runs whose steps all meet it are
defined as well.
-/

namespace Transition

variable {σ ε : Type*} {step : σ → ε → Option σ} {I : σ → Prop} {P Q : σ → ε → Prop}

/-- When the steps that meet a condition are defined and keep an invariant, so do the
runs. -/
theorem run_defined (hstep : ∀ s e, I s → P s e → ∃ t, step s e = some t ∧ I t) {s : σ}
    {es : List ε} (hs : I s) (hall : AllSteps step P s es) :
    ∃ t, run step s es = some t ∧ I t := by
  induction es generalizing s with
  | nil => exact ⟨s, rfl, hs⟩
  | cons e es ih =>
      obtain ⟨t, ht, hIt⟩ := hstep s e hs hall.1
      obtain ⟨u, hu, hIu⟩ := ih hIt (hall.2 t ht)
      exact ⟨u, run_cons_eq_some.mpr ⟨t, ht, hu⟩, hIu⟩

theorem allSteps_beginning {s : σ} {pre es : List ε} (hpre : pre <+: es)
    (hall : AllSteps step P s es) : AllSteps step P s pre := by
  obtain ⟨post, rfl⟩ := hpre
  exact (allSteps_append.mp hall).1

theorem AllSteps.and {s : σ} {es : List ε} (hP : AllSteps step P s es)
    (hQ : AllSteps step Q s es) : AllSteps step (fun s e => P s e ∧ Q s e) s es := by
  induction es generalizing s with
  | nil => exact trivial
  | cons e es ih => exact ⟨⟨hP.1, hQ.1⟩, fun t ht => ih (hP.2 t ht) (hQ.2 t ht)⟩

/-- When the condition `Q` says which of the steps with `P` are defined and keep an
invariant, the runs whose steps all meet it are those that are defined and keep the
invariant throughout. -/
theorem allSteps_iff_defined
    (hstep : ∀ s e, I s → P s e → ((∃ t, step s e = some t ∧ I t) ↔ Q s e)) {s : σ}
    {es : List ε} (hs : I s) (hall : AllSteps step P s es) :
    AllSteps step Q s es ↔ ∀ pre, pre <+: es → ∃ t, run step s pre = some t ∧ I t := by
  constructor
  · intro hQ pre hpre
    exact run_defined (fun s e hs h => (hstep s e hs h.1).mpr h.2) hs
      (allSteps_beginning hpre (hall.and hQ))
  · intro h
    induction es generalizing s with
    | nil => exact trivial
    | cons e es ih =>
        obtain ⟨u, hu, hIu⟩ := h [e] (by simp)
        obtain ⟨t, ht, hrest⟩ := run_cons_eq_some.mp hu
        obtain rfl : t = u := Option.some.inj hrest
        refine ⟨(hstep s e hs hall.1).mp ⟨t, ht, hIu⟩, fun t' ht' => ?_⟩
        obtain rfl := Option.some.inj (ht.symm.trans ht')
        refine ih hIu (hall.2 t ht) fun pre hpre => ?_
        obtain ⟨v, hv, hIv⟩ := h (e :: pre) (List.prefix_cons_iff.mpr (.inr ⟨pre, rfl, hpre⟩))
        obtain ⟨t'', ht'', hv⟩ := run_cons_eq_some.mp hv
        obtain rfl := Option.some.inj (ht.symm.trans ht'')
        exact ⟨v, hv, hIv⟩

/-- When the condition `Q` says which of the steps with `P` do what `R` asks of them, and
these keep an invariant, the runs whose steps all meet it are those that do so throughout. -/
theorem allSteps_iff_steps {R : σ → ε → σ → Prop}
    (hstep : ∀ s e, I s → P s e → (Q s e ↔ ∃ t, step s e = some t ∧ R s e t))
    (hkeep : ∀ s e t, I s → P s e → Q s e → step s e = some t → I t) {s : σ} {es : List ε}
    (hs : I s) (hall : AllSteps step P s es) :
    AllSteps step Q s es ↔ ∀ pre e, pre ++ [e] <+: es →
      ∃ u t, run step s pre = some u ∧ step u e = some t ∧ R u e t := by
  constructor
  · intro hQ pre e hpre
    obtain ⟨hbefore, hlast⟩ := allSteps_append.mp (allSteps_beginning hpre (hall.and hQ))
    obtain ⟨u, hu, hIu⟩ := run_defined (I := I) (fun s e hs h => by
      obtain ⟨t, ht, -⟩ := (hstep s e hs h.1).mp h.2
      exact ⟨t, ht, hkeep s e t hs h.1 h.2 ht⟩) hs hbefore
    obtain ⟨⟨hP, hQ⟩, -⟩ := hlast u hu
    obtain ⟨t, ht, hR⟩ := (hstep u e hIu hP).mp hQ
    exact ⟨u, t, hu, ht, hR⟩
  · intro h
    induction es generalizing s with
    | nil => exact trivial
    | cons e es ih =>
        obtain ⟨u, t, hu, ht, hR⟩ := h [] e ⟨es, rfl⟩
        obtain rfl : s = u := Option.some.inj hu
        have hQ := (hstep s e hs hall.1).mpr ⟨t, ht, hR⟩
        refine ⟨hQ, fun t' ht' => ?_⟩
        obtain rfl := Option.some.inj (ht.symm.trans ht')
        refine ih (hkeep s e t hs hall.1 hQ ht) (hall.2 t ht) fun pre e' hpre => ?_
        obtain ⟨v, w, hv, hw, hR'⟩ := h (e :: pre) e' (List.cons_prefix_cons.mpr ⟨rfl, hpre⟩)
        obtain ⟨t', ht', hv⟩ := run_cons_eq_some.mp hv
        obtain rfl := Option.some.inj (ht.symm.trans ht')
        exact ⟨v, w, hv, hw, hR'⟩

/-- When a step that does not meet a condition leads to states that no step leaves, a run
that ends elsewhere has met it throughout. -/
theorem allSteps_of_not_trapped {T : σ → Prop}
    (htrap : ∀ s e t, step s e = some t → ¬P s e → T t)
    (hkeep : ∀ s e t, T s → step s e = some t → T t) {s u : σ} {es : List ε}
    (hrun : run step s es = some u) (hu : ¬T u) : AllSteps step P s es := by
  induction es generalizing s with
  | nil => exact trivial
  | cons e es ih =>
      obtain ⟨t, ht, hrest⟩ := run_cons_eq_some.mp hrun
      have hP : P s e := by
        by_contra hnot
        exact hu (run_invariant hkeep (htrap s e t ht hnot) hrest)
      refine ⟨hP, fun t' ht' => ?_⟩
      obtain rfl := Option.some.inj (ht.symm.trans ht')
      exact ih hrest

end Transition
