import Mathlib

/-!
# Runs of a partial deterministic step

A system is given by a partial step: `step s e` is the state after the event
`e`, or `none` when the event cannot happen in `s` or the system stops there.
A run is a list of events; `run step s es` is the state after all of them.

`AllSteps step P s es` says that every step taken along the run meets a
condition `P` on the state before it and its event. The two invariant rules
carry a property along all runs, and along the runs whose steps meet a
condition.
-/

namespace Transition

/-- The state after a list of events, if every one of them can happen. -/
def run {σ ε : Type*} (step : σ → ε → Option σ) : σ → List ε → Option σ
  | s, [] => some s
  | s, e :: es => (step s e).bind fun t => run step t es

/-- Every step along the run meets the condition `P`. -/
def AllSteps {σ ε : Type*} (step : σ → ε → Option σ) (P : σ → ε → Prop) :
    σ → List ε → Prop
  | _, [] => True
  | s, e :: es => P s e ∧ ∀ t, step s e = some t → AllSteps step P t es

/-- A condition that can be decided at each step can be decided along a run. -/
instance AllSteps.decidable {σ ε : Type*} (step : σ → ε → Option σ) (P : σ → ε → Prop)
    [∀ s e, Decidable (P s e)] :
    (es : List ε) → (s : σ) → Decidable (AllSteps step P s es)
  | [], _ => .isTrue trivial
  | e :: es, s =>
      match h : step s e with
      | none => decidable_of_iff (P s e) (by simp [AllSteps, h])
      | some t =>
          have := AllSteps.decidable step P es t
          decidable_of_iff (P s e ∧ AllSteps step P t es) (by simp [AllSteps, h])

@[simp] theorem run_nil {σ ε : Type*} (step : σ → ε → Option σ) (s : σ) :
    run step s [] = some s := rfl

theorem run_cons {σ ε : Type*} (step : σ → ε → Option σ) (s : σ) (e : ε)
    (es : List ε) :
    run step s (e :: es) = (step s e).bind fun t => run step t es := rfl

theorem run_cons_eq_some {σ ε : Type*} {step : σ → ε → Option σ} {s u : σ} {e : ε}
    {es : List ε} :
    run step s (e :: es) = some u ↔ ∃ t, step s e = some t ∧ run step t es = some u := by
  rw [run_cons, Option.bind_eq_some_iff]

theorem run_append {σ ε : Type*} (step : σ → ε → Option σ) (s : σ) (es fs : List ε) :
    run step s (es ++ fs) = (run step s es).bind fun t => run step t fs := by
  induction es generalizing s with
  | nil => rfl
  | cons e es ih =>
      rw [List.cons_append, run_cons, run_cons, Option.bind_assoc]
      congr 1
      funext t
      exact ih t

theorem allSteps_append {σ ε : Type*} {step : σ → ε → Option σ} {P : σ → ε → Prop} {s : σ}
    {es fs : List ε} :
    AllSteps step P s (es ++ fs) ↔
      AllSteps step P s es ∧ ∀ t, run step s es = some t → AllSteps step P t fs := by
  induction es generalizing s with
  | nil => simp [AllSteps]
  | cons e es ih =>
      rw [List.cons_append, AllSteps, AllSteps, and_assoc]
      refine and_congr_right fun _ => ?_
      simp only [ih, run_cons_eq_some]
      constructor
      · intro h
        refine ⟨fun t ht => (h t ht).1, ?_⟩
        rintro u ⟨t, ht, hu⟩
        exact (h t ht).2 u hu
      · rintro ⟨hfirst, hrest⟩ t ht
        exact ⟨hfirst t ht, fun u hu => hrest u ⟨t, ht, hu⟩⟩

theorem allSteps_of_forall_mem {σ ε : Type*} {step : σ → ε → Option σ} {P : σ → ε → Prop}
    {es : List ε} (h : ∀ s, ∀ e ∈ es, P s e) (s : σ) : AllSteps step P s es := by
  induction es generalizing s with
  | nil => exact trivial
  | cons e es ih =>
      refine ⟨h s e List.mem_cons_self, fun t _ => ih (fun u e' he' => ?_) t⟩
      exact h u e' (List.mem_cons_of_mem e he')

theorem AllSteps.imp {σ ε : Type*} {step : σ → ε → Option σ} {I : σ → Prop}
    {P Q : σ → ε → Prop} (hstep : ∀ s e t, I s → P s e → step s e = some t → I t)
    (himp : ∀ s e, I s → P s e → Q s e) {s : σ} {es : List ε} (hs : I s)
    (hall : AllSteps step P s es) : AllSteps step Q s es := by
  induction es generalizing s with
  | nil => exact trivial
  | cons e es ih =>
      exact ⟨himp s e hs hall.1, fun t ht => ih (hstep s e t hs hall.1 ht) (hall.2 t ht)⟩

/-- An invariant of every step holds after every run. -/
theorem run_invariant {σ ε : Type*} {step : σ → ε → Option σ} {I : σ → Prop}
    (hstep : ∀ s e t, I s → step s e = some t → I t) {s u : σ} {es : List ε}
    (hs : I s) (hrun : run step s es = some u) : I u := by
  induction es generalizing s with
  | nil =>
      obtain rfl : s = u := Option.some.inj hrun
      exact hs
  | cons e es ih =>
      obtain ⟨t, ht, hrest⟩ := run_cons_eq_some.mp hrun
      exact ih (hstep s e t hs ht) hrest

theorem run_invariant_of_events {σ ε : Type*} {step : σ → ε → Option σ} {I : List ε → σ → Prop}
    (hstep : ∀ es s e t, I es s → step s e = some t → I (es ++ [e]) t) {s u : σ} {es : List ε}
    (hs : I [] s) (hrun : run step s es = some u) : I es u := by
  induction es using List.reverseRecOn generalizing u with
  | nil =>
      obtain rfl : s = u := Option.some.inj hrun
      exact hs
  | append_singleton es e ih =>
      rw [run_append, Option.bind_eq_some_iff] at hrun
      obtain ⟨t, ht, hu⟩ := hrun
      obtain ⟨u', hu', hlast⟩ := run_cons_eq_some.mp hu
      obtain rfl : u' = u := Option.some.inj hlast
      exact hstep es t e u' (ih ht) hu'

/-- An invariant of the steps that meet a condition holds after every run whose
steps all meet it. -/
theorem run_invariant_of_allSteps {σ ε : Type*} {step : σ → ε → Option σ}
    {I : σ → Prop} {P : σ → ε → Prop}
    (hstep : ∀ s e t, I s → P s e → step s e = some t → I t) {s u : σ} {es : List ε}
    (hs : I s) (hall : AllSteps step P s es) (hrun : run step s es = some u) :
    I u := by
  induction es generalizing s with
  | nil =>
      obtain rfl : s = u := Option.some.inj hrun
      exact hs
  | cons e es ih =>
      obtain ⟨t, ht, hrest⟩ := run_cons_eq_some.mp hrun
      exact ih (hstep s e t hs hall.1 ht) (hall.2 t ht) hrest

/-- When a condition on a step says exactly whether it keeps an invariant, the
runs whose steps all meet it are those that keep the invariant throughout. The
events of the runs may be restricted. -/
theorem allSteps_iff_invariant_of_forall_mem {σ ε : Type*} {step : σ → ε → Option σ}
    {E : ε → Prop} {I J : σ → Prop} {P : σ → ε → Prop}
    (hJ : ∀ s e t, E e → J s → step s e = some t → J t)
    (hI : ∀ s e t, E e → J s → I s → step s e = some t → (I t ↔ P s e)) {s u : σ} {es : List ε}
    (hes : ∀ e ∈ es, E e) (hJs : J s) (hIs : I s) (hrun : run step s es = some u) :
    AllSteps step P s es ↔ ∀ pre t, pre <+: es → run step s pre = some t → I t := by
  induction es generalizing s with
  | nil =>
      refine ⟨?_, fun _ => trivial⟩
      intro _ pre t hpre ht
      obtain rfl := List.prefix_nil.mp hpre
      obtain rfl : s = t := Option.some.inj ht
      exact hIs
  | cons e es ih =>
      obtain ⟨t, ht, hrest⟩ := run_cons_eq_some.mp hrun
      have he : E e := hes e List.mem_cons_self
      have htail : ∀ e ∈ es, E e := fun e he => hes e (List.mem_cons_of_mem _ he)
      constructor
      · rintro ⟨hP, hsteps⟩ pre v hpre hv
        rcases List.prefix_cons_iff.mp hpre with rfl | ⟨pre, rfl, htl⟩
        · obtain rfl : s = v := Option.some.inj hv
          exact hIs
        · obtain ⟨t', ht', hv⟩ := run_cons_eq_some.mp hv
          obtain rfl := Option.some.inj (ht.symm.trans ht')
          have hIt : I t := (hI s e t he hJs hIs ht).mpr hP
          exact (ih htail (hJ s e t he hJs ht) hIt hrest).mp (hsteps t ht) pre v htl hv
      · intro h
        have hIt : I t := h [e] t (by simp) (run_cons_eq_some.mpr ⟨t, ht, rfl⟩)
        refine ⟨(hI s e t he hJs hIs ht).mp hIt, ?_⟩
        intro t' ht'
        obtain rfl := Option.some.inj (ht.symm.trans ht')
        apply (ih htail (hJ s e t he hJs ht) hIt hrest).mpr
        intro pre v hpre hv
        exact h (e :: pre) v (List.prefix_cons_iff.mpr (.inr ⟨pre, rfl, hpre⟩))
          (run_cons_eq_some.mpr ⟨t, ht, hv⟩)

theorem allSteps_iff_invariant {σ ε : Type*} {step : σ → ε → Option σ}
    {I J : σ → Prop} {P : σ → ε → Prop}
    (hJ : ∀ s e t, J s → step s e = some t → J t)
    (hI : ∀ s e t, J s → I s → step s e = some t → (I t ↔ P s e)) {s u : σ} {es : List ε}
    (hJs : J s) (hIs : I s) (hrun : run step s es = some u) :
    AllSteps step P s es ↔ ∀ pre t, pre <+: es → run step s pre = some t → I t :=
  allSteps_iff_invariant_of_forall_mem (E := fun _ => True) (fun s e t _ => hJ s e t)
    (fun s e t _ => hI s e t) (fun _ _ => trivial) hJs hIs hrun

/-- When the steps that meet a condition keep an invariant, and a step that does not meet
it is seen in the state it leads to, the runs whose steps all meet the condition are those
in which nothing is seen. -/
theorem allSteps_iff_of_seen {σ ε : Type*} {step : σ → ε → Option σ} {I Q : σ → Prop}
    {P : σ → ε → Prop} (hkeep : ∀ s e t, I s → P s e → step s e = some t → I t)
    (hseen : ∀ s e t, I s → step s e = some t → Q t → P s e) (himp : ∀ s, I s → Q s)
    {s u : σ} {es : List ε} (hs : I s) (hrun : run step s es = some u) :
    AllSteps step P s es ↔ ∀ pre t, pre <+: es → run step s pre = some t → Q t := by
  constructor
  · rintro hall pre t ⟨post, rfl⟩ ht
    exact himp t (run_invariant_of_allSteps hkeep hs (allSteps_append.mp hall).1 ht)
  · intro hQ
    induction es generalizing s with
    | nil => exact trivial
    | cons e es ih =>
        obtain ⟨t, ht, hrest⟩ := run_cons_eq_some.mp hrun
        have hQt : Q t := hQ [e] t (by simp) (run_cons_eq_some.mpr ⟨t, ht, rfl⟩)
        have hP := hseen s e t hs ht hQt
        refine ⟨hP, fun t' ht' => ?_⟩
        obtain rfl := Option.some.inj (ht.symm.trans ht')
        refine ih (hkeep s e t hs hP ht) hrest fun pre v hpre hv => ?_
        exact hQ (e :: pre) v (List.prefix_cons_iff.mpr (.inr ⟨pre, rfl, hpre⟩))
          (run_cons_eq_some.mpr ⟨t, ht, hv⟩)

/-- Two systems side by side, each with its own events. -/
def interleave {σ σ' ε ε' : Type*} (step : σ → ε → Option σ) (step' : σ' → ε' → Option σ')
    (s : σ × σ') : ε ⊕ ε' → Option (σ × σ')
  | .inl e => (step s.1 e).map (·, s.2)
  | .inr e => (step' s.2 e).map (s.1, ·)

/-- Each of two systems side by side runs through its own events. -/
theorem run_interleave {σ σ' ε ε' : Type*} {step : σ → ε → Option σ}
    {step' : σ' → ε' → Option σ'} {s t : σ × σ'} {es : List (ε ⊕ ε')}
    (hrun : run (interleave step step') s es = some t) :
    run step s.1 (es.filterMap Sum.getLeft?) = some t.1 ∧
      run step' s.2 (es.filterMap Sum.getRight?) = some t.2 := by
  induction es generalizing s with
  | nil =>
      obtain rfl : s = t := Option.some.inj hrun
      exact ⟨rfl, rfl⟩
  | cons e es ih =>
      obtain ⟨u, hu, hrest⟩ := run_cons_eq_some.mp hrun
      obtain ⟨hleft, hright⟩ := ih hrest
      cases e with
      | inl e =>
          obtain ⟨u', hu', rfl⟩ := Option.map_eq_some_iff.mp hu
          exact ⟨run_cons_eq_some.mpr ⟨u', hu', hleft⟩, hright⟩
      | inr e =>
          obtain ⟨u', hu', rfl⟩ := Option.map_eq_some_iff.mp hu
          exact ⟨hleft, run_cons_eq_some.mpr ⟨u', hu', hright⟩⟩

end Transition
