import DistStorage.Transition.Run

/-!
# Sole owners

`unique_fd` and `guard_ptr` own a resource that they release when they end. A resource
comes to an owner from outside, as a plain descriptor or pointer, moves between owners,
and is released or handed out. The two classes differ in their null value, and in that
only `unique_fd` looks whether it is assigned from itself.

The owners are numbered as they are constructed; one that has ended is kept with the
null value. A descriptor whose `close` fails counts as released.
-/

namespace DistStorage

namespace Utils

open Transition

/-- A class of owners. -/
structure GuardKind (ρ : Type) where
  null : ρ
  checksSelf : Bool

def uniqueFd : GuardKind ℤ where
  null := -1
  checksSelf := true

/-- `guard_ptr`, over addresses. -/
def guardPtr : GuardKind ℕ where
  null := 0
  checksSelf := false

/-- The values of the owners, and what was adopted, released and handed out so far. -/
structure Guards (ρ : Type) where
  values : List ρ := []
  adopted : List ρ := []
  freed : List ρ := []
  handed : List ρ := []
  deriving DecidableEq, Repr

/-- The operations; `reset` is what the destructor does. -/
inductive GuardEvent (ρ : Type)
  | construct (value : ρ)
  | moveConstruct (other : ℕ)
  | moveAssign (i other : ℕ)
  | reset (i : ℕ)
  | handle (i : ℕ)
  deriving DecidableEq, Repr

namespace Guards

variable {ρ : Type} [DecidableEq ρ]

section Definitions

variable (kind : GuardKind ρ)

def resource (value : ρ) : List ρ := if value = kind.null then [] else [value]

/-- The release at the beginning of `reset` and of a move assignment. -/
def free (s : Guards ρ) (value : ρ) : Guards ρ :=
  { s with freed := s.freed ++ resource kind value }

def step (s : Guards ρ) : GuardEvent ρ → Option (Guards ρ)
  | .construct value =>
      some { s with values := s.values ++ [value], adopted := s.adopted ++ resource kind value }
  | .moveConstruct other =>
      s.values[other]?.map fun value =>
        { s with values := s.values.set other kind.null ++ [value] }
  | .moveAssign i other =>
      s.values[i]?.bind fun old =>
        s.values[other]?.map fun value =>
          if kind.checksSelf = true ∧ i = other then s
          else { s.free kind old with values := (s.values.set i value).set other kind.null }
  | .reset i =>
      s.values[i]?.map fun old => { s.free kind old with values := s.values.set i kind.null }
  | .handle i =>
      s.values[i]?.map fun value =>
        { s with values := s.values.set i kind.null, handed := s.handed ++ resource kind value }

/-- Every adoption of a resource is accounted for. -/
def Accounted (s : Guards ρ) : Prop :=
  ∀ r ≠ kind.null, s.adopted.count r = s.values.count r + s.freed.count r + s.handed.count r

/-- No resource has two owners, and every adoption is accounted for: between two releases
of a resource it was adopted again. -/
structure SolelyOwned (s : Guards ρ) : Prop where
  sole : ∀ r ≠ kind.null, s.values.count r ≤ 1
  accounted : s.Accounted kind

/-- What is adopted has no owner yet. -/
def Adopts (s : Guards ρ) : GuardEvent ρ → Prop
  | .construct value => value = kind.null ∨ value ∉ s.values
  | _ => True

instance (s : Guards ρ) : (e : GuardEvent ρ) → Decidable (s.Adopts kind e)
  | .construct value => inferInstanceAs (Decidable (value = kind.null ∨ value ∉ s.values))
  | .moveConstruct _ | .moveAssign _ _ | .reset _ | .handle _ => .isTrue trivial

end Definitions

section Counts

variable {kind : GuardKind ρ} {r value : ρ} {l : List ρ} {i : ℕ}

theorem count_resource (hr : r ≠ kind.null) :
    (resource kind value).count r = if value = r then 1 else 0 := by
  unfold resource
  split_ifs with hnull hvalue hvalue
  · exact absurd (hvalue.symm.trans hnull) hr
  · rfl
  · simp [hvalue]
  · simp [hvalue]

variable (r value) in
theorem count_set_add {old : ρ} (h : l[i]? = some old) :
    (l.set i value).count r + (if old = r then 1 else 0) =
      l.count r + if value = r then 1 else 0 := by
  obtain ⟨hi, rfl⟩ := List.getElem?_eq_some_iff.mp h
  have hle : (if l[i] == r then 1 else 0) ≤ l.count r := List.boole_getElem_le_count hi
  rw [List.count_set hi]
  simp only [beq_iff_eq] at hle ⊢
  omega

variable (kind) in
theorem count_set_null {old : ρ} (hr : r ≠ kind.null) (h : l[i]? = some old) :
    (l.set i kind.null).count r + (if old = r then 1 else 0) = l.count r := by
  rw [count_set_add r kind.null h, if_neg hr.symm, add_zero]

end Counts

section Steps

variable {kind : GuardKind ρ} {s t : Guards ρ} {r : ρ} {e : GuardEvent ρ}
  {es : List (GuardEvent ρ)}

/-- What a step does with one resource: it is adopted once or not, and what is released or
handed out is taken from an owner. -/
theorem count_step (hr : r ≠ kind.null) (hstep : step kind s e = some t) :
    ∃ freed handed, t.freed.count r = s.freed.count r + freed ∧
      t.handed.count r = s.handed.count r + handed ∧
      t.adopted.count r = s.adopted.count r + (if e = .construct r then 1 else 0) ∧
      t.values.count r + freed + handed =
        s.values.count r + if e = .construct r then 1 else 0 := by
  cases e with
  | construct value =>
      obtain rfl := Option.some.inj hstep
      refine ⟨0, 0, rfl, rfl, ?_, ?_⟩
      · simp only [List.count_append, count_resource hr, GuardEvent.construct.injEq]
      · simp [List.count_append, List.count_singleton]
  | moveConstruct other =>
      obtain ⟨value, hvalue, rfl⟩ := Option.map_eq_some_iff.mp hstep
      refine ⟨0, 0, rfl, rfl, by simp, ?_⟩
      have hset := count_set_null kind hr hvalue
      simp only [List.count_append, List.count_singleton, beq_iff_eq, reduceCtorEq, if_false]
      omega
  | moveAssign i other =>
      obtain ⟨old, hold, hstep⟩ := Option.bind_eq_some_iff.mp hstep
      obtain ⟨value, hvalue, rfl⟩ := Option.map_eq_some_iff.mp hstep
      by_cases hself : kind.checksSelf = true ∧ i = other
      · rw [if_pos hself]
        exact ⟨0, 0, rfl, rfl, by simp, by simp⟩
      · rw [if_neg hself]
        refine ⟨if old = r then 1 else 0, 0, ?_, rfl, by simp [free], ?_⟩
        · simp only [free, List.count_append, count_resource hr]
        · -- the value of the other owner is the one that was assigned
          have hother : (s.values.set i value)[other]? = some value := by
            by_cases hi : i = other
            · subst hi
              exact List.getElem?_set_self (List.getElem?_eq_some_iff.mp hold).1
            · rw [List.getElem?_set_ne hi, hvalue]
          have hset := count_set_add r value hold
          have hnull := count_set_null kind hr hother
          simp only [reduceCtorEq, if_false]
          omega
  | reset i =>
      obtain ⟨old, hold, rfl⟩ := Option.map_eq_some_iff.mp hstep
      refine ⟨if old = r then 1 else 0, 0, ?_, rfl, by simp [free], ?_⟩
      · simp only [free, List.count_append, count_resource hr]
      · have hset := count_set_null kind hr hold
        simp only [reduceCtorEq, if_false]
        omega
  | handle i =>
      obtain ⟨value, hvalue, rfl⟩ := Option.map_eq_some_iff.mp hstep
      refine ⟨0, if value = r then 1 else 0, rfl, ?_, by simp, ?_⟩
      · simp only [List.count_append, count_resource hr]
      · have hset := count_set_null kind hr hvalue
        simp only [reduceCtorEq, if_false]
        omega

theorem Accounted.step (hs : s.Accounted kind) (hstep : Guards.step kind s e = some t) :
    t.Accounted kind := by
  intro r hr
  obtain ⟨freed, handed, hfreed, hhanded, hadopted, hvalues⟩ := count_step hr hstep
  have hbefore := hs r hr
  omega

theorem solelyOwned_step_iff (hs : s.SolelyOwned kind) (hstep : Guards.step kind s e = some t) :
    t.SolelyOwned kind ↔ s.Adopts kind e := by
  have haccounted := hs.accounted.step hstep
  by_cases hconstruct : ∃ value, e = .construct value
  · obtain ⟨value, rfl⟩ := hconstruct
    obtain rfl := Option.some.inj hstep
    constructor
    · intro h
      by_cases hnull : value = kind.null
      · exact .inl hnull
      · refine .inr fun hmem => ?_
        have hsole := h.sole value hnull
        have hpos := List.count_pos_iff.mpr hmem
        rw [List.count_append, List.count_singleton_self] at hsole
        omega
    · intro h
      refine ⟨fun r hr => ?_, haccounted⟩
      have hsole := hs.sole r hr
      rw [List.count_append, List.count_singleton]
      split_ifs with hvalue
      · obtain rfl := beq_iff_eq.mp hvalue
        have hzero : s.values.count value = 0 := List.count_eq_zero.mpr (h.resolve_left hr)
        omega
      · exact hsole
  · refine iff_of_true ⟨fun r hr => ?_, haccounted⟩ ?_
    · obtain ⟨freed, handed, -, -, -, hvalues⟩ := count_step hr hstep
      have hsole := hs.sole r hr
      rw [if_neg fun h => hconstruct ⟨r, h⟩] at hvalues
      omega
    · cases e with
      | construct value => exact absurd ⟨value, rfl⟩ hconstruct
      | moveConstruct other => trivial
      | moveAssign i other => trivial
      | reset i => trivial
      | handle i => trivial

theorem solelyOwned_empty (kind : GuardKind ρ) : ({} : Guards ρ).SolelyOwned kind :=
  ⟨fun _ _ => Nat.zero_le 1, fun _ _ => rfl⟩

/-- In a run of any operations, no resource ever has two owners and every release is
accounted for, exactly if no plain value is adopted while an owner has it. -/
theorem run_solelyOwned_iff (hrun : run (Guards.step kind) {} es = some s) :
    (∀ pre t, pre <+: es → run (Guards.step kind) {} pre = some t → t.SolelyOwned kind) ↔
      AllSteps (Guards.step kind) (Adopts kind) {} es :=
  (allSteps_iff_invariant (J := fun _ => True) (fun _ _ _ _ _ => trivial)
    (fun _ _ _ _ hs hstep => solelyOwned_step_iff hs hstep) trivial (solelyOwned_empty kind)
    hrun).symm

theorem step_moveAssign_self {i : ℕ} {value : ρ} (h : s.values[i]? = some value) :
    Guards.step kind s (.moveAssign i i) =
      if kind.checksSelf = true then some s else Guards.step kind s (.reset i) := by
  simp only [Guards.step, h, Option.bind_some, Option.map_some, and_true, List.set_set]
  split_ifs <;> rfl

end Steps

/-- A descriptor that moves to a second owner, which is assigned from itself and ends; the
number comes again from the system and is handed out. -/
def sampleEvents : List (GuardEvent ℤ) :=
  [.construct 5, .moveConstruct 0, .moveAssign 1 1, .reset 0, .reset 1, .construct 5, .handle 2]

theorem run_solelyOwned_iff_sample :
    ∃ s, run (step uniqueFd) {} sampleEvents = some s ∧ s.freed = [5] ∧ s.handed = [5] ∧
      ∀ pre t, pre <+: sampleEvents → run (step uniqueFd) {} pre = some t →
        t.SolelyOwned uniqueFd := by
  have hrun : run (step uniqueFd) {} sampleEvents = some _ := rfl
  exact ⟨_, hrun, rfl, rfl, (run_solelyOwned_iff hrun).mpr (by decide)⟩

end Guards

end Utils

end DistStorage
