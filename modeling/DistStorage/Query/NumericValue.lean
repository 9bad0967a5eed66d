import DistStorage.Logic.NAry
import DistStorage.Query.RuleValue

/-!
# Flattening arithmetic and aggregates

The merge rule for numbers replaces an argument with the operation of the node by
the arguments of that argument, whatever the operation is. Here a node is evaluated
in the real numbers: each commutative operation is its function of the multiset of
its argument values, null arguments being skipped by the aggregates and passed on
by the arithmetic ones, and the other operations are arbitrary.

Sums, products, minima and maxima are folds, so they are flat functions and keep
their value. The other aggregates are not.
-/

namespace DistStorage

namespace Query

open OpGraph

section Aggregates

def numbers (s : Multiset (Option ℝ)) : Multiset ℝ := s.filterMap id

/-- An aggregate that is null on no numbers. -/
noncomputable def onNumbers (f : Multiset ℝ → ℝ) (s : Multiset (Option ℝ)) : Option ℝ :=
  if numbers s = 0 then none else some (f (numbers s))

noncomputable def average (s : Multiset ℝ) : ℝ := s.sum / s.card

noncomputable def middle (l : List ℝ) : ℝ :=
  (l.getD ((l.length - 1) / 2) 0 + l.getD (l.length / 2) 0) / 2

noncomputable def median (s : Multiset ℝ) : ℝ := middle (s.sort (· ≤ ·))

noncomputable def variance (sample : Bool) (s : Multiset ℝ) : ℝ :=
  (s.map fun x => (x - average s) ^ 2).sum / (if sample then s.card - 1 else s.card)

/-- The function of the argument values that a commutative numeric operation
stands for. -/
noncomputable def numericFunction (sample : Bool) :
    ColumnOperation → Option (Multiset (Option ℝ) → Option ℝ)
  | .ADD => some (Multiset.fold (Option.map₂ (· + ·)) (some 0))
  | .MUL => some (Multiset.fold (Option.map₂ (· * ·)) (some 1))
  | .SUM => some (Multiset.fold (Option.merge (· + ·)) none)
  | .MIN => some (Multiset.fold (Option.merge min) none)
  | .MAX => some (Multiset.fold (Option.merge max) none)
  | .COUNT => some fun s => some (numbers s).card
  | .COUNT_DISTINCT => some fun s => some (numbers s).dedup.card
  | .AVG => some (onNumbers average)
  | .MEDIAN => some (onNumbers median)
  | .VAR => some (onNumbers (variance sample))
  | .STD => some (onNumbers fun s => Real.sqrt (variance sample s))
  | _ => none

end Aggregates

/-- The operations that stand for a flat function. -/
def isFlat : ColumnOperation → Bool
  | .ADD | .MUL | .SUM | .MIN | .MAX => true
  | _ => false

section Functions

variable (sample : Bool)

theorem flat_numericFunction {op : ColumnOperation} (hop : isFlat op = true)
    {F : Multiset (Option ℝ) → Option ℝ} (hF : numericFunction sample op = some F) :
    NAry.Flat F := by
  cases op <;> simp only [isFlat, Bool.false_eq_true] at hop <;>
    obtain rfl := Option.some.inj hF
  all_goals exact NAry.flat_fold _ _

theorem exists_numericFunction {op : ColumnOperation} (hcommutes : isCummutative op = true)
    (hnumeric : mergedLogicOp op = none) : ∃ F, numericFunction sample op = some F := by
  cases op <;> simp only [isCummutative, Bool.false_eq_true, mergedLogicOp, reduceCtorEq]
    at hcommutes hnumeric
  all_goals exact ⟨_, rfl⟩

@[simp] theorem numbers_some (x : ℝ) (s : Multiset (Option ℝ)) :
    numbers (some x ::ₘ s) = x ::ₘ numbers s :=
  Multiset.filterMap_cons_some _ _ _ rfl

@[simp] theorem numbers_singleton (x : ℝ) : numbers {some x} = {x} := rfl

theorem average_zero_zero_one : average {average {0, 0}, 1} ≠ average {0, 0, 1} := by
  norm_num [average]

theorem median_coe {l : List ℝ} (h : l.Pairwise (· ≤ ·)) : median l = middle l := by
  rw [median, Multiset.coe_sort, List.mergeSort_of_pairwise (by simpa using h)]

theorem median_zero_zero_one : median {median {0, 0}, 1} ≠ median {0, 0, 1} := by
  have hinner : median {0, 0} = 0 := by
    refine (median_coe (l := [0, 0]) (by simp)).trans ?_
    norm_num [middle]
  have houter : median {0, 1} = 1 / 2 := by
    refine (median_coe (l := [0, 1]) (by simp)).trans ?_
    norm_num [middle]
  have hflat : median {0, 0, 1} = 0 := by
    refine (median_coe (l := [0, 0, 1]) (by simp)).trans ?_
    norm_num [middle]
  rw [hinner, houter, hflat]
  norm_num

theorem variance_zero_zero : variance sample {0, 0} = 0 := by
  simp [variance, average]

theorem variance_zero_one_ne : variance sample {0, 1} ≠ variance sample {0, 0, 1} := by
  cases sample <;> norm_num [variance, average]

theorem variance_nonneg {s : Multiset ℝ} (h : s ≠ 0) : 0 ≤ variance sample s := by
  have hcard : (1 : ℝ) ≤ s.card := by
    exact_mod_cast Multiset.card_pos.mpr h
  refine div_nonneg (Multiset.sum_nonneg ?_) ?_
  · intro x hx
    obtain ⟨y, -, rfl⟩ := Multiset.mem_map.mp hx
    exact sq_nonneg _
  · split_ifs <;> linarith

/-- The variance and the deviation of two zeros are zero. -/
theorem deviation_zero_zero_one :
    √(variance sample {√(variance sample {0, 0}), 1}) ≠ √(variance sample {0, 0, 1}) := by
  rw [variance_zero_zero, Real.sqrt_zero]
  intro heq
  refine variance_zero_one_ne sample ?_
  exact (Real.sqrt_inj (variance_nonneg sample (by simp))
    (variance_nonneg sample (by simp))).mp heq

/-- The other functions tell `F (F (0, 0), 1)` from `F (0, 0, 1)`. -/
theorem onNumbers_zero_zero_one {f : Multiset ℝ → ℝ} (h : f {f {0, 0}, 1} ≠ f {0, 0, 1}) :
    onNumbers f {onNumbers f {some 0, some 0}, some 1} ≠
      onNumbers f {some 0, some 0, some 1} := by
  simpa [onNumbers] using h

theorem numericFunction_zero_zero_one {op : ColumnOperation} (hop : isFlat op = false)
    {F : Multiset (Option ℝ) → Option ℝ} (hF : numericFunction sample op = some F) :
    F {F {some 0, some 0}, some 1} ≠ F {some 0, some 0, some 1} := by
  cases op <;> simp only [isFlat, Bool.true_eq_false] at hop <;>
    simp only [numericFunction, reduceCtorEq, Option.some.injEq] at hF <;> subst hF
  case COUNT | COUNT_DISTINCT => norm_num
  case AVG => exact onNumbers_zero_zero_one average_zero_zero_one
  case MEDIAN => exact onNumbers_zero_zero_one median_zero_zero_one
  case STD => exact onNumbers_zero_zero_one (deviation_zero_zero_one sample)
  case VAR =>
    refine onNumbers_zero_zero_one ?_
    rw [variance_zero_zero]
    exact variance_zero_one_ne sample

end Functions

section Values

variable (sample : Bool) (other : Operation → List (Option ℝ) → Option ℝ)

noncomputable def numericLayer (leaf : ℝ) (o : Operation) (args : List (Option ℝ)) : Option ℝ :=
  match numericFunction sample o.op with
  | some F => F args
  | none => if args.isEmpty then some leaf else other o args

noncomputable def numericValue (g : OpGraph) (leaf : ℤ → ℝ) (i : ℤ) : Option ℝ :=
  g.eval (fun i => numericLayer sample other (leaf i)) none i

/-- The node returned has the value of the node the rule was applied to, and the
old nodes are as they were. -/
structure KeepsNumber (leaf : ℤ → ℝ) (g : OpGraph) (node : ℤ) (outcome : ℤ × OpGraph) :
    Prop where
  valid : outcome.2.Valid outcome.1
  value_eq : numericValue sample other outcome.2 leaf outcome.1 =
    numericValue sample other g leaf node
  old : ∀ i, g.Valid i → outcome.2.Valid i ∧ outcome.2.operation i = g.operation i ∧
    outcome.2.children i = g.children i

/-- An argument of the node has the operation of the node. -/
def Nested (g : OpGraph) (node : ℤ) : Prop :=
  ∃ c ∈ g.children node, (g.operation c).op = (g.operation node).op

variable {sample other} {g : OpGraph} {node : ℤ} {leaf : ℤ → ℝ}
  {F : Multiset (Option ℝ) → Option ℝ}

theorem numericLayer_of_function {o : Operation} (hF : numericFunction sample o.op = some F)
    (leaf : ℝ) (args : List (Option ℝ)) : numericLayer sample other leaf o args = F args := by
  rw [numericLayer, hF]

theorem numericValue_of_function (h : g.Dag)
    (hF : numericFunction sample (g.operation node).op = some F) :
    numericValue sample other g leaf node =
      F ((g.children node).map (numericValue sample other g leaf)) :=
  (eval_eq _ _ h node).trans (numericLayer_of_function hF _ _)

theorem mergeCummutativeNumericApply_eq (h : g.Dag) (hnode : g.Valid node) :
    mergeCummutativeNumericApply g node = ((g.size : ℤ), g.append [(g.operation node,
      (g.children node).flatMap (absorb g (g.operation node).op))]) := by
  rw [mergeCummutativeNumericApply, cloneNode_eq]
  simp only [operation_append hnode,
    mergeChildren_clone_eq h.lengths _ _ (h.valid_children node)]

/-- The rule keeps the value of a node if its function does not tell the flattened
arguments from the arguments. -/
theorem keepsNumber_iff (h : g.Dag) (hnode : g.Valid node)
    (hF : numericFunction sample (g.operation node).op = some F) :
    KeepsNumber sample other leaf g node (mergeCummutativeNumericApply g node) ↔
      F (((g.children node).flatMap (absorb g (g.operation node).op)).map
          (numericValue sample other g leaf)) =
        F ((g.children node).map (numericValue sample other g leaf)) := by
  have hvalid := valid_of_mem_absorb h.valid_children (g.operation node).op
    (h.valid_children node)
  have h' := h.append_flat [(g.operation node,
    (g.children node).flatMap (absorb g (g.operation node).op))] (by simpa using hvalid)
  have hfresh := eval_append_fresh (fun i => numericLayer sample other (leaf i)) none h h'
    (k := 0) rfl hvalid
  rw [Nat.cast_zero, add_zero, numericLayer_of_function hF] at hfresh
  rw [mergeCummutativeNumericApply_eq h hnode]
  constructor
  · intro hkeeps
    rw [← numericValue_of_function h hF, ← hkeeps.value_eq]
    exact hfresh.symm
  · intro heq
    refine ⟨valid_append_size g _ _, ?_, fun i hi => ⟨hi.append _, operation_append hi _,
      children_append h.lengths hi _⟩⟩
    rw [numericValue_of_function h hF, ← heq]
    exact hfresh

theorem keepsNumber_of_flat (h : g.Dag) (hnode : g.Valid node)
    (hF : numericFunction sample (g.operation node).op = some F) (hflat : NAry.Flat F) :
    KeepsNumber sample other leaf g node (mergeCummutativeNumericApply g node) := by
  refine (keepsNumber_iff h hnode hF).mpr (hflat.flatMap fun c _ => ?_)
  by_cases hop : (g.operation c).op = (g.operation node).op
  · rw [absorb, if_pos hop]
    exact .inr (numericValue_of_function h (hop ▸ hF))
  · exact .inl (if_neg hop)

theorem keepsNumber_of_not_nested (h : g.Dag) (hnode : g.Valid node)
    (hF : numericFunction sample (g.operation node).op = some F) (hnested : ¬Nested g node) :
    KeepsNumber sample other leaf g node (mergeCummutativeNumericApply g node) := by
  refine (keepsNumber_iff h hnode hF).mpr ?_
  have hsame : (g.children node).flatMap (absorb g (g.operation node).op) = g.children node := by
    have hkept : ∀ c ∈ g.children node, absorb g (g.operation node).op c = [c] :=
      fun c hc => if_neg fun hop => hnested ⟨c, hc, hop⟩
    exact (List.flatMap_congr hkept).trans (List.flatMap_singleton' _)
  rw [hsame]

/-- An operation over two columns, and the same operation over that and a third
column. -/
def nestedGraph (op : ColumnOperation) : OpGraph where
  operations := [{ op := .COLUMN }, { op := .COLUMN }, { op := .COLUMN }, { op := op },
    { op := op }]
  graphMapping := [[], [], [], [0, 1], [3, 2]]

theorem nestedGraph_dag (op : ColumnOperation) : (nestedGraph op).Dag := by
  have hfirst : (nestedGraph .ADD).ChildrenFirst := by decide
  exact dag_of_childrenFirst rfl hfirst

section NestedGraph

variable {op : ColumnOperation}

theorem numericValue_nestedGraph_leaf {i : ℤ} (hi : i ∈ [(0 : ℤ), 1, 2]) :
    numericValue sample other (nestedGraph op) leaf i = some (leaf i) := by
  simp only [List.mem_cons, List.not_mem_nil, or_false] at hi
  rcases hi with rfl | rfl | rfl <;> exact eval_eq _ _ (nestedGraph_dag op) _

theorem numericValue_nestedGraph_inner (hF : numericFunction sample op = some F) :
    numericValue sample other (nestedGraph op) leaf 3 = F {some (leaf 0), some (leaf 1)} := by
  have hargs : [(0 : ℤ), 1].map (numericValue sample other (nestedGraph op) leaf) =
      [some (leaf 0), some (leaf 1)] :=
    List.map_congr_left fun i hi => numericValue_nestedGraph_leaf (List.mem_append_left [2] hi)
  have hvalue : numericValue sample other (nestedGraph op) leaf 3 =
      F ([(0 : ℤ), 1].map (numericValue sample other (nestedGraph op) leaf)) :=
    numericValue_of_function (nestedGraph_dag op) hF
  rw [hvalue, hargs]
  rfl

theorem numericValue_nestedGraph_args (hF : numericFunction sample op = some F) :
    [(3 : ℤ), 2].map (numericValue sample other (nestedGraph op) leaf) =
      [F {some (leaf 0), some (leaf 1)}, some (leaf 2)] := by
  rw [List.map_cons, numericValue_nestedGraph_inner hF, List.map_singleton,
    numericValue_nestedGraph_leaf (by simp)]

theorem numericValue_nestedGraph (hF : numericFunction sample op = some F) :
    numericValue sample other (nestedGraph op) leaf 4 =
      F {F {some (leaf 0), some (leaf 1)}, some (leaf 2)} := by
  have hvalue : numericValue sample other (nestedGraph op) leaf 4 =
      F ([(3 : ℤ), 2].map (numericValue sample other (nestedGraph op) leaf)) :=
    numericValue_of_function (nestedGraph_dag op) hF
  rw [hvalue, numericValue_nestedGraph_args hF]
  rfl

theorem keepsNumber_nestedGraph_iff (hF : numericFunction sample op = some F) :
    KeepsNumber sample other leaf (nestedGraph op) 4
        (mergeCummutativeNumericApply (nestedGraph op) 4) ↔
      F {some (leaf 0), some (leaf 1), some (leaf 2)} =
        F {F {some (leaf 0), some (leaf 1)}, some (leaf 2)} := by
  have hcolumn : op ≠ .COLUMN := by
    rintro rfl
    cases hF
  have hinner : absorb (nestedGraph op) op 3 = [0, 1] := if_pos rfl
  have hkept : absorb (nestedGraph op) op 2 = [2] := if_neg hcolumn.symm
  have hleaves : [(0 : ℤ), 1, 2].map (numericValue sample other (nestedGraph op) leaf) =
      [some (leaf 0), some (leaf 1), some (leaf 2)] :=
    List.map_congr_left fun i hi => numericValue_nestedGraph_leaf hi
  have hiff : KeepsNumber sample other leaf (nestedGraph op) 4
        (mergeCummutativeNumericApply (nestedGraph op) 4) ↔
      F (([(3 : ℤ), 2].flatMap (absorb (nestedGraph op) op)).map
          (numericValue sample other (nestedGraph op) leaf)) =
        F ([(3 : ℤ), 2].map (numericValue sample other (nestedGraph op) leaf)) :=
    keepsNumber_iff (nestedGraph_dag op) (by decide : (nestedGraph .ADD).Valid 4) hF
  have hflat : [(3 : ℤ), 2].flatMap (absorb (nestedGraph op) op) = [0, 1, 2] := by
    rw [List.flatMap_cons, hinner, List.flatMap_singleton, hkept]
    rfl
  rw [hflat, hleaves, numericValue_nestedGraph_args hF] at hiff
  exact hiff

end NestedGraph

/-- The rule keeps the value of a node whose operation is a flat function, and of a node
none of whose arguments has its operation. Every other commutative numeric operation has a
node whose value is changed. -/
theorem mergeCummutativeNumericApply_keepsNumber (sample : Bool)
    (other : Operation → List (Option ℝ) → Option ℝ) {op : ColumnOperation}
    (hcommutes : isCummutative op = true) (hnumeric : mergedLogicOp op = none) :
    (∀ (g : OpGraph) (node : ℤ) (leaf : ℤ → ℝ), g.Dag → g.Valid node →
        (g.operation node).op = op → isFlat op = true ∨ ¬Nested g node →
        KeepsNumber sample other leaf g node (mergeCummutativeNumericApply g node)) ∧
      (isFlat op = false →
        (nestedGraph op).Dag ∧ (nestedGraph op).Valid 4 ∧ ∃ leaf : ℤ → ℝ,
          ¬KeepsNumber sample other leaf (nestedGraph op) 4
            (mergeCummutativeNumericApply (nestedGraph op) 4)) := by
  obtain ⟨F, hF⟩ := exists_numericFunction sample hcommutes hnumeric
  constructor
  · rintro g node leaf h hnode rfl (hflat | hnested)
    · exact keepsNumber_of_flat h hnode hF (flat_numericFunction sample hflat hF)
    · exact keepsNumber_of_not_nested h hnode hF hnested
  · intro hop
    refine ⟨nestedGraph_dag op, (by decide : (nestedGraph .ADD).Valid 4),
      fun i => if i = 2 then 1 else 0, fun hkeeps => ?_⟩
    have heq := (keepsNumber_nestedGraph_iff hF).mp hkeeps
    refine numericFunction_zero_zero_one sample hop hF ?_
    simpa using heq.symm

/-- The sum of a sum of two columns and a third one keeps its value, and the median of a
median and a third column may not. -/
theorem mergeCummutativeNumericApply_keepsNumber_sample :
    KeepsNumber false (fun _ _ => none) (fun i => i) (nestedGraph .ADD) 4
        (mergeCummutativeNumericApply (nestedGraph .ADD) 4) ∧
      ∃ leaf : ℤ → ℝ, ¬KeepsNumber false (fun _ _ => none) leaf (nestedGraph .MEDIAN) 4
        (mergeCummutativeNumericApply (nestedGraph .MEDIAN) 4) :=
  ⟨(mergeCummutativeNumericApply_keepsNumber false (fun _ _ => none) rfl rfl).1
      (nestedGraph .ADD) 4 _ (nestedGraph_dag .ADD) (by decide) rfl (.inl rfl),
    ((mergeCummutativeNumericApply_keepsNumber false (fun _ _ => none) rfl rfl).2 rfl).2.2⟩

/-- The average of `1` and the average of two zeros is a half, the average of all
three numbers a third. -/
theorem average_of_average_changed :
    ∃ leaf : ℤ → ℝ, numericValue false (fun _ _ => none) (nestedGraph .AVG) leaf 4 =
        some (1 / 2) ∧
      ¬KeepsNumber false (fun _ _ => none) leaf (nestedGraph .AVG) 4
        (mergeCummutativeNumericApply (nestedGraph .AVG) 4) := by
  have hF : numericFunction false .AVG = some (onNumbers average) := rfl
  refine ⟨fun i => if i = 2 then 1 else 0, ?_, fun hkeeps => ?_⟩
  · rw [numericValue_nestedGraph hF]
    norm_num [onNumbers, average]
  · have heq := (keepsNumber_nestedGraph_iff hF).mp hkeeps
    refine numericFunction_zero_zero_one false rfl hF ?_
    simpa using heq.symm

end Values

end Query

end DistStorage
