import DistStorage.Query.RuleValue

/-!
# Pulling a node into the data frame of its children

The rule that copies a node into the data frame of its children has a guard of its
own. Guard and rule search the children in two loops: the guard goes on to the last
child and gives up at a second data frame, the rule stops at the first one it finds.
Both pass over a `df` of `0`, the mark of a constant; a child without a data frame
has the `df` `-1` and counts for both.
-/

namespace DistStorage

namespace Query

open OpGraph

/-- The loop of the guard, with the data frame found so far. `none` is a return from
within the loop, at a child of another data frame. -/
def commonDf (g : OpGraph) : ℤ → List ℤ → Option ℤ
  | childrenCommonDf, [] => some childrenCommonDf
  | childrenCommonDf, child :: rest =>
      let childDf := (g.operation child).df
      if childDf ≠ 0 ∧ childDf ≠ childrenCommonDf then
        if childrenCommonDf ≠ 0 then none else commonDf g childDf rest
      else commonDf g childrenCommonDf rest

/-- The guard of `pullDfApply`. -/
def pullDfApplies (g : OpGraph) (node : ℤ) : Bool :=
  let nodeDf := (g.operation node).df
  if nodeDf = 0 then false
  else
    match commonDf g 0 (g.children node) with
    | none => false
    | some childrenCommonDf => childrenCommonDf ≠ 0 ∧ childrenCommonDf ≠ nodeDf

/-- The children in a data frame are all in the data frame `df`. -/
def SharedDf (g : OpGraph) (children : List ℤ) (df : ℤ) : Prop :=
  ∀ c ∈ children, (g.operation c).df ≠ 0 → (g.operation c).df = df

section Loops

variable {g : OpGraph}

theorem sharedDf_cons_iff {child df : ℤ} {rest : List ℤ} :
    SharedDf g (child :: rest) df ↔
      ((g.operation child).df ≠ 0 → (g.operation child).df = df) ∧ SharedDf g rest df :=
  List.forall_mem_cons

theorem commonDf_of_found {common df : ℤ} (hcommon : common ≠ 0) {children : List ℤ}
    (h : commonDf g common children = some df) : df = common ∧ SharedDf g children common := by
  induction children with
  | nil => exact ⟨(Option.some.inj h).symm, by simp [SharedDf]⟩
  | cons child rest ih =>
      rw [commonDf] at h
      split_ifs at h with hother
      obtain ⟨hdf, hrest⟩ := ih h
      refine ⟨hdf, sharedDf_cons_iff.mpr ⟨fun hchild => ?_, hrest⟩⟩
      exact not_not.mp fun hne => hother ⟨hchild, hne⟩

theorem childrenCommonDf_of_commonDf {df : ℤ} {children : List ℤ}
    (h : commonDf g 0 children = some df) :
    childrenCommonDf g children = df ∧ SharedDf g children df := by
  induction children with
  | nil => exact ⟨Option.some.inj h, by simp [SharedDf]⟩
  | cons child rest ih =>
      rw [commonDf] at h
      by_cases hchild : (g.operation child).df = 0
      · rw [if_neg fun hother => hother.1 hchild] at h
        obtain ⟨hfirst, hrest⟩ := ih h
        rw [childrenCommonDf, if_neg (not_not.mpr hchild)]
        exact ⟨hfirst, sharedDf_cons_iff.mpr ⟨fun hne => absurd hchild hne, hrest⟩⟩
      · rw [if_pos ⟨hchild, hchild⟩, if_neg (not_not.mpr rfl)] at h
        obtain ⟨rfl, hrest⟩ := commonDf_of_found hchild h
        rw [childrenCommonDf, if_pos hchild]
        exact ⟨rfl, sharedDf_cons_iff.mpr ⟨fun _ => rfl, hrest⟩⟩

theorem exists_of_childrenCommonDf_ne_zero {children : List ℤ}
    (h : childrenCommonDf g children ≠ 0) :
    ∃ c ∈ children, (g.operation c).df = childrenCommonDf g children := by
  induction children with
  | nil => exact absurd rfl h
  | cons child rest ih =>
      rw [childrenCommonDf] at h ⊢
      split_ifs at h ⊢ with hchild
      · exact ⟨child, List.mem_cons_self, rfl⟩
      · obtain ⟨c, hc, hdf⟩ := ih h
        exact ⟨c, List.mem_cons_of_mem _ hc, hdf⟩

theorem loops_congr {g' : OpGraph} {children : List ℤ}
    (h : ∀ c ∈ children, (g'.operation c).df = (g.operation c).df) :
    childrenCommonDf g' children = childrenCommonDf g children ∧
      ∀ common, commonDf g' common children = commonDf g common children := by
  induction children with
  | nil => exact ⟨rfl, fun _ => rfl⟩
  | cons child rest ih =>
      obtain ⟨hchild, hrest⟩ := List.forall_mem_cons.mp h
      obtain ⟨hfirst, hcommon⟩ := ih hrest
      constructor
      · rw [childrenCommonDf, childrenCommonDf, hchild, hfirst]
      · intro common
        simp only [commonDf, hchild, hcommon]

end Loops

theorem pullDfApplies_cases {g : OpGraph} {node : ℤ} (h : pullDfApplies g node = true) :
    (g.operation node).df ≠ 0 ∧
      commonDf g 0 (g.children node) = some (childrenCommonDf g (g.children node)) ∧
      childrenCommonDf g (g.children node) ≠ 0 ∧
      SharedDf g (g.children node) (childrenCommonDf g (g.children node)) := by
  rw [pullDfApplies] at h
  split_ifs at h with hnode
  split at h
  · cases h
  · next df hdf =>
      obtain ⟨hfirst, hshared⟩ := childrenCommonDf_of_commonDf hdf
      rw [hfirst]
      exact ⟨hnode, hdf, (of_decide_eq_true h).1, hshared⟩

/-- The guard does not hold at a node that is in the data frame of its children. -/
theorem pullDfApplies_of_df_eq {g : OpGraph} {node df : ℤ}
    (hcommon : commonDf g 0 (g.children node) = some df) (hdf : (g.operation node).df = df) :
    pullDfApplies g node = false := by
  rw [pullDfApplies, hcommon, hdf]
  simp

/-- The node the rule appends. -/
def pulledNode (g : OpGraph) (node : ℤ) : Operation × List ℤ :=
  ({ g.operation node with df := childrenCommonDf g (g.children node) }, g.children node)

theorem pullDfApply_eq {g : OpGraph} {node : ℤ}
    (hlengths : g.graphMapping.length = g.operations.length)
    (hchildren : ∀ c ∈ g.children node, g.Valid c) (hnode : (g.operation node).df ≠ 0) :
    pullDfApply g node = (.ok (g.size : ℤ), g.append [pulledNode g node]) := by
  have hfirst : childrenCommonDf (g.append [(g.operation node, g.children node)])
      (g.children node) = childrenCommonDf g (g.children node) :=
    (loops_congr fun c hc => by rw [operation_append (hchildren c hc)]).1
  rw [pullDfApply, if_neg hnode, cloneNode_eq]
  simp only [children_clone hlengths, hfirst]
  simp [modifyOperation, append, size, Cpp.modify_append_length, pulledNode]

/-- Where the guard holds the rule does not throw: it appends a copy of the node in the
one data frame of the children, the guard does not hold at the copy, and the nodes that
were there are as they were. -/
theorem pullDfApply_of_applies {g : OpGraph} {node : ℤ}
    (hlengths : g.graphMapping.length = g.operations.length)
    (hchildren : ∀ c ∈ g.children node, g.Valid c) (happlies : pullDfApplies g node = true) :
    ∃ df newNode g', pullDfApply g node = (.ok newNode, g') ∧
      (df ≠ 0 ∧ (∃ c ∈ g.children node, (g.operation c).df = df) ∧
        SharedDf g (g.children node) df) ∧
      g'.operation newNode = { g.operation node with df := df } ∧
      g'.children newNode = g.children node ∧
      pullDfApplies g' newNode = false ∧
      ¬g.Valid newNode ∧ g'.size = g.size + 1 ∧ g'.graphMapping.length = g'.operations.length ∧
      ∀ i, g.Valid i → g'.operation i = g.operation i ∧ g'.children i = g.children i := by
  obtain ⟨hdf, hcommon, hne, hshared⟩ := pullDfApplies_cases happlies
  have hnew : (g.append [pulledNode g node]).operation g.size = (pulledNode g node).1 :=
    operation_clone g _ _ []
  have hnewChildren : (g.append [pulledNode g node]).children g.size = g.children node :=
    children_clone hlengths _ _ []
  refine ⟨childrenCommonDf g (g.children node), g.size, g.append [pulledNode g node],
    pullDfApply_eq hlengths hchildren hdf,
    ⟨hne, exists_of_childrenCommonDf_ne_zero hne, hshared⟩, hnew, hnewChildren, ?_,
    fun hvalid => lt_irrefl _ hvalid.2, by simp, lengths_append hlengths _, fun i hi =>
      ⟨operation_append hi _, children_append hlengths hi _⟩⟩
  have hloop : commonDf (g.append [pulledNode g node]) 0
      ((g.append [pulledNode g node]).children g.size) =
        some (childrenCommonDf g (g.children node)) := by
    rw [hnewChildren, ← hcommon]
    exact (loops_congr fun c hc => by rw [operation_append (hchildren c hc)]).2 0
  exact pullDfApplies_of_df_eq hloop (by rw [hnew, pulledNode])

/-- A sum of a constant and two columns of the data frame `1`. -/
def sumOverFrame : OpGraph where
  operations := [{ op := .TABLE, df := 0 }, { op := .DF, df := 1 }, { op := .CONST, df := 0 },
    { op := .COLUMN, df := 1 }, { op := .COLUMN, df := 1 }, { op := .ADD }]
  graphMapping := [[], [0], [], [1], [1], [2, 3, 4]]

theorem pullDfApply_of_applies_sumOverFrame :
    ∃ df newNode g', pullDfApply sumOverFrame 5 = (.ok newNode, g') ∧
      (df ≠ 0 ∧ (∃ c ∈ sumOverFrame.children 5, (sumOverFrame.operation c).df = df) ∧
        SharedDf sumOverFrame (sumOverFrame.children 5) df) ∧
      g'.operation newNode = { sumOverFrame.operation 5 with df := df } ∧
      g'.children newNode = sumOverFrame.children 5 ∧
      pullDfApplies g' newNode = false ∧
      ¬sumOverFrame.Valid newNode ∧ g'.size = sumOverFrame.size + 1 ∧
      g'.graphMapping.length = g'.operations.length ∧
      ∀ i, sumOverFrame.Valid i → g'.operation i = sumOverFrame.operation i ∧
        g'.children i = sumOverFrame.children i :=
  pullDfApply_of_applies rfl (by decide) (by decide)

end Query

end DistStorage
