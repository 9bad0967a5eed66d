import DistStorage.Query.RuleValue

/-!
# Rules that throw

A rule throws `std::invalid_argument` at a node it is not made for. `pullDfApply`
looks at the node before it copies anything, and so does `reduceNotNopApply`; but
whether a child has a negation is asked of a copy of the child, and the other two
rules ask their first question of a copy of the node. Every copy stays behind, so
a rule that throws leaves the graph as it was exactly if it throws before its
first copy.
-/

namespace DistStorage

namespace Query

open OpGraph

inductive ThrowingRule
  | logic (rule : LogicRule)
  | pullDf
  deriving DecidableEq, Repr

namespace ThrowingRule

def apply : ThrowingRule → OpGraph → ℤ → RuleResult
  | .logic rule => rule.apply
  | .pullDf => pullDfApply

/-- The rule does not throw once it has copied a node. -/
def Clean (g : OpGraph) (node : ℤ) : ThrowingRule → Prop
  | .logic .demorgan =>
      (demorganOp (g.operation node).op).isSome = true ∧
        ∀ c ∈ g.children node, getNegatedOperation (g.operation c).op ≠ .INVALID
  | .logic .mergeCummutativeLogic => (mergedLogicOp (g.operation node).op).isSome = true
  | .logic .reduceNotNop =>
      (g.operation node).op = .NOT → ∀ c, g.children node = [c] →
        getNegatedOperation (g.operation c).op ≠ .INVALID
  | .pullDf => True

end ThrowingRule

/-- If the call threw, the graph is the one before the call. -/
def UnchangedIfThrown (g : OpGraph) (outcome : RuleResult) : Prop :=
  ∀ e, outcome.1 = .error e → outcome.2 = g

section Outcomes

variable {g : OpGraph}

theorem unchangedIfThrown_ok (r : ℤ) (g' : OpGraph) : UnchangedIfThrown g (.ok r, g') :=
  nofun

theorem unchangedIfThrown_self (e : InvalidArgument) : UnchangedIfThrown g (.error e, g) :=
  fun _ _ => rfl

theorem not_unchangedIfThrown_append (e : InvalidArgument) {nodes : List (Operation × List ℤ)}
    (h : nodes ≠ []) : ¬UnchangedIfThrown g (.error e, g.append nodes) := by
  intro hunchanged
  have hsize : (g.append nodes).size = g.size := congrArg size (hunchanged e rfl)
  rw [size_append] at hsize
  exact h (List.length_eq_zero_iff.mp (by omega))

end Outcomes

variable {g : OpGraph} {node : ℤ}

theorem cloneNegated_clean_iff (g : OpGraph) (child : ℤ) :
    UnchangedIfThrown g (cloneNegated g child) ↔
      getNegatedOperation (g.operation child).op ≠ .INVALID := by
  rw [cloneNegated_eq]
  split_ifs with hneg
  · exact iff_of_false (not_unchangedIfThrown_append _ (by simp)) (not_not.mpr hneg)
  · exact iff_of_true (unchangedIfThrown_ok _ _) hneg

theorem demorganApply_clean_iff (hlengths : g.graphMapping.length = g.operations.length)
    (hnode : g.Valid node) (hchildren : ∀ c ∈ g.children node, g.Valid c) :
    UnchangedIfThrown g (demorganApply g node) ↔
      ThrowingRule.Clean g node (.logic .demorgan) := by
  rw [demorganApply, cloneNode_eq, ThrowingRule.Clean]
  simp only [operation_clone]
  cases hop : demorganOp (g.operation node).op with
  | none =>
      exact iff_of_false (not_unchangedIfThrown_append _ (by simp)) (by simp)
  | some op =>
      have hstart : ((g.append [(g.operation node, g.children node)]).setOp g.size
          op).modifyChildren g.size (fun _ => []) =
          g.append (dualNodes g { g.operation node with op := op } []) := by
        rw [setOp_append, modifyChildren_append hlengths]
        rfl
      have hold : ((g.append [(g.operation node, g.children node)]).setOp g.size
          op).children node = g.children node := by
        rw [setOp_append, children_append hlengths hnode]
      simp only [hstart, hold]
      rcases demorganChildren_outcome hlengths { g.operation node with op := op }
          (g.children node) [] hchildren with ⟨hok, hneg⟩ | ⟨e, copied, c, herr, -, hc, hneg⟩
      · rw [hok]
        exact iff_of_true (unchangedIfThrown_ok _ _) ⟨rfl, hneg⟩
      · rw [herr]
        exact iff_of_false (not_unchangedIfThrown_append _ (by simp [dualNodes]))
          fun h => h.2 c hc hneg

theorem mergeCummutativeLogicApply_clean_iff (hnode : g.Valid node) :
    UnchangedIfThrown g (mergeCummutativeLogicApply g node) ↔
      ThrowingRule.Clean g node (.logic .mergeCummutativeLogic) := by
  rw [mergeCummutativeLogicApply, cloneNode_eq, ThrowingRule.Clean]
  simp only [operation_append hnode]
  cases hop : mergedLogicOp (g.operation node).op with
  | none => exact iff_of_false (not_unchangedIfThrown_append _ (by simp)) (by simp)
  | some op => exact iff_of_true (unchangedIfThrown_ok _ _) rfl

theorem reduceNotNopApply_clean_iff (g : OpGraph) (node : ℤ) :
    UnchangedIfThrown g (reduceNotNopApply g node) ↔
      ThrowingRule.Clean g node (.logic .reduceNotNop) := by
  rw [reduceNotNopApply, ThrowingRule.Clean]
  split
  · next hop =>
      rw [reduceNotNopApply.reduceUnary]
      split
      · next child hchildren =>
          rw [if_pos rfl, cloneNegated_clean_iff]
          constructor
          · intro hneg _ c hc
            obtain rfl : child = c := by simpa [hchildren] using hc
            exact hneg
          · exact fun h => h hop child hchildren
      · next children hsingle =>
          exact iff_of_true (unchangedIfThrown_self _) fun _ c hc => absurd hc (hsingle c)
  · next hop =>
      have hclean : (g.operation node).op = .NOT → ∀ c, g.children node = [c] →
          getNegatedOperation (g.operation c).op ≠ .INVALID := fun hnot => by
        rw [hop] at hnot
        cases hnot
      rw [reduceNotNopApply.reduceUnary]
      split
      · exact iff_of_true (unchangedIfThrown_ok _ _) hclean
      · exact iff_of_true (unchangedIfThrown_self _) hclean
  · next hnot _ => exact iff_of_true (unchangedIfThrown_self _) fun hop => absurd hop hnot

theorem pullDfApply_unchangedIfThrown (g : OpGraph) (node : ℤ) :
    UnchangedIfThrown g (pullDfApply g node) := by
  rw [pullDfApply]
  split_ifs
  · exact unchangedIfThrown_self _
  · exact unchangedIfThrown_ok _ _

/-- A rule that throws at a node leaves the graph as it was exactly if it does not
throw after it has copied a node. -/
theorem unchangedIfThrown_iff_clean (rule : ThrowingRule)
    (hlengths : g.graphMapping.length = g.operations.length) (hnode : g.Valid node)
    (hchildren : ∀ c ∈ g.children node, g.Valid c) :
    UnchangedIfThrown g (rule.apply g node) ↔ rule.Clean g node := by
  cases rule with
  | logic rule =>
      cases rule with
      | demorgan => exact demorganApply_clean_iff hlengths hnode hchildren
      | mergeCummutativeLogic => exact mergeCummutativeLogicApply_clean_iff hnode
      | reduceNotNop => exact reduceNotNopApply_clean_iff g node
  | pullDf => exact iff_of_true (pullDfApply_unchangedIfThrown g node) trivial

/-- The rule for `NOT` at the comparison of `sampleGraph`, which is no `NOT`. -/
theorem unchangedIfThrown_iff_clean_sample :
    UnchangedIfThrown sampleGraph
      ((ThrowingRule.logic .reduceNotNop).apply sampleGraph 2) := by
  refine (unchangedIfThrown_iff_clean (.logic .reduceNotNop) rfl (by decide) (by decide)).mpr ?_
  exact fun hop => absurd hop (by decide)

/-- The De Morgan rule at the conjunction of a test and a column: the copies of the
conjunction, of the test and of the column stay behind. -/
def columnConjunction : OpGraph where
  operations := [{ op := .COLUMN }, { op := .IS_NULL }, { op := .AND }]
  graphMapping := [[], [0], [1, 0]]

theorem columnConjunction_changed :
    ∃ e g', (ThrowingRule.logic .demorgan).apply columnConjunction 2 = (.error e, g') ∧
      g'.size = 6 ∧
      ¬UnchangedIfThrown columnConjunction
        ((ThrowingRule.logic .demorgan).apply columnConjunction 2) := by
  refine ⟨_, _, rfl, rfl, fun h => ?_⟩
  have hsize := congrArg size (h _ rfl)
  cases hsize

end Query

end DistStorage
