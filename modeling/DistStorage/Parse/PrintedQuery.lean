import DistStorage.Parse.ConstantMark
import DistStorage.Query.PrintGraph

/-!
# Printing a compiled query

A query is printed after `fillDFIds`. Then a table operation is its own data frame, a
literal has the data frame zero, and all other nodes have none, so every literal is
printed in the group of the first node. That is a group of its own only when the first
node is a table operation or a literal itself.
-/

namespace DistStorage

namespace Parse

open Cpp Query QueryGraph

section Filled

variable {g g' : OpGraph}

theorem fillDFIds_df (hg : AllMarked g) (hfill : g.fillDFIds = some g') {i : ℤ}
    (hi : g'.Valid i) :
    (g'.operation i).df = if isTableOperation (g'.operation i).op then i
      else if isLiteral (g'.operation i).op then 0 else nodeNone := by
  have hi' := (OpGraph.fillDFIds_claims hfill i).1.mp hi
  have hmarked := hg.operation hi'
  rw [(OpGraph.fillDFIds_claims hfill i).2 hi']
  obtain ⟨hop, hdf⟩ := claim_df hmarked i
  rw [hdf, hop, hmarked]

theorem validDfs_fillDFIds (hg : AllMarked g) (hfill : g.fillDFIds = some g') : ValidDfs g' := by
  intro i hi
  rw [fillDFIds_df hg hfill hi]
  split_ifs
  · exact .inr hi
  · exact .inr ⟨le_refl 0, lt_of_le_of_lt hi.1 hi.2⟩
  · exact .inl rfl

/-- The first node leads the literals, or there are none. -/
theorem dataFramesLead_iff (hg : AllMarked g) (hfill : g.fillDFIds = some g') :
    DataFramesLead g' ↔
      ∀ i, g'.Valid i → isLiteral (g'.operation i).op = true →
        isTableOperation (g'.operation 0).op = true ∨ isLiteral (g'.operation 0).op = true := by
  have hzero : ∀ {i}, g'.Valid i → g'.Valid 0 := fun hi => ⟨le_refl 0, lt_of_le_of_lt hi.1 hi.2⟩
  constructor
  · intro hlead i hi hliteral
    have htable : ¬isTableOperation (g'.operation i).op = true := by
      intro htable
      rw [isLiteral_of_isTableOperation htable] at hliteral
      cases hliteral
    have hmark : (g'.operation i).df = 0 := by
      rw [fillDFIds_df hg hfill hi, if_neg htable, if_pos hliteral]
    have hfirst := (hlead i hi (by rw [hmark]; decide)).1
    rw [hmark, fillDFIds_df hg hfill (hzero hi)] at hfirst
    split_ifs at hfirst with h h'
    · exact .inl h
    · exact .inr h'
    · exact absurd hfirst (by decide)
  · intro hfirst i hi hnone
    rw [fillDFIds_df hg hfill hi] at hnone ⊢
    split_ifs at hnone ⊢ with htable hliteral
    · rw [fillDFIds_df hg hfill hi, if_pos htable]
      exact ⟨rfl, le_refl i⟩
    · rw [fillDFIds_df hg hfill (hzero hi)]
      refine ⟨?_, hi.1⟩
      rcases hfirst i hi hliteral with h | h
      · rw [if_pos h]
      · rw [if_pos h, ite_self]
    · exact absurd rfl hnone

end Filled

def printedGraph (s : VisitorState) (g' : OpGraph) : QueryGraph :=
  { s.outGraph with toOpGraph := g' }

/-- Every node of a graph is printed once and as what it is exactly when the data frames
lead their groups. In the graph of a query the first node is to lead the literals. -/
theorem printsOnce_iff (g : QueryGraph) (env : Environment) (ctx : QueryContext) (a : Any)
    (s : VisitorState) (g' : OpGraph) :
    (ValidDfs g.toOpGraph →
        (PrintsOnce g ↔ g.size < 2 ^ 31 ∧ DataFramesLead g.toOpGraph)) ∧
      (visitQuery env ctx {} = .returned a s → s.outGraph.fillDFIds = some g' →
        ValidDfs g' ∧
          (PrintsOnce (printedGraph s g') ↔ g'.size < 2 ^ 31 ∧
            ∀ i, g'.Valid i → isLiteral (g'.operation i).op = true →
              isTableOperation (g'.operation 0).op = true ∨
                isLiteral (g'.operation 0).op = true)) := by
  refine ⟨fun hdfs => printsOnce_iff_lead hdfs, fun h hfill => ?_⟩
  have hmarked := visitQuery_allMarked h
  have hdfs := validDfs_fillDFIds hmarked hfill
  refine ⟨hdfs, ?_⟩
  rw [← dataFramesLead_iff hmarked hfill]
  exact printsOnce_iff_lead (g := printedGraph s g') hdfs

/-- `SELECT 1`. -/
theorem printsOnce_iff_sample : ∃ a s g',
    visitQuery sampleEnvironment ⟨[], .selectStmt (.mk selectOne [])⟩ {} = .returned a s ∧
      s.outGraph.fillDFIds = some g' ∧ PrintsOnce (printedGraph s g') := by
  have hrun : (visitQuery sampleEnvironment ⟨[], .selectStmt (.mk selectOne [])⟩ {}).returns
      fun _ s => s.outGraph.fillDFIds.any fun g' =>
        decide (g'.size < 2 ^ 31 ∧ isLiteral (g'.operation 0).op = true) := by
    decide +kernel
  obtain ⟨a, s, h, hs⟩ := Outcome.exists_of_returns hrun
  obtain ⟨g', hfill, hg'⟩ := (Option.any_eq_true _ _).mp hs
  obtain ⟨hsize, hfirst⟩ := of_decide_eq_true hg'
  exact ⟨a, s, g', h, hfill, ((printsOnce_iff (printedGraph s g') _ _ a s g').2 h hfill).2.mpr
    ⟨hsize, fun _ _ _ => .inr hfirst⟩⟩

def constantQuery : QueryContext where
  cte := []
  statement := .selectStmt (.mk (.mk (.expression (.ofInt "1") none) []
    (some (.mk (.table (bytes "t") none) [])) none [] [] none none) [])

/-- The constant is printed in the group of the column of `t`, which is no data frame and
is printed among the nodes that stand alone, too. -/
theorem constantQuery_not_printsOnce : ∃ a s g',
    visitQuery sampleEnvironment constantQuery {} = .returned a s ∧
      s.outGraph.fillDFIds = some g' ∧ ValidDfs g' ∧ ¬PrintsOnce (printedGraph s g') := by
  have hrun : (visitQuery sampleEnvironment constantQuery {}).returns fun _ s =>
      s.outGraph.fillDFIds.any fun g' => decide (g'.Valid 2 ∧ (g'.operation 2).df = 0 ∧
        (g'.operation 0).df = nodeNone) := by
    decide +kernel
  obtain ⟨a, s, h, hs⟩ := Outcome.exists_of_returns hrun
  obtain ⟨g', hfill, hg'⟩ := (Option.any_eq_true _ _).mp hs
  obtain ⟨hvalid, hconstant, hcolumn⟩ := of_decide_eq_true hg'
  have hdfs := validDfs_fillDFIds (visitQuery_allMarked h) hfill
  refine ⟨a, s, g', h, hfill, hdfs, fun hprints => ?_⟩
  have hlead : DataFramesLead g' :=
    ((printsOnce_iff_lead (g := printedGraph s g') hdfs).mp hprints).2
  have hdf : (g'.operation 2).df ≠ nodeNone := by
    rw [hconstant]
    decide
  have hfirst := (hlead 2 hvalid hdf).1
  rw [hconstant, hcolumn] at hfirst
  exact absurd hfirst (by decide)

end Parse

end DistStorage
