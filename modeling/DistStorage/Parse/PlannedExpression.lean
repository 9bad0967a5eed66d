import DistStorage.Parse.Arities
import DistStorage.Parse.CompiledExpression
import DistStorage.Query.Pruned

/-!
# An expression from its text to its plan

The planner compiles an expression, rewrites its node by the rules of the logic operations
and leaves out the nodes that the new root does not read. The three stages fit together:
the graph of the visitor is one that the rules work on, and what is left in the end reads
as SQL reads the expression.
-/

namespace DistStorage

namespace Parse

open Cpp Query QueryGraph

theorem rewriteStep_appends {V : Type*} [LinearOrder V] (I : Interpretation V)
    {s t : OpGraph × ℤ} (h : s.1.WellFormed) {application : LogicRule × ℤ}
    (hstep : rewriteStep s application = some t) : ∃ nodes, t.1 = s.1.append nodes := by
  obtain ⟨rule, node⟩ := application
  by_cases hnode : s.1.Valid node
  swap
  · rw [rewriteStep, if_neg hnode] at hstep
    cases hstep
  rw [rewriteStep, if_pos hnode] at hstep
  obtain ⟨nodes, hgraph, -, -⟩ := rule.apply_keeps I (fun _ => none) h hnode
  refine ⟨nodes, ?_⟩
  cases happly : rule.apply s.1 node with
  | mk outcome g =>
      rw [happly] at hstep hgraph
      cases outcome with
      | error e =>
          obtain rfl := Option.some.inj hstep
          exact hgraph
      | ok result =>
          obtain rfl := Option.some.inj hstep
          exact hgraph

theorem value_congr_leaf {V : Type*} [LinearOrder V] (I : Interpretation V) {g : OpGraph}
    (h : g.Dag) {leaf leaf' : ℤ → Option V} (hleaf : ∀ i, g.Valid i → leaf' i = leaf i) {i : ℤ}
    (hi : g.Valid i) : value I g leaf' i = value I g leaf i :=
  Digraph.evalFuel_congr (fun a _ c hc => h.valid_children a c hc) (fun _ _ => rfl)
    (fun a ha => by rw [hleaf a ha]) hi

/-- The node of a compiled expression in a graph that the rules work on. -/
structure Planned (env : Environment) (s t : VisitorState) (e : SqlExpr) (i : ℤ) : Prop where
  wellFormed : t.outGraph.toOpGraph.WellFormed
  valid : t.outGraph.Valid i
  value_eq : ∀ (V : Type) [LinearOrder V] (J : SqlValues V) (column : ℤ → Option V),
    J.evaluate t.outGraph column i = e.value env J (J.evaluate s.outGraph column)

theorem visitExpression_planned (env : Environment) {s t : VisitorState} (hs : s.Sound [])
    (hgap : ¬s.outGraph.HasGap) (hfits : Fits s.outGraph.toOpGraph) (x : Expression)
    {e : SqlExpr} (he : x.toSql s.exprVarContext = some e) (htests : e.testsNull = false)
    {i : ℤ} (hvisit : visitExpression env x s = .returned (some i) t) : Planned env s t e i := by
  have hbuilding := ((visitExpression_visits env x [] False).returned
    ⟨hs, iff_false_intro hgap⟩ hvisit).2 i rfl
  have hfits' := ((visitExpression_lays env x).returned hfits hvisit).1
  have hexpanding : Expanding s.outGraph s.exprVarContext s :=
    ⟨hs.coherent, hs.vars, hs.coherent, .refl _, rfl⟩
  have hcompiled := visitExpression_compiles env x he s hexpanding fun _ _ _ => trivial
  rw [hvisit] at hcompiled
  obtain ⟨ht, -, hgives⟩ := hcompiled
  obtain ⟨j, hj, hnode⟩ := hgives t.outGraph (.refl _) ht.coherent
  obtain rfl := Option.some.inj hj
  exact ⟨(hfits'.wellFormed_iff ht.coherent).mpr hbuilding.2.mp, hnode.valid,
    hnode.value_eq htests⟩

/-- An expression without `IS NULL` that is compiled, rewritten by any run of the rules and
pruned to what its root reads has the three-valued reading that SQL gives it, for all values
of the columns. -/
theorem planned_value (env : Environment) {s t : VisitorState} (hs : s.Sound [])
    (hgap : ¬s.outGraph.HasGap) (hfits : Fits s.outGraph.toOpGraph) (x : Expression)
    {e : SqlExpr} (he : x.toSql s.exprVarContext = some e) (htests : e.testsNull = false)
    {i : ℤ} (hvisit : visitExpression env x s = .returned (some i) t)
    {applications : List (LogicRule × ℤ)} {g : OpGraph} {root : ℤ}
    (hrewritten : Transition.run rewriteStep (t.outGraph.toOpGraph, i) applications =
      some (g, root))
    {start : ℤ} (hstart : 1 ≤ start) (hmax : start ≤ intMax) {visited : List ℤ}
    (hvisited : fillVisited g.graphMapping (List.replicate g.size 0) root start = some visited)
    (sorter : Sorter ℤ) :
    ∃ (p : OpGraph) (k : ℤ),
      mapMappingGraph g.graphMapping (visitedLeaveMap sorter visited) = some p.graphMapping ∧
      mapOperations g.operations (visitedLeaveMap sorter visited) = some p.operations ∧
      (visitedLeaveMap sorter visited).find root = some k ∧ p.WellFormed ∧
      ∀ (V : Type) [LinearOrder V] (J : SqlValues V) (column column' : ℤ → Option V),
        (∀ i j, (visitedLeaveMap sorter visited).find i = some j → column' j = column i) →
        J.interpretation.truthOf (J.evaluate { t.outGraph with toOpGraph := p } column' k) =
          J.interpretation.truthOf (e.value env J (J.evaluate s.outGraph column)) := by
  obtain ⟨hwf, hvalid, hvalue⟩ := visitExpression_planned env hs hgap hfits x he htests hvisit
  -- every graph of the run has the nodes of the compiled one
  have hrun : ∀ {V : Type} [LinearOrder V] (I : Interpretation V) (leaf : ℤ → Option V),
      RootReads I leaf (value I t.outGraph.toOpGraph leaf i) (g, root) ∧
        ∃ nodes, g = t.outGraph.toOpGraph.append nodes := by
    intro V _ I leaf
    refine Transition.run_invariant (I := fun u =>
      RootReads I leaf (value I t.outGraph.toOpGraph leaf i) u ∧
        ∃ nodes, u.1 = t.outGraph.toOpGraph.append nodes) ?_
      ⟨⟨hwf, hvalid, rfl⟩, [], (OpGraph.append_nil _).symm⟩ hrewritten
    rintro u application v ⟨hreads, nodes, hu⟩ hstep
    obtain ⟨more, hv⟩ := rewriteStep_appends I hreads.wellFormed hstep
    refine ⟨hreads.rewriteStep hstep, nodes ++ more, ?_⟩
    rw [hv, hu, OpGraph.append_append]
  obtain ⟨⟨hwf', hroot, -⟩, nodes, hgraph⟩ := hrun integerInterpretation fun _ => none
  obtain ⟨p, hmapping, hoperations, hpruned, hnumber⟩ :=
    exists_pruned hwf'.dag hroot hstart hmax hvisited sorter
  obtain ⟨k, hk⟩ := (hnumber root).mpr .refl
  have hkept : ∀ a b, (visitedLeaveMap sorter visited).find a = some b → g.Valid a := by
    intro a b ha
    rcases ((hnumber a).mp ⟨b, ha⟩).cases_head with rfl | ⟨q, hq, -⟩
    · exact hroot
    · exact hwf'.valid_children q a hq
  refine ⟨p, k, hmapping, hoperations, hk, hpruned.wellFormed hwf' hkept, ?_⟩
  intro V _ J column column' hcolumn
  have hleaf : ∀ a b, (visitedLeaveMap sorter visited).find a = some b →
      J.ownValue { t.outGraph with toOpGraph := p } (column' b) (p.operation b) =
        J.ownValue t.outGraph (column a) (g.operation a) := by
    intro a b ha
    rw [hpruned.operation a b ha, hcolumn a b ha]
    rfl
  have hold : ∀ a, t.outGraph.Valid a → J.ownValue t.outGraph (column a) (g.operation a) =
      J.ownValue t.outGraph (column a) (t.outGraph.operation a) := by
    intro a ha
    rw [hgraph, OpGraph.operation_append ha]
  calc J.interpretation.truthOf (J.evaluate { t.outGraph with toOpGraph := p } column' k)
      = J.interpretation.truthOf (value J.interpretation g
          (fun a => J.ownValue t.outGraph (column a) (g.operation a)) root) := by
        rw [SqlValues.evaluate, hpruned.value _ hwf'.dag hleaf hk]
    _ = J.interpretation.truthOf (value J.interpretation t.outGraph.toOpGraph
          (fun a => J.ownValue t.outGraph (column a) (g.operation a)) i) :=
        (hrun J.interpretation _).1.reads
    _ = J.interpretation.truthOf (J.evaluate t.outGraph column i) := by
        rw [value_congr_leaf _ hwf.dag hold hvalid]
        rfl
    _ = J.interpretation.truthOf (e.value env J (J.evaluate s.outGraph column)) := by
        rw [hvalue V J column]

def negatedChain : Expression :=
  .mk (.mk (.mk (.mk (.not .keyword (.pass (.mathFallthrough (.primaryBase
    (.parenthesizedExpr chainExpression))))) []) []) [])

theorem negatedChain_toSql : negatedChain.toSql columnState.exprVarContext =
    some (.not (.compare (.int 1) [.less, .lessEqual] [.column 0, .int 3])) := by
  simp [negatedChain, Expression.toSql, OrExpr.toSql, xorsToSql, XorExpr.toSql, andsToSql,
    AndExpr.toSql, notsToSql, NotExpr.toSql, CmpExpr.toSql, MathExpr.toSql, PrimaryExpr.toSql,
    SqlExpr.connectiveOf, chainExpression_toSql]

/-- The plan `1 >= a OR a > 3` of `NOT (1 < a <= 3)`. -/
theorem planned_value_sample :
    ∃ t g root visited p k,
      visitExpression sampleEnvironment negatedChain columnState = .returned (some 6) t ∧
      Transition.run rewriteStep (t.outGraph.toOpGraph, 6) [(.reduceNotNop, 6), (.demorgan, 7)] =
        some (g, root) ∧
      fillVisited g.graphMapping (List.replicate g.size 0) root 1 = some visited ∧
      mapOperations g.operations (visitedLeaveMap (.stable ℤ) visited) = some p.operations ∧
      truthValues.interpretation.truthOf
          (truthValues.evaluate { t.outGraph with toOpGraph := p } (fun _ => none) k) =
        truthValues.interpretation.truthOf
          ((SqlExpr.not (.compare (.int 1) [.less, .lessEqual] [.column 0, .int 3])).value
            sampleEnvironment truthValues
            (truthValues.evaluate columnState.outGraph fun _ => none)) := by
  have hrun : (visitExpression sampleEnvironment negatedChain columnState).returns fun a t =>
      a = some 6 && (Transition.run rewriteStep (t.outGraph.toOpGraph, 6)
        [(.reduceNotNop, 6), (.demorgan, 7)]).any fun u =>
          (fillVisited u.1.graphMapping (List.replicate u.1.size 0) u.2 1).isSome := by
    decide +kernel
  obtain ⟨a, t, hvisit, hplan⟩ := Outcome.exists_of_returns hrun
  rw [Bool.and_eq_true, Option.any_eq_true] at hplan
  obtain ⟨ha, ⟨g, root⟩, hrewritten, hvisited⟩ := hplan
  obtain rfl : a = some 6 := of_decide_eq_true ha
  obtain ⟨visited, hvisited⟩ := Option.isSome_iff_exists.mp hvisited
  have hgap : ¬columnState.outGraph.HasGap := by
    rintro ⟨args, hargs, hnone⟩
    obtain rfl : args = [] := List.mem_singleton.mp hargs
    cases hnone
  have hfits : Fits columnState.outGraph.toOpGraph := .cons rfl .nil
  obtain ⟨p, k, -, hoperations, -, -, hvalue⟩ := planned_value sampleEnvironment
    columnState_sound hgap hfits negatedChain negatedChain_toSql rfl hvisit hrewritten
    (le_refl 1) (by decide) hvisited (.stable ℤ)
  exact ⟨t, g, root, visited, p, k, hvisit, hrewritten, hvisited, hoperations,
    hvalue Bool truthValues _ _ fun _ _ _ => rfl⟩

end Parse

end DistStorage
