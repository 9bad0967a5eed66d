import DistStorage.Parse.FirstNode
import DistStorage.Query.DataFrames

/-!
# The mark of a constant

A literal is given the data frame zero, so that the rules can tell it from the
nodes of a data frame, and every other node the mark of an absent one until
`fillDFIds`. That pass gives a table operation its own identifier, which is zero
for the first node. So the mark is that of literals alone exactly when the first
node of the query is not a table operation.
-/

namespace DistStorage

namespace Parse

open Cpp Cpp.Action Query QueryGraph

/-- The data frame zero is that of the literals. -/
def ZeroMarksLiterals (g : OpGraph) : Prop :=
  ∀ i, g.Valid i → ((g.operation i).df = 0 ↔ isLiteral (g.operation i).op = true)

/-- The data frames of all nodes are those of a graph under construction. -/
def AllMarked (g : OpGraph) : Prop := ∀ o ∈ g.operations, o.Marked

theorem AllMarked.append {g : OpGraph} (h : AllMarked g) {new : List (Operation × List ℤ)}
    (hnew : ∀ node ∈ new, node.1.Marked) : AllMarked (g.append new) := by
  intro o ho
  rcases List.mem_append.mp ho with ho | ho
  · exact h o ho
  · obtain ⟨node, hnode, rfl⟩ := List.mem_map.mp ho
    exact hnew node hnode

theorem AllMarked.operation {g : OpGraph} (h : AllMarked g) {i : ℤ} (hi : g.Valid i) :
    (g.operation i).Marked := by
  obtain ⟨o, ho⟩ := Option.isSome_iff_exists.mp ((Cpp.index_isSome_iff g.operations i).mpr hi)
  rw [OpGraph.operation, ho]
  exact h o (Cpp.mem_of_index ho)

theorem marked_of_mem_tableNodes {size nameId : ℕ} {schema : Proto.TableSchema}
    {node : Operation × List ℤ} (h : node ∈ tableNodes size nameId schema) : node.1.Marked := by
  have hcolumns : ∀ (columns : List Proto.ColumnSchema) (nameId : ℕ),
      ∀ node ∈ columnNodes nameId columns, node.1.Marked := by
    intro columns
    induction columns with
    | nil => simp [columnNodes]
    | cons col rest ih =>
        intro nameId
        exact List.forall_mem_cons.mpr ⟨rfl, ih (nameId + 1)⟩
  rcases List.mem_append.mp h with h | h
  · exact hcolumns schema.columns nameId node h
  · obtain rfl := List.mem_singleton.mp h
    rfl

theorem setNodeName_allMarked {g g' : QueryGraph} {nodeId : ℤ} {name : Bytes}
    (h : g.setNodeName nodeId name = some g') (hg : AllMarked g.toOpGraph) :
    AllMarked g'.toOpGraph := by
  obtain ⟨o, -, rfl⟩ := Option.map_eq_some_iff.mp h
  intro o' ho'
  rcases mem_modify ho' with ho' | ⟨o'', ho'', rfl⟩
  · exact hg o' ho'
  · exact hg o'' ho''

/-- Every step of a visit keeps the marks. -/
theorem allMarked_traced (env : Environment) : Traced env
    (fun s _ t => AllMarked s.outGraph.toOpGraph → AllMarked t.outGraph.toOpGraph) Unbound where
  refl _ := id
  trans h h' hs := h' (h hs)
  grow := by
    rintro s es t ⟨new, g, hnew, hplain, rfl⟩ hs
    change AllMarked g.toOpGraph
    rw [hnew.graph_eq]
    exact hs.append fun node hnode => (hplain node hnode).1
  construct s node new g hnew _ hmarked hover hs := by
    change AllMarked g.toOpGraph
    rw [hnew.graph_eq]
    exact hs.append (List.forall_mem_cons.mpr ⟨hmarked, fun other hother => (hover other hother).1⟩)
  unite := by
    rintro s es t ⟨new, g, hnew, hunion, rfl⟩ hs
    change AllMarked g.toOpGraph
    rw [hnew.graph_eq]
    exact hs.append fun node hnode => (hunion node hnode).1
  lookup s name t h hs := by
    rcases findOrInsertTable_leaves h with rfl | ⟨schema, -, -, rfl⟩
    · exact hs
    · exact hs.append fun node hnode => marked_of_mem_tableNodes hnode
  enter s es u relation tableNodeId t hu _ h hs := by
    obtain ⟨tableAlias, ctx, -, -, rfl⟩ := enterTable_leaves h
    exact hu hs
  name s es u origin nodeId name t hu _ h hs := by
    obtain ⟨g, hg, rfl⟩ := setName_leaves h
    exact setNodeName_allMarked hg (hu hs)
  select s es t h := h

section Queries

variable {env : Environment} {s t : VisitorState}

theorem visitCtes_allMarked {l : List Cte} (hs : AllMarked s.outGraph.toOpGraph)
    (h : visitCtes env l s = .returned () t) : AllMarked t.outGraph.toOpGraph := by
  induction l generalizing s with
  | nil =>
      obtain ⟨-, rfl⟩ := pure_eq_returned.mp h
      exact hs
  | cons cte rest ih =>
      rw [visitCtes] at h
      obtain ⟨i, u, hvisit, h⟩ := bind_eq_returned.mp h
      obtain ⟨⟨⟩, v, hinsert, h⟩ := bind_eq_returned.mp h
      cases hinsert
      have hu := (visitQueryExpression_follows (allMarked_traced env) cte.expr s).leaves u
        (.returned _ (castNode_eq_returned.mp hvisit)) hs
      exact ih (s := enterCte cte.aliasName i u) hu h

theorem visitQuery_allMarked {ctx : QueryContext} {a : Any}
    (h : visitQuery env ctx {} = .returned a s) : AllMarked s.outGraph.toOpGraph := by
  rw [visitQuery] at h
  obtain ⟨i, u, hscope, hpure⟩ := bind_eq_returned.mp h
  obtain ⟨rfl, rfl⟩ := pure_eq_returned.mp hpure
  obtain ⟨t, hbody, rfl⟩ := inScope_eq_returned.mp hscope
  obtain ⟨⟨⟩, v, hctes, hstatement⟩ := bind_eq_returned.mp hbody
  have hv : AllMarked v.outGraph.toOpGraph := by
    refine visitCtes_allMarked ?_ hctes
    intro o ho
    cases ho
  have hrun := castNode_eq_returned.mp hstatement
  rcases hkind : ctx.statement with queryExpression | _ | _
  · rw [hkind] at hrun
    exact (visitQueryExpression_follows (allMarked_traced env) queryExpression v).leaves t
      (.returned _ hrun) hv
  · rw [hkind] at hrun
    cases hrun
  · rw [hkind] at hrun
    cases hrun

end Queries

theorem isLiteral_of_isTableOperation {op : ColumnOperation} (h : isTableOperation op = true) :
    isLiteral op = false := by
  cases op <;> first | rfl | cases h

theorem df_eq_zero_iff_of_marked {o : Operation} (h : o.Marked) :
    o.df = 0 ↔ isLiteral o.op = true := by
  have hmark : nodeNone ≠ 0 := by decide
  rw [h]
  cases isLiteral o.op
  · simp [hmark]
  · simp

/-- What the pass makes of a marked node. -/
theorem claim_df {o : Operation} (h : o.Marked) (i : ℤ) :
    (OpGraph.claim i o).op = o.op ∧
      (OpGraph.claim i o).df = if isTableOperation o.op then i else o.df := by
  by_cases htable : isTableOperation o.op = true
  · have hdf : o.df = nodeNone := by
      rw [h, isLiteral_of_isTableOperation htable]
      rfl
    rw [OpGraph.claim, if_pos ⟨htable, hdf⟩, if_pos htable]
    exact ⟨rfl, rfl⟩
  · rw [OpGraph.claim, if_neg fun hclaim => htable hclaim.1, if_neg htable]
    exact ⟨rfl, rfl⟩

/-- In a graph of marked nodes the pass gives the mark of a constant to another
node exactly when the first node is a table operation. -/
theorem zeroMarksLiterals_iff_first {g g' : OpGraph} (hg : AllMarked g) (hsize : 0 < g.size)
    (hfill : g.fillDFIds = some g') :
    ZeroMarksLiterals g' ↔ isTableOperation (g.operation 0).op = false := by
  have hfilled : ∀ i, g.Valid i → (g'.operation i).op = (g.operation i).op ∧
      (g'.operation i).df =
        if isTableOperation (g.operation i).op then i else (g.operation i).df := by
    intro i hi
    rw [(OpGraph.fillDFIds_claims hfill i).2 hi]
    exact claim_df (hg.operation hi) i
  constructor
  · intro hmarks
    have hzero : g.Valid 0 := ⟨le_rfl, by exact_mod_cast hsize⟩
    obtain ⟨hop, hdf⟩ := hfilled 0 hzero
    have hmark := hmarks 0 ((OpGraph.fillDFIds_claims hfill 0).1.mpr hzero)
    by_contra htable
    rw [Bool.not_eq_false] at htable
    rw [hdf, if_pos htable, hop, isLiteral_of_isTableOperation htable] at hmark
    exact absurd (hmark.mp rfl) (by simp)
  · intro hfirst i hi
    have hi' := (OpGraph.fillDFIds_claims hfill i).1.mp hi
    obtain ⟨hop, hdf⟩ := hfilled i hi'
    rw [hop, hdf]
    split_ifs with htable
    · have hne : i ≠ 0 := by
        rintro rfl
        rw [hfirst] at htable
        cases htable
      simp [hne, isLiteral_of_isTableOperation htable]
    · exact df_eq_zero_iff_of_marked (hg.operation hi')

/-- After the pass the data frame zero marks the literals of a compiled query
exactly when its first node is not a table operation. -/
theorem zeroMarksLiterals_iff (env : Environment) (ctx : QueryContext) {a : Any}
    {s : VisitorState} (h : visitQuery env ctx {} = .returned a s) :
    (ctx.offsetWithoutLimit = false → ∃ g', s.outGraph.fillDFIds = some g') ∧
      ∀ g', s.outGraph.fillDFIds = some g' →
        (ZeroMarksLiterals g' ↔ ctx.opensWithTable env = false) := by
  constructor
  · intro hlimit
    have hbuilt := (visitQuery_wellBuilt_iff env ctx h).mpr hlimit
    obtain ⟨g', hfill, -⟩ := OpGraph.fillDFIds_filled_iff hbuilt.lengths hbuilt.childrenFirst
    exact ⟨g', hfill⟩
  · intro g' hfill
    obtain ⟨hsize, hop⟩ :=
      (visitQuery_opens env ctx).begins {} a s VisitorState.sound_start rfl h
    rw [zeroMarksLiterals_iff_first (visitQuery_allMarked h) hsize hfill, hop]

theorem zeroMarksLiterals_iff_sample :
    ∃ a s g', visitQuery sampleEnvironment pagedQuery {} = .returned a s ∧
      s.outGraph.fillDFIds = some g' ∧ ZeroMarksLiterals g' := by
  have hrun : (visitQuery sampleEnvironment pagedQuery {}).returns fun _ _ => true := by
    decide +kernel
  obtain ⟨a, s, h, -⟩ := Outcome.exists_of_returns hrun
  obtain ⟨hdefined, hmarks⟩ := zeroMarksLiterals_iff sampleEnvironment pagedQuery h
  obtain ⟨g', hfill⟩ := hdefined rfl
  exact ⟨a, s, g', h, hfill, (hmarks g' hfill).mpr rfl⟩

def starQuery : QueryContext where
  cte := []
  statement := .selectStmt (.mk (.mk .globalStar [] none none [] [] none none) [])

/-- The only node of `SELECT *` is a data frame with the mark of a constant. -/
theorem starQuery_marked :
    ∃ s g', visitQuery sampleEnvironment starQuery {} = .returned (some 0) s ∧
      s.outGraph.fillDFIds = some g' ∧ (g'.operation 0).op = .DF ∧ (g'.operation 0).df = 0 ∧
      ¬ZeroMarksLiterals g' := by
  refine ⟨_, _, rfl, rfl, rfl, rfl, fun h => ?_⟩
  have hmark := h 0 (by decide)
  exact absurd (hmark.mp rfl) (by decide)

end Parse

end DistStorage
