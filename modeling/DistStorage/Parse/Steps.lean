import DistStorage.Parse.Events
import DistStorage.Query.AddedNodes

/-!
# What the steps of a visit leave

The state that each step of the visitor leaves, whether it returns or throws,
written out. A schema table is inserted as its columns and the table node over
them; a relation is entered into the two contexts of expressions and leaves the
graph alone; naming changes the graph alone.
-/

namespace DistStorage

namespace Parse

open Cpp Cpp.Action Query QueryGraph Proto

def columnOperation (nameId : ℕ) (col : ColumnSchema) : Operation :=
  { op := .COLUMN, name := nameId, type := col.type, sequence := .ARRAY }

/-- The columns of a table, whose names come from the position `nameId` on. -/
def columnNodes (nameId : ℕ) : List ColumnSchema → List (Operation × List ℤ)
  | [] => []
  | col :: rest => (columnOperation nameId col, []) :: columnNodes (nameId + 1) rest

def tableOperation (nameId : ℕ) : Operation :=
  { op := .TABLE, name := nameId, sequence := .ARRAY }

/-- The nodes of a table with `size` nodes and `nameId` names before it. -/
def tableNodes (size nameId : ℕ) (schema : TableSchema) : List (Operation × List ℤ) :=
  columnNodes nameId schema.columns ++
    [(tableOperation (nameId + schema.columns.length),
      (List.range' size schema.columns.length).map Int.ofNat)]

/-- The graph after a table was inserted. -/
def insertTable (g : QueryGraph) (schema : TableSchema) : QueryGraph :=
  { g with
    toOpGraph := g.toOpGraph.append (tableNodes g.size g.names.length schema)
    names := g.names ++ (schema.columns.map ColumnSchema.name ++ [schema.name]) }

theorem length_columnNodes (nameId : ℕ) (columns : List ColumnSchema) :
    (columnNodes nameId columns).length = columns.length := by
  induction columns generalizing nameId with
  | nil => rfl
  | cons col rest ih => rw [columnNodes, List.length_cons, ih, List.length_cons]

theorem op_of_mem_columnNodes {nameId : ℕ} {columns : List ColumnSchema}
    {node : Operation × List ℤ} (h : node ∈ columnNodes nameId columns) :
    node.1.op = .COLUMN := by
  induction columns generalizing nameId with
  | nil => cases h
  | cons col rest ih =>
      rcases List.mem_cons.mp h with rfl | h
      · rfl
      · exact ih h

theorem appendColumns_eq (columns : List ColumnSchema) (s : VisitorState) :
    appendColumns columns s =
      .returned ((List.range' s.outGraph.size columns.length).map Int.ofNat)
        { s with outGraph := { s.outGraph with
            toOpGraph := s.outGraph.toOpGraph.append
              (columnNodes s.outGraph.names.length columns)
            names := s.outGraph.names ++ columns.map ColumnSchema.name } } := by
  induction columns generalizing s with
  | nil => simp [appendColumns, columnNodes, Pure.pure]
  | cons col rest ih =>
      have hfirst : build (fun g => g.appendColumn col.name col.type) s =
          .returned s.outGraph.size
            { s with outGraph := (s.outGraph.appendColumn col.name col.type).2 } := rfl
      have hsize : (s.outGraph.appendColumn col.name col.type).2.size = s.outGraph.size + 1 :=
        OpGraph.size_append _ _
      have hnames : (s.outGraph.appendColumn col.name col.type).2.names =
          s.outGraph.names ++ [col.name] := rfl
      have hgraph : (s.outGraph.appendColumn col.name col.type).2.toOpGraph =
          s.outGraph.toOpGraph.append (columnNodes s.outGraph.names.length [col]) := rfl
      rw [appendColumns, bind_of_returned hfirst, bind_of_returned (ih _), hsize, hnames, hgraph,
        OpGraph.append_append, List.length_append, List.append_assoc]
      rfl

/-- A table is inserted as it is, and its node is the last one. -/
theorem insertTableColumnNodes_eq (schema : TableSchema) (s : VisitorState) :
    insertTableColumnNodes schema s =
      .returned (s.outGraph.size + schema.columns.length : ℕ)
        { s with outGraph := insertTable s.outGraph schema } := by
  rw [insertTableColumnNodes, bind_of_returned (appendColumns_eq schema.columns s)]
  have hsize : (s.outGraph.toOpGraph.append
      (columnNodes s.outGraph.names.length schema.columns)).operations.length =
      s.outGraph.size + schema.columns.length :=
    (OpGraph.size_append _ _).trans (congrArg _ (length_columnNodes _ _))
  have hnames : (s.outGraph.names ++ schema.columns.map ColumnSchema.name).length =
      s.outGraph.names.length + schema.columns.length := by
    rw [List.length_append, List.length_map]
  simp only [build, appendTable, appendName, push, Action.get, Action.modify, Bind.bind, Pure.pure,
    hsize, hnames, OpGraph.append_append, List.append_assoc]
  rfl

theorem insertTable_growsBy (g : QueryGraph) (schema : TableSchema) :
    GrowsBy g (tableNodes g.size g.names.length schema) (insertTable g schema) :=
  ⟨rfl, List.prefix_append _ _⟩

theorem size_insertTable (g : QueryGraph) (schema : TableSchema) :
    (insertTable g schema).size = g.size + (schema.columns.length + 1) := by
  refine (OpGraph.size_append _ _).trans (congrArg _ ?_)
  rw [tableNodes, List.length_append, length_columnNodes, List.length_singleton]

theorem findOrInsertTable_leaves {env : Environment} {name : Bytes} {s t : VisitorState}
    (h : Leaves (findOrInsertTable env name) s t) :
    t = s ∨ ∃ schema, env.tables.find? (fun schema => schema.name = name) = some schema ∧
      findIdent name [s.fileTableContext, s.withTableContext] = nodeNone ∧
      t = { s with
        outGraph := insertTable s.outGraph schema
        fileTableContext := s.fileTableContext.insert name
          (s.outGraph.size + schema.columns.length : ℕ) } := by
  rw [findOrInsertTable] at h
  rcases leaves_of_bind h with ⟨s', u, hread, h⟩ | ⟨e, hthrown⟩
  · cases hread
    dsimp only at h
    split_ifs at h with hfound
    · obtain ⟨o, -, h⟩ := leaves_of_ofOption_bind h
      split_ifs at h
      · exact .inl (eq_of_leaves_pure h).symm
      · exact .inl (eq_of_leaves_throw h).symm
    · rcases hschema : env.tables.find? (fun schema => schema.name = name) with _ | schema
      · rw [hschema] at h
        exact .inl (eq_of_leaves_throw h).symm
      · rw [hschema] at h
        refine .inr ⟨schema, hschema, not_not.mp hfound, ?_⟩
        rcases leaves_of_bind h with ⟨i, v, hinsert, h⟩ | ⟨e, hthrown⟩
        · rw [insertTableColumnNodes_eq] at hinsert
          cases hinsert
          rcases leaves_of_bind h with ⟨⟨⟩, w, hmodify, h⟩ | ⟨e, hthrown⟩
          · cases hmodify
            exact (eq_of_leaves_pure h).symm
          · cases hthrown
        · rw [insertTableColumnNodes_eq] at hthrown
          cases hthrown
  · cases hthrown

theorem enterTable_leaves {tableNodeId : ℤ} {aliasName : Option Bytes} {s t : VisitorState}
    (h : Leaves (enterTable tableNodeId aliasName) s t) :
    ∃ tableAlias ctx, aliasName.or (s.outGraph.getNodeName tableNodeId) = some tableAlias ∧
      loadTableNames s.exprVarContext s.outGraph tableNodeId tableAlias = some ctx ∧
      t = { s with
        exprVarContext := ctx
        exprTableContext :=
          if tableAlias = [] then s.exprTableContext
          else s.exprTableContext.insert tableAlias tableNodeId } := by
  rw [enterTable] at h
  rcases leaves_of_bind h with ⟨s', u, hread, h⟩ | ⟨e, hthrown⟩
  · cases hread
    obtain ⟨tableAlias, halias, h⟩ := leaves_of_ofOption_bind h
    obtain ⟨ctx, hctx, h⟩ := leaves_of_ofOption_bind h
    refine ⟨tableAlias, ctx, halias, hctx, ?_⟩
    rcases leaves_of_bind h with ⟨⟨⟩, u, hmodify, h⟩ | ⟨e, hthrown⟩
    · cases hmodify
      by_cases hempty : tableAlias = []
      · rw [if_neg (not_not.mpr hempty)] at h
        rw [if_pos hempty]
        exact (eq_of_leaves_pure h).symm
      · rw [if_pos hempty] at h
        rw [if_neg hempty]
        exact (eq_of_leaves_modify h).symm
    · cases hthrown
  · cases hthrown

theorem setName_leaves {nodeId : ℤ} {name : Bytes} {s t : VisitorState}
    (h : Leaves (setName nodeId name) s t) :
    ∃ g, s.outGraph.setNodeName nodeId name = some g ∧ t = { s with outGraph := g } := by
  rw [setName] at h
  rcases leaves_of_bind h with ⟨s', u, hread, h⟩ | ⟨e, hthrown⟩
  · cases hread
    obtain ⟨g, hg, h⟩ := leaves_of_ofOption_bind h
    exact ⟨g, hg, (eq_of_leaves_modify h).symm⟩
  · cases hthrown

end Parse

end DistStorage
