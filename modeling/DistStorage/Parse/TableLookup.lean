import DistStorage.Parse.QueryNode
import DistStorage.Parse.SelectScope
import DistStorage.Parse.SilentExpressions

/-!
# What the name of a relation stands for

In `FROM` and `JOIN` a name is to stand for the common table expression of that
name, if one was defined before, and else for the table of the schema.
`ResolvesRightly` says so of a lookup. The visitor asks `fileTableContext`
first, which has the schema tables that were looked up so far, so a table that
was used before a common table expression took its name hides the expression.
And a common table expression that ends in `GROUP BY` is not accepted as a
relation at all.
-/

namespace DistStorage

namespace Parse

open Cpp Cpp.Action Query QueryGraph Proto

/-- The node of a schema table: it is over nodes for its columns. -/
structure TableNode (g : OpGraph) (schema : TableSchema) (i : ℤ) : Prop where
  op_eq : (g.operation i).op = .TABLE
  columns_eq : (g.children i).map (fun c => ((g.operation c).op, (g.operation c).type)) =
    schema.columns.map fun col => (.COLUMN, col.type)

/-- The name leads to the common table expression of that name, if one of those
before has it, and else to the table of the schema. -/
def ResolvesRightly (env : Environment) (before : List Cte) (name : Bytes) (w : VisitorState) :
    Prop :=
  if name ∈ before.map Cte.aliasName then
    ∃ i t, w.withTableContext.find name = some i ∧ findOrInsertTable env name w = .returned i t
  else
    match env.tables.find? fun schema => schema.name = name with
    | some schema => ∃ i t, findOrInsertTable env name w = .returned i t ∧
        TableNode t.outGraph.toOpGraph schema i
    | none => ∀ i t, findOrInsertTable env name w ≠ .returned i t

/-- A query expression of a query, the common table expressions before it, and
the state in which its visit begins. -/
inductive QueryContext.Visits (env : Environment) (ctx : QueryContext) :
    List Cte → QueryExpression → VisitorState → Prop
  | cte {before rest : List Cte} {cte : Cte} {u : VisitorState}
      (hlist : ctx.cte = before ++ cte :: rest)
      (hvisit : visitCtes env before (enterQuery {}) = .returned () u) :
      QueryContext.Visits env ctx before cte.expr u
  | statement {queryExpression : QueryExpression} {u : VisitorState}
      (hstatement : ctx.statement = .selectStmt queryExpression)
      (hvisit : visitCtes env ctx.cte (enterQuery {}) = .returned () u) :
      QueryContext.Visits env ctx ctx.cte queryExpression u

/-- What the contexts of tables hold: nodes of schema tables under their names,
and other nodes for the common table expressions. -/
structure Tables (env : Environment) (s : VisitorState) : Prop where
  lengths : s.outGraph.graphMapping.length = s.outGraph.operations.length
  files : ∀ name i, s.fileTableContext.find name = some i → s.outGraph.Valid i ∧
    ∃ schema, env.tables.find? (fun schema => schema.name = name) = some schema ∧
      TableNode s.outGraph.toOpGraph schema i
  ctes : ∀ name i, s.withTableContext.find name = some i → s.outGraph.Valid i ∧
    (s.outGraph.operation i).op ≠ .TABLE

theorem valid_of_op {g : OpGraph} {i : ℤ} (h : (g.operation i).op ≠ .CONST) : g.Valid i := by
  by_contra hi
  refine h ?_
  rw [OpGraph.operation, Cpp.index_eq_none hi]
  rfl

section Tables

variable {env : Environment} {g g' : QueryGraph} {schema : TableSchema} {s : VisitorState}

theorem TableNode.valid_child {i c : ℤ} (h : TableNode g.toOpGraph schema i)
    (hc : c ∈ g.children i) : g.Valid c := by
  have hmem := List.mem_map_of_mem (f := fun c => ((g.operation c).op, (g.operation c).type)) hc
  rw [h.columns_eq] at hmem
  obtain ⟨col, -, hcol⟩ := List.mem_map.mp hmem
  have hop : ColumnOperation.COLUMN = (g.operation c).op := congrArg Prod.fst hcol
  exact valid_of_op (by rw [← hop]; simp)

theorem TableNode.keeps {i : ℤ} (h : TableNode g.toOpGraph schema i) (hkeeps : KeepsNodes g g')
    (hl : g.graphMapping.length = g.operations.length) (hi : g.Valid i) :
    TableNode g'.toOpGraph schema i := by
  refine ⟨(hkeeps.op_eq hi).trans h.op_eq, ?_⟩
  rw [hkeeps.children_eq hl i hi, ← h.columns_eq]
  refine List.map_congr_left fun c hc => ?_
  rw [hkeeps.op_eq (h.valid_child hc), hkeeps.type_eq (h.valid_child hc)]

theorem Tables.keeps (h : Tables env s) (hkeeps : KeepsNodes s.outGraph g) :
    Tables env { s with outGraph := g } := by
  refine ⟨hkeeps.lengths h.lengths, fun name i hi => ?_, fun name i hi => ?_⟩
  · obtain ⟨hvalid, schema, hschema, hnode⟩ := h.files name i hi
    exact ⟨hkeeps.valid hvalid, schema, hschema, hnode.keeps hkeeps h.lengths hvalid⟩
  · obtain ⟨hvalid, hop⟩ := h.ctes name i hi
    exact ⟨hkeeps.valid hvalid, by rwa [hkeeps.op_eq hvalid]⟩

theorem getElem?_columnNodes (nameId : ℕ) (columns : List ColumnSchema) (k : ℕ) :
    (columnNodes nameId columns)[k]? =
      columns[k]?.map fun col => (columnOperation (nameId + k) col, []) := by
  induction columns generalizing nameId k with
  | nil => rfl
  | cons col rest ih =>
      cases k with
      | zero => rfl
      | succ k =>
          rw [columnNodes, List.getElem?_cons_succ, List.getElem?_cons_succ, ih]
          congr 2
          funext col
          rw [Nat.add_right_comm, Nat.add_assoc]

theorem tableNode_insertTable (hl : g.graphMapping.length = g.operations.length)
    (schema : TableSchema) :
    (insertTable g schema).Valid (g.size + schema.columns.length : ℕ) ∧
      TableNode (insertTable g schema).toOpGraph schema (g.size + schema.columns.length : ℕ) := by
  have hlast : (tableNodes g.size g.names.length schema)[schema.columns.length]? =
      some (tableOperation (g.names.length + schema.columns.length),
        (List.range' g.size schema.columns.length).map Int.ofNat) := by
    rw [tableNodes, List.getElem?_append_right (length_columnNodes _ _).le, length_columnNodes,
      Nat.sub_self]
    rfl
  have hop := OpGraph.operation_append_fresh g.toOpGraph hlast
  have hchildren := OpGraph.children_append_fresh hl hlast
  rw [← Nat.cast_add] at hop hchildren
  have htable : ((insertTable g schema).operation (g.size + schema.columns.length : ℕ)).op =
      .TABLE := congrArg Operation.op hop
  refine ⟨valid_of_op (by rw [htable]; simp), htable, ?_⟩
  have hkids : (insertTable g schema).children (g.size + schema.columns.length : ℕ) =
      (List.range' g.size schema.columns.length).map Int.ofNat := hchildren
  rw [hkids]
  refine List.ext_getElem? fun k => ?_
  by_cases hk : k < schema.columns.length
  · have hcolumn : (tableNodes g.size g.names.length schema)[k]? =
        some (columnOperation (g.names.length + k) schema.columns[k], []) := by
      rw [tableNodes, List.getElem?_append_left (by rwa [length_columnNodes]),
        getElem?_columnNodes, List.getElem?_eq_getElem hk]
      rfl
    have hnode := OpGraph.operation_append_fresh g.toOpGraph hcolumn
    have hnode' : (insertTable g schema).operation (g.size + k : ℕ) =
        columnOperation (g.names.length + k) schema.columns[k] := by
      rw [Nat.cast_add]
      exact hnode
    rw [List.getElem?_map, List.getElem?_map, List.getElem?_map,
      List.getElem?_range' hk, List.getElem?_eq_getElem hk]
    simp only [Option.map_some, Nat.one_mul]
    change some (((insertTable g schema).operation (g.size + k : ℕ)).op,
      ((insertTable g schema).operation (g.size + k : ℕ)).type) = _
    rw [hnode']
    rfl
  · rw [List.getElem?_eq_none (by simpa using hk), List.getElem?_eq_none (by simpa using hk)]

variable (env) in
theorem tables_traced :
    Traced env (fun s es t => Tables env s → Tables env t ∧ ∀ e ∈ es, Tables env e.before)
      (fun s es => Tables env s → ∀ e ∈ es, Tables env e.before) := by
  refine traced_of_invariant (fun s g hkeeps hs => hs.keeps hkeeps) ?_ ?_
    (fun s hs => ⟨hs.lengths, hs.files, hs.ctes⟩) (fun s t ht => ⟨ht.lengths, ht.files, ht.ctes⟩)
  · intro s name t h hs
    rcases findOrInsertTable_leaves h with rfl | ⟨schema, hschema, -, rfl⟩
    · exact hs
    · have hkept := hs.keeps (insertTable_growsBy s.outGraph schema).keepsNodes
      refine ⟨hkept.lengths, fun other i hi => ?_, hkept.ctes⟩
      rw [OrderedMap.find_insert] at hi
      split_ifs at hi with hname
      · obtain ⟨hvalid, hnode⟩ := tableNode_insertTable hs.lengths schema
        rw [← Option.some.inj hi, hname]
        exact ⟨hvalid, schema, hschema, hnode⟩
      · exact hkept.files other i hi
  · intro s u relation tableNodeId t _ h hu
    obtain ⟨tableAlias, ctx, -, -, rfl⟩ := enterTable_leaves h
    exact ⟨hu.lengths, hu.files, hu.ctes⟩

variable (env) in
theorem ctes_traced : Traced env
    (fun s es t => t.withTableContext = s.withTableContext ∧
      ∀ e ∈ es, e.before.withTableContext = s.withTableContext)
    (fun s es => ∀ e ∈ es, e.before.withTableContext = s.withTableContext) where
  refl s := ⟨rfl, by simp⟩
  trans := by
    rintro s u t es es' ⟨hu, hes⟩ ⟨ht, hes'⟩
    refine ⟨ht.trans hu, fun e he => ?_⟩
    exact (List.mem_append.mp he).elim (hes e) fun he => (hes' e he).trans hu
  stuck s := by simp
  stuck_trans := by
    rintro s u es es' ⟨hu, hes⟩ hes' e he
    exact (List.mem_append.mp he).elim (hes e) fun he => (hes' e he).trans hu
  grow := by
    rintro s es t ⟨new, g, -, -, rfl⟩
    exact ⟨rfl, by simp⟩
  construct s node new g _ _ _ _ := ⟨rfl, by simp [record]⟩
  unite := by
    rintro s es t ⟨new, g, -, -, rfl⟩
    exact ⟨rfl, by simp [record]⟩
  lookup s name t h := by
    rcases findOrInsertTable_leaves h with rfl | ⟨schema, -, -, rfl⟩
    · exact ⟨rfl, by simp [record]⟩
    · exact ⟨rfl, by simp [record]⟩
  enter s es u relation tableNodeId t hu _ h := by
    obtain ⟨tableAlias, ctx, -, -, rfl⟩ := enterTable_leaves h
    exact ⟨hu.1, (forall_mem_record (p := fun v => v.withTableContext = s.withTableContext)).mpr
      ⟨hu.2, hu.1⟩⟩
  name s es u origin nodeId name t hu _ h := by
    obtain ⟨g, -, rfl⟩ := setName_leaves h
    exact ⟨hu.1, (forall_mem_record (p := fun v => v.withTableContext = s.withTableContext)).mpr
      ⟨hu.2, hu.1⟩⟩
  select s es t h := by
    refine ⟨h.1, fun e he => ?_⟩
    rcases List.mem_append.mp he with he | he
    · rw [List.mem_singleton.mp he]
    · exact h.2 e he
  stop s step := by simp [record]
  select_stop s es h e he := by
    rcases List.mem_append.mp he with he | he
    · rw [List.mem_singleton.mp he]
    · exact h e he

end Tables

section Queries

variable {env : Environment} {s u : VisitorState}

/-- A query expression never stands for the node of a schema table. -/
theorem top_ne_table (x : QueryExpression) : x.top ≠ .TABLE := by
  obtain ⟨select, rest⟩ := x
  cases rest with
  | nil =>
      obtain ⟨selectElement, rest, fromClause, whereExpr, groupByExprs, sortItems, limitExpr,
        offsetExpr⟩ := select
      rw [QueryExpression.top, SelectStatement.top]
      split_ifs <;> simp
  | cons other rest =>
      rw [QueryExpression.top]
      simp

/-- The common table expressions that were defined are those in the context. -/
theorem visitCtes_tables {l : List Cte} (hs : s.Sound []) (htables : Tables env s)
    (h : visitCtes env l s = .returned () u) : Tables env u ∧
      ∀ name, (u.withTableContext.find name).isSome = true ↔
        name ∈ l.map Cte.aliasName ∨ (s.withTableContext.find name).isSome = true := by
  induction l generalizing s with
  | nil =>
      obtain ⟨-, rfl⟩ := pure_eq_returned.mp h
      exact ⟨htables, by simp⟩
  | cons cte rest ih =>
      rw [visitCtes] at h
      obtain ⟨i, v, hvisit, h⟩ := bind_eq_returned.mp h
      obtain ⟨⟨⟩, w, hinsert, h⟩ := bind_eq_returned.mp h
      cases hinsert
      have hv : v.Sound [i] := by
        simpa using (visitQueryExpression_appends env cte.expr).castNode.keeps s i v hs hvisit
      have hrun := castNode_eq_returned.mp hvisit
      obtain ⟨p, s₁, items, s₂, n, -, -, hn, hend⟩ := visitQueryExpression_end hs hrun
      obtain rfl := Option.some.inj hn
      have hkept := ((visitQueryExpression_follows (tables_traced env) cte.expr s).leaves v
        (.returned _ hrun) htables).1
      have hctes := ((visitQueryExpression_follows (ctes_traced env) cte.expr s).leaves v
        (.returned _ hrun)).1
      have hsound : (enterCte cte.aliasName i v).Sound [] := by
        refine ⟨hv.coherent, by simp, hv.files, fun j hj => ?_, hv.vars⟩
        rcases OrderedMap.mem_values_insert hj with rfl | hj
        · exact hv.nodes j (by simp)
        · exact hv.ctes j hj
      have htables' : Tables env (enterCte cte.aliasName i v) := by
        refine ⟨hkept.lengths, hkept.files, fun name j hj => ?_⟩
        rw [enterCte, OrderedMap.find_insert] at hj
        split_ifs at hj with hname
        · rw [← Option.some.inj hj]
          refine ⟨hv.nodes i (by simp), ?_⟩
          change (v.outGraph.operation i).op ≠ .TABLE
          rw [hend.op_eq]
          exact top_ne_table cte.expr
        · exact hkept.ctes name j hj
      obtain ⟨hu, hfind⟩ := ih hsound htables' h
      refine ⟨hu, fun name => ?_⟩
      rw [hfind, enterCte, OrderedMap.find_insert, List.map_cons, List.mem_cons, hctes]
      by_cases hname : name = cte.aliasName
      · simp [hname]
      · simp [hname]

theorem findOrInsertTable_eq (hs : Tables env s) (name : Bytes) :
    findOrInsertTable env name s =
      match (s.fileTableContext.find name).or (s.withTableContext.find name) with
      | some i =>
          if isTableOperation (s.outGraph.operation i).op then .returned i s
          else .thrown (.sqlCompileError (bytes "Invalid table name: " ++ name)) s
      | none =>
          match env.tables.find? fun schema => schema.name = name with
          | some schema => .returned (s.outGraph.size + schema.columns.length : ℕ)
              { s with
                outGraph := insertTable s.outGraph schema
                fileTableContext := s.fileTableContext.insert name
                  (s.outGraph.size + schema.columns.length : ℕ) }
          | none => .thrown (.sqlCompileError (bytes "Unknown table name: " ++ name)) s := by
  rcases hfile : s.fileTableContext.find name with _ | i
  · rcases hcte : s.withTableContext.find name with _ | i
    · have hnone : findIdent name [s.fileTableContext, s.withTableContext] = nodeNone := by
        simp [findIdent, hfile, hcte]
      change (if findIdent name [s.fileTableContext, s.withTableContext] ≠ nodeNone then
        (Action.ofOption (Cpp.index s.outGraph.operations _) >>= _ : Visit ℤ) else _) s = _
      rw [if_neg (not_not.mpr hnone)]
      rcases hschema : env.tables.find? (fun schema => schema.name = name) with _ | schema
      · rw [hschema]
        rfl
      · rw [hschema]
        exact (bind_of_returned (insertTableColumnNodes_eq schema s)).trans rfl
    · exact findOrInsertTable_of_known env (hs.ctes name i hcte).1
        (by simp [findIdent, hfile, hcte])
  · exact findOrInsertTable_of_known env (hs.files name i hfile).1 (by simp [findIdent, hfile])

end Queries

section Lookups

variable {env : Environment}

/-- A lookup is right unless a schema table hides the common table expression of
the name, or that expression is not accepted. -/
theorem resolvesRightly_iff_of_tables {before : List Cte} {name : Bytes} {w : VisitorState}
    (hw : Tables env w) (hctes : (w.withTableContext.find name).isSome = true ↔
      name ∈ before.map Cte.aliasName) :
    ResolvesRightly env before name w ↔ ∀ i, w.withTableContext.find name = some i →
      w.fileTableContext.find name = none ∧
        isTableOperation (w.outGraph.operation i).op = true := by
  have hrun := findOrInsertTable_eq hw name
  rw [ResolvesRightly]
  rcases hcte : w.withTableContext.find name with _ | i
  · have hnot : name ∉ before.map Cte.aliasName := by rw [← hctes, hcte]; simp
    rw [if_neg hnot]
    refine iff_of_true ?_ (by simp)
    rcases hfile : w.fileTableContext.find name with _ | i
    · rw [hfile, hcte] at hrun
      rcases hschema : env.tables.find? (fun schema => schema.name = name) with _ | schema
      · rw [hschema] at hrun ⊢
        intro i t hreturned
        rw [hrun] at hreturned
        cases hreturned
      · rw [hschema] at hrun ⊢
        exact ⟨_, _, hrun, (tableNode_insertTable hw.lengths schema).2⟩
    · obtain ⟨hvalid, schema, hschema, hnode⟩ := hw.files name i hfile
      rw [hfile, Option.some_or] at hrun
      dsimp only at hrun
      rw [hnode.op_eq] at hrun
      rw [hschema]
      exact ⟨i, w, hrun, hnode⟩
  · have hmem : name ∈ before.map Cte.aliasName := by rw [← hctes, hcte]; rfl
    rw [if_pos hmem]
    rcases hfile : w.fileTableContext.find name with _ | j
    · rw [hfile, hcte, Option.none_or] at hrun
      dsimp only at hrun
      rw [hrun]
      by_cases hop : isTableOperation (w.outGraph.operation i).op = true
      · simp [hop]
      · simp [hop]
    · obtain ⟨hvalid, schema, -, hnode⟩ := hw.files name j hfile
      have hreturn : findOrInsertTable env name w = .returned j w := by
        rw [hrun, hfile, Option.some_or]
        dsimp only
        rw [hnode.op_eq]
        rfl
      refine iff_of_false ?_ (by simp)
      rintro ⟨k, t, hk, hreturned⟩
      obtain rfl := Option.some.inj hk
      rw [hreturn] at hreturned
      obtain rfl : j = i := by injection hreturned
      exact (hw.ctes name j hcte).2 hnode.op_eq

/-- The tables at the events of a query expression of a query. -/
theorem QueryContext.Visits.tables {ctx : QueryContext} {before : List Cte} {x : QueryExpression}
    {u : VisitorState} (h : ctx.Visits env before x u) : Tables env u ∧
      ∀ name, (u.withTableContext.find name).isSome = true ↔ name ∈ before.map Cte.aliasName := by
  have hstart : ∀ {l : List Cte}, visitCtes env l (enterQuery {}) = .returned () u →
      Tables env u ∧ ∀ name, (u.withTableContext.find name).isSome = true ↔
        name ∈ l.map Cte.aliasName := by
    intro l hvisit
    have hempty : Tables env (enterQuery {}) := by
      refine ⟨rfl, fun name i hi => ?_, fun name i hi => ?_⟩
      · cases hi
      · cases hi
    obtain ⟨hu, hfind⟩ := visitCtes_tables (enterQuery_sound [] {} VisitorState.sound_start).1
      hempty hvisit
    exact ⟨hu, fun name => (hfind name).trans (or_iff_left Bool.false_ne_true)⟩
  cases h with
  | cte hlist hvisit => exact hstart hvisit
  | statement hstatement hvisit => exact hstart hvisit

theorem visitCtes_inGraph {l : List Cte} {s u : VisitorState} (hs : InGraph s)
    (h : visitCtes env l s = .returned () u) : InGraph u := by
  induction l generalizing s with
  | nil =>
      obtain ⟨-, rfl⟩ := pure_eq_returned.mp h
      exact hs
  | cons cte rest ih =>
      rw [visitCtes] at h
      obtain ⟨i, v, hvisit, h⟩ := bind_eq_returned.mp h
      obtain ⟨⟨⟩, w, hinsert, h⟩ := bind_eq_returned.mp h
      cases hinsert
      have hv := ((visitQueryExpression_follows (inGraph_traced env) cte.expr s).leaves v
        (.returned _ (castNode_eq_returned.mp hvisit)) hs).1
      refine ih (s := enterCte cte.aliasName i v) ⟨hv.files, fun name j hj => ?_, hv.exprTables⟩ h
      rw [enterCte, OrderedMap.find_insert] at hj
      split_ifs at hj
      · rw [← Option.some.inj hj]
        exact lt_size_of_getNodeName (visitQueryExpression_made hvisit).name_eq
      · exact hv.ctes name j hj

/-- Every state in which a query begins a select statement, or anything else
that is an event, has the contexts of tables in the graph. -/
theorem QueryContext.Visits.inGraph {ctx : QueryContext} {before : List Cte} {x : QueryExpression}
    {u : VisitorState} (h : ctx.Visits env before x u) :
    ∀ e ∈ x.events env u, InGraph e.before := by
  have hu : InGraph u := by
    have hstart : InGraph (enterQuery {}) := .start
    cases h with
    | cte hlist hvisit => exact visitCtes_inGraph hstart hvisit
    | statement hstatement hvisit => exact visitCtes_inGraph hstart hvisit
  exact (visitQueryExpression_follows (inGraph_traced env) x).along (fun _ h => (h hu).2)
    fun h => h hu

end Lookups

def selectA : SelectStatement :=
  .mk (.expression (.ofPrimary (.columnExpr none (bytes "a"))) none) []
    (some (.mk (.table (bytes "t") none) [])) none [] [] none none

/-- `WITH x AS (SELECT a FROM t), y AS (SELECT 1) SELECT * FROM y`, with the
name of `y` left open. -/
def hiddenQuery (name : Bytes) : QueryContext where
  cte := [{ aliasName := bytes "x", expr := .mk selectA [] },
    { aliasName := name, expr := .mk selectOne [] }]
  statement := .selectStmt (.mk (.mk .globalStar [] (some (.mk (.table name none) []))
    none [] [] none none) [])

end Parse

end DistStorage
