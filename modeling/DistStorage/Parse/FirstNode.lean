import DistStorage.Parse.TableLookup

/-!
# The first node of a graph

The first node that a query appends is a column, a literal, an operation of an
expression, or a table operation. The last is so when the first relation is a
table without columns, and when the first select statement has nothing but
stars: then a node of a data frame has the identifier zero. `Opens first m` says
of a visit that begins with an empty graph whether it appends nodes and whether
the first of them is a table operation.
-/

namespace DistStorage

namespace Parse

open Cpp Cpp.Action Query QueryGraph

def SelectElement.isStar : SelectElement → Bool
  | .globalStar | .tableStar _ => true
  | .expression _ _ => false

mutual

/-- The first node is a table operation. -/
def QueryExpression.opensWithTable (env : Environment) : QueryExpression → Bool
  | .mk selectStatement _ => selectStatement.opensWithTable env

/-- Without a relation, it is one if there are only stars. -/
def SelectStatement.opensWithTable (env : Environment) : SelectStatement → Bool
  | .mk selectElement rest fromClause whereExpr groupByExprs sortItems limitExpr offsetExpr =>
      (fromOpensWithTable env fromClause).getD
        ((selectElement :: rest).all SelectElement.isStar && whereExpr.isNone &&
          groupByExprs.isEmpty && sortItems.isEmpty && offsetExpr.isNone && limitExpr.isNone)

def fromOpensWithTable (env : Environment) : Option FromClause → Option Bool
  | none => none
  | some fromClause => some (fromClause.opensWithTable env)

def FromClause.opensWithTable (env : Environment) : FromClause → Bool
  | .mk baseTable _ => baseTable.opensWithTable env

/-- The first node of a schema table is its first column if it has one. -/
def Relation.opensWithTable (env : Environment) : Relation → Bool
  | .table name _ =>
      (env.tables.find? fun schema => schema.name = name).any fun schema => schema.columns.isEmpty
  | .subquery queryExpression _ => queryExpression.opensWithTable env

end

def Statement.opensWithTable (env : Environment) : Statement → Bool
  | .selectStmt queryExpression => queryExpression.opensWithTable env
  | .updateStmt => false
  | .deleteStmt => false

def QueryContext.opensWithTable (env : Environment) (ctx : QueryContext) : Bool :=
  match ctx.cte with
  | cte :: _ => cte.expr.opensWithTable env
  | [] => ctx.statement.opensWithTable env

/-- Nothing was done, or there are nodes now and the first one is or is not a
table operation. -/
def Begins (first : Option Bool) (s t : VisitorState) : Prop :=
  match first with
  | none => t = s
  | some table =>
      0 < t.outGraph.size ∧ isTableOperation (t.outGraph.operation 0).op = table

/-- The specification of a visit by what it appends first to an empty graph. -/
structure Opens {α : Type} (first : Option Bool) (m : Visit α) : Prop where
  keeps : ∀ s a t, m s = .returned a t → KeepsNodes s.outGraph t.outGraph
  begins : ∀ s a t, s.Sound [] → s.outGraph.size = 0 → m s = .returned a t → Begins first s t

theorem Begins.keepsNodes {table : Bool} {s t u : VisitorState} (h : Begins (some table) s t)
    (hkeeps : KeepsNodes t.outGraph u.outGraph) : Begins (some table) s u := by
  obtain ⟨hpos, hop⟩ := h
  refine ⟨hpos.trans_le hkeeps.size_le, ?_⟩
  rw [hkeeps.op_eq ⟨le_rfl, by exact_mod_cast hpos⟩]
  exact hop

/-- The first of some nodes added to an empty graph. -/
theorem begins_of_growsBy {s t : VisitorState} {node : Operation × List ℤ}
    {new : List (Operation × List ℤ)} (hsize : s.outGraph.size = 0)
    (h : GrowsBy s.outGraph (node :: new) t.outGraph) :
    Begins (some (isTableOperation node.1.op)) s t := by
  have hhead : (node :: new)[0]? = some (node.1, node.2) := rfl
  have hfirst := OpGraph.operation_append_fresh s.outGraph.toOpGraph hhead
  rw [hsize] at hfirst
  refine ⟨?_, ?_⟩
  · rw [h.size_eq]
    exact Nat.lt_add_left _ (Nat.succ_pos _)
  · rw [h.graph_eq]
    exact congrArg (fun o : Operation => isTableOperation o.op) hfirst

namespace Opens

variable {α β : Type} {first second : Option Bool} {m : Visit α} {f : α → Visit β}

protected theorem pure (a : α) : Opens none (pure a : Visit α) where
  keeps s b t h := by
    obtain ⟨-, rfl⟩ := pure_eq_returned.mp h
    exact .refl _
  begins s b t _ _ h := (pure_eq_returned.mp h).2.symm

protected theorem throw (e : Exception) : Opens first (Action.throw e : Visit α) where
  keeps _ _ _ h := by cases h
  begins _ _ _ _ _ h := by cases h

protected theorem bind (hm : Opens first m) (hf : ∀ a, Opens second (f a)) :
    Opens (first.or second) (m >>= f) where
  keeps s b u h := by
    obtain ⟨a, t, hms, h⟩ := bind_eq_returned.mp h
    exact (hm.keeps s a t hms).trans ((hf a).keeps t b u h)
  begins s b u hs hsize h := by
    obtain ⟨a, t, hms, hrest⟩ := bind_eq_returned.mp h
    have hbegins := hm.begins s a t hs hsize hms
    cases first with
    | none =>
        obtain rfl : t = s := hbegins
        exact (hf a).begins t b u hs hsize hrest
    | some table => exact hbegins.keepsNodes ((hf a).keeps t b u hrest)

/-- What follows an appended node only has to keep it. -/
theorem before {table : Bool} (hm : Opens (some table) m)
    (hf : ∀ a s b t, f a s = .returned b t → KeepsNodes s.outGraph t.outGraph) :
    Opens (some table) (m >>= f) where
  keeps s b u h := by
    obtain ⟨a, t, hms, h⟩ := bind_eq_returned.mp h
    exact (hm.keeps s a t hms).trans (hf a t b u h)
  begins s b u hs hsize h := by
    obtain ⟨a, t, hms, h⟩ := bind_eq_returned.mp h
    exact (hm.begins s a t hs hsize hms).keepsNodes (hf a t b u h)

theorem last (hm : Opens first m) (hf : ∀ a, Opens none (f a)) : Opens first (m >>= f) := by
  have h := hm.bind hf
  rwa [Option.or_none] at h

theorem castNode {m : Visit Any} (h : Opens first m) : Opens first (castNode m) := by
  refine h.last fun a => ?_
  cases a with
  | none => exact Opens.throw _
  | some i => exact Opens.pure i

theorem toAny {m : Visit ℤ} (h : Opens first m) : Opens first (toAny m) :=
  h.last fun i => Opens.pure (some i)

theorem inScope {table : Bool} {enter : VisitorState → VisitorState}
    {leave : VisitorState → VisitorState → VisitorState} (hm : Opens (some table) m)
    (henter : ∀ s : VisitorState, s.Sound [] → (enter s).Sound [])
    (hgraph : ∀ s, (enter s).outGraph = s.outGraph)
    (hleave : ∀ s t, (leave s t).outGraph = t.outGraph) :
    Opens (some table) (inScope enter leave m) where
  keeps s a u h := by
    obtain ⟨t, hms, rfl⟩ := inScope_eq_returned.mp h
    rw [hleave, ← hgraph s]
    exact hm.keeps (enter s) a t hms
  begins s a u hs hsize h := by
    obtain ⟨t, hms, rfl⟩ := inScope_eq_returned.mp h
    have hbegins := hm.begins (enter s) a t (henter s hs) (by rw [hgraph, hsize]) hms
    rw [Begins, hleave]
    exact hbegins

end Opens

section Clauses

variable (env : Environment)

theorem opens_of_grown {α : Type} {m : Visit α} {gap : Prop} {gives : α → List ℤ}
    (hgrown : ∀ s a t, m s = .returned a t → Grown Operation.Plain s [] t)
    (happends : Appends gap [] m gives) (hgives : ∀ s a t, m s = .returned a t → gives a ≠ []) :
    Opens (some false) m where
  keeps s a t h := by
    obtain ⟨new, g, hnew, -, rfl⟩ := hgrown s a t h
    exact hnew.growsBy.keepsNodes
  begins s a t hs hsize h := by
    obtain ⟨new, g, hnew, hplain, rfl⟩ := hgrown s a t h
    obtain ⟨i, hi⟩ := List.exists_mem_of_ne_nil _ (hgives s a _ h)
    have hvalid := (happends.keeps s a _ hs h).nodes i (List.mem_append_left _ hi)
    cases new with
    | nil =>
        have hlt := hvalid.1.trans_lt hvalid.2
        rw [hnew.size_eq, hsize] at hlt
        simp at hlt
    | cons node new =>
        have hbegins : Begins (some (isTableOperation node.1.op)) s { s with outGraph := g } :=
          begins_of_growsBy hsize hnew.growsBy
        rwa [(hplain node List.mem_cons_self).2] at hbegins

theorem visitExpression_opens (x : Expression) :
    Opens (some false) (castNode (visitExpression env x)) :=
  opens_of_grown (fun _ _ _ h => visitExpression_grown h) (visitExpression_visits env x).castNode
    fun _ _ _ _ => by simp

theorem visitOptional_opens (x : Option Expression) :
    Opens (x.map fun _ => false) (visitOptional env x) := by
  cases x with
  | none =>
      rw [visitOptional]
      exact Opens.pure none
  | some expression =>
      rw [visitOptional]
      exact (visitExpression_opens env expression).last fun i => Opens.pure (some i)

theorem visitExpressions_opens (l : List Expression) :
    Opens (l.head?.map fun _ => false) (visitExpressions env l) := by
  induction l with
  | nil =>
      rw [visitExpressions]
      exact Opens.pure []
  | cons expression rest ih =>
      rw [visitExpressions]
      exact (visitExpression_opens env expression).bind fun i => ih.last fun is =>
        Opens.pure (i :: is)

theorem visitSortItem_opens (x : SortItem) : Opens (some false) (visitSortItem env x) := by
  obtain ⟨expression, desc⟩ := x
  rw [visitSortItem]
  have hT := keepsNodes_traced env
  refine (visitExpression_opens env expression).before fun i => ?_
  split_ifs
  · exact keepsNodes_of_follows (hT.grows (Grown.appendNode (plain_of rfl rfl) [i]))
  · exact keepsNodes_of_follows (Follows.pure hT.toCompositional i)

theorem visitSortItems_opens (l : List SortItem) :
    Opens (l.head?.map fun _ => false) (visitSortItems env l) := by
  induction l with
  | nil =>
      rw [visitSortItems]
      exact Opens.pure []
  | cons sortItem rest ih =>
      rw [visitSortItems]
      exact (visitSortItem_opens env sortItem).bind fun i => ih.last fun is =>
        Opens.pure (i :: is)

theorem visitSelectElement_opens (x : SelectElement) :
    Opens (if x.isStar then none else some false) (visitSelectElement env x) := by
  cases x with
  | globalStar =>
      rw [visitSelectElement]
      have hstar : ∀ s ids t, visitSelectElement env .globalStar s = .returned ids t → t = s := by
        intro s ids t h
        rw [visitSelectElement] at h
        cases h
        rfl
      rw [visitSelectElement] at hstar
      refine ⟨fun s ids t h => ?_, fun s ids t _ _ h => hstar s ids t h⟩
      rw [hstar s ids t h]
      exact .refl _
  | tableStar tableName =>
      rw [visitSelectElement]
      exact Opens.pure []
  | expression expression aliasName =>
      cases aliasName with
      | none =>
          rw [visitSelectElement]
          exact (visitExpression_opens env expression).last fun i => Opens.pure [i]
      | some name =>
          rw [visitSelectElement]
          refine (visitExpression_opens env expression).before fun i s ids t h => ?_
          obtain ⟨⟨⟩, u, hname, hpure⟩ := bind_eq_returned.mp h
          rw [← (pure_eq_returned.mp hpure).2]
          exact setName_keeps hname

theorem visitSelectElements_opens (l : List SelectElement) :
    Opens (if l.all SelectElement.isStar then none else some false)
      (visitSelectElements env l) := by
  induction l with
  | nil =>
      rw [visitSelectElements]
      exact Opens.pure []
  | cons x rest ih =>
      have hfirst : (if (x :: rest).all SelectElement.isStar then none else some false) =
          (if x.isStar then none else some false).or
            (if rest.all SelectElement.isStar then none else some false) := by
        cases h : x.isStar <;> simp [h]
      rw [visitSelectElements, hfirst]
      exact (visitSelectElement_opens env x).bind fun is => ih.last fun js =>
        Opens.pure (is ++ js)

theorem constructSelect_opens (tableNodeIds columnNodeIds filters groupNodeIds
      orderNodeIds : List ℤ) (offsetNodeId limitNodeId : ℤ) :
    Opens (some true) (constructSelect tableNodeIds columnNodeIds filters groupNodeIds
      orderNodeIds offsetNodeId limitNodeId) where
  keeps s a t h := by
    obtain ⟨node, new, g, hnew, -, -, -, -, rfl⟩ := constructSelect_leaves (.returned a h)
    exact hnew.growsBy.keepsNodes
  begins s a t _ hsize h := by
    obtain ⟨node, new, g, hnew, -, hop, -, -, rfl⟩ := constructSelect_leaves (.returned a h)
    have hbegins : Begins (some (isTableOperation node.1.op)) s { s with outGraph := g } :=
      begins_of_growsBy hsize hnew.growsBy
    rwa [hop] at hbegins

end Clauses

section Relations

variable (env : Environment)

theorem not_valid_of_size {g : QueryGraph} (hsize : g.size = 0) (i : ℤ) : ¬g.Valid i := by
  rintro ⟨h0, hlt⟩
  rw [hsize] at hlt
  exact absurd (h0.trans_lt hlt) (lt_irrefl _)

theorem tables_of_size {s : VisitorState} (hs : s.Sound []) (hsize : s.outGraph.size = 0) :
    Tables env s ∧ ∀ name,
      (s.fileTableContext.find name).or (s.withTableContext.find name) = none := by
  have hfile : ∀ name, s.fileTableContext.find name = none := fun name =>
    Option.eq_none_iff_forall_ne_some.mpr fun i hi =>
      not_valid_of_size hsize i (hs.files i (OrderedMap.mem_values_of_find hi))
  have hcte : ∀ name, s.withTableContext.find name = none := fun name =>
    Option.eq_none_iff_forall_ne_some.mpr fun i hi =>
      not_valid_of_size hsize i (hs.ctes i (OrderedMap.mem_values_of_find hi))
  refine ⟨⟨hs.coherent.lengths, fun name i hi => ?_, fun name i hi => ?_⟩, fun name => ?_⟩
  · rw [hfile] at hi
    cases hi
  · rw [hcte] at hi
    cases hi
  · rw [hfile, hcte, Option.or_none]

theorem findOrInsertTable_opens (name : Bytes) :
    Opens (some ((env.tables.find? fun schema => schema.name = name).any fun schema =>
      schema.columns.isEmpty)) (findOrInsertTable env name) where
  keeps := keepsNodes_of_follows ((keepsNodes_traced env).findOrInsertTable name)
  begins s a t hs hsize h := by
    obtain ⟨htables, hfind⟩ := tables_of_size env hs hsize
    rw [findOrInsertTable_eq htables, hfind] at h
    rcases hschema : env.tables.find? (fun schema => schema.name = name) with _ | schema
    · rw [hschema] at h
      cases h
    · rw [hschema] at h
      obtain ⟨-, rfl⟩ := Outcome.returned.inj h
      have hgrows := insertTable_growsBy s.outGraph schema
      rw [hschema, Option.any_some]
      cases hcolumns : schema.columns with
      | nil =>
          rw [tableNodes, hcolumns] at hgrows
          exact @begins_of_growsBy s _ (tableOperation _, _) _ hsize hgrows
      | cons col rest =>
          rw [tableNodes, hcolumns] at hgrows
          exact @begins_of_growsBy s _ (columnOperation _ col, _) _ hsize hgrows

theorem or_some_of_map {α : Type} (x : Option α) (b : Bool) :
    (x.map fun _ => false).or (some b) = some (x.isNone && b) := by
  cases x <;> rfl

theorem or_some_of_head {α : Type} (l : List α) (b : Bool) :
    (l.head?.map fun _ => false).or (some b) = some (l.isEmpty && b) := by
  cases l <;> rfl

theorem or_some_of_ite (c b : Bool) :
    (if c then none else some false).or (some b) = some (c && b) := by
  cases c <;> rfl

/-- The parts of a select statement in the order of their visits. -/
theorem opensWithTable_eq {selectElement : SelectElement} {rest : List SelectElement}
    {fromClause : Option FromClause} {whereExpr limitExpr offsetExpr : Option Expression}
    {groupByExprs : List Expression} {sortItems : List SortItem} :
    some (SelectStatement.opensWithTable env (.mk selectElement rest fromClause whereExpr
      groupByExprs sortItems limitExpr offsetExpr)) =
      (fromOpensWithTable env fromClause).or
        ((if selectElement.isStar then none else some false).or
          ((if rest.all SelectElement.isStar then none else some false).or
            ((whereExpr.map fun _ => false).or ((groupByExprs.head?.map fun _ => false).or
              ((sortItems.head?.map fun _ => false).or ((offsetExpr.map fun _ => false).or
                ((limitExpr.map fun _ => false).or (some true)))))))) := by
  rw [SelectStatement.opensWithTable, or_some_of_map, or_some_of_map, or_some_of_head,
    or_some_of_head, or_some_of_map, or_some_of_ite, or_some_of_ite, List.all_cons]
  cases fromOpensWithTable env fromClause with
  | none => simp [Bool.and_assoc]
  | some table => rfl

-- The recursion follows the first relation of the first select statement.
mutual

theorem visitQueryExpression_opens : (x : QueryExpression) →
    Opens (some (x.opensWithTable env)) (visitQueryExpression env x)
  | .mk selectStatement rest => by
      have hT := keepsNodes_traced env
      rw [visitQueryExpression, QueryExpression.opensWithTable]
      exact (visitSelectStatement_opens selectStatement).castNode.before fun first =>
        keepsNodes_of_follows <| (visitSelectStatements_follows hT rest).bind hT.toCompositional
          fun nodeIds => hT.toAny (hT.unite_follows (first :: nodeIds))

theorem visitSelectStatement_opens : (x : SelectStatement) →
    Opens (some (x.opensWithTable env)) (visitSelectStatement env x)
  | .mk selectElement rest fromClause whereExpr groupByExprs sortItems limitExpr offsetExpr => by
      rw [visitSelectStatement]
      refine Opens.toAny (Opens.inScope ?_ (fun s hs => (enterSelect_sound [] s hs).1)
        (fun _ => rfl) fun _ _ => rfl)
      rw [opensWithTable_eq]
      refine (visitFrom_opens fromClause).bind fun p => ?_
      refine (visitSelectElement_opens env selectElement).bind fun columnNodeIds => ?_
      refine (visitSelectElements_opens env rest).bind fun otherNodeIds => ?_
      refine (visitOptional_opens env whereExpr).bind fun whereNodeId => ?_
      refine (visitExpressions_opens env groupByExprs).bind fun groupNodeIds => ?_
      refine (visitSortItems_opens env sortItems).bind fun orderNodeIds => ?_
      refine (visitOptional_opens env offsetExpr).bind fun offsetNodeId => ?_
      refine (visitOptional_opens env limitExpr).bind fun limitNodeId => ?_
      exact constructSelect_opens _ _ _ _ _ _ _

theorem visitFrom_opens : (x : Option FromClause) →
    Opens (fromOpensWithTable env x) (visitFrom env x)
  | none => by
      rw [visitFrom, fromOpensWithTable]
      exact Opens.pure ([], [])
  | some fromClause => by
      rw [visitFrom, fromOpensWithTable]
      exact visitFromClause_opens fromClause

theorem visitFromClause_opens : (x : FromClause) →
    Opens (some (x.opensWithTable env)) (visitFromClause env x)
  | .mk baseTable joins => by
      have hT := keepsNodes_traced env
      rw [visitFromClause, FromClause.opensWithTable]
      refine (visitRelation_opens baseTable).castNode.before fun tableNodeId s p t h => ?_
      obtain ⟨⟨⟩, u, henter, h⟩ := bind_eq_returned.mp h
      obtain ⟨q, v, hjoins, hpure⟩ := bind_eq_returned.mp h
      rw [← (pure_eq_returned.mp hpure).2]
      exact (enterTable_keeps henter).trans
        (keepsNodes_of_follows (visitJoins_follows hT joins) u q v hjoins)

theorem visitRelation_opens : (x : Relation) →
    Opens (some (x.opensWithTable env)) (visitRelation env x)
  | .table name aliasName => by
      rw [visitRelation, Relation.opensWithTable]
      exact (findOrInsertTable_opens env name).before fun tableNodeId _ _ _ =>
        nameRelation_keeps
  | .subquery queryExpression aliasName => by
      rw [visitRelation, Relation.opensWithTable]
      exact (visitQueryExpression_opens queryExpression).castNode.before fun tableNodeId _ _ _ =>
        nameRelation_keeps

end

theorem visitCtes_opens (l : List Cte) :
    Opens (l.head?.map fun cte => cte.expr.opensWithTable env) (visitCtes env l) := by
  induction l with
  | nil => exact Opens.pure ()
  | cons cte rest ih =>
      refine (visitQueryExpression_opens env cte.expr).castNode.before fun nodeId s b t h => ?_
      obtain ⟨⟨⟩, u, hinsert, hrest⟩ := bind_eq_returned.mp h
      cases hinsert
      exact ih.keeps (enterCte cte.aliasName nodeId s) b t hrest

theorem visitStatement_opens (statement : Statement) :
    Opens (some (statement.opensWithTable env)) (castNode (visitStatement env statement)) := by
  cases statement with
  | selectStmt queryExpression => exact (visitQueryExpression_opens env queryExpression).castNode
  | updateStmt => exact (Opens.throw _).castNode
  | deleteStmt => exact (Opens.throw _).castNode

theorem visitQuery_opens (ctx : QueryContext) :
    Opens (some (ctx.opensWithTable env)) (visitQuery env ctx) := by
  have hfirst : some (ctx.opensWithTable env) =
      (ctx.cte.head?.map fun cte => cte.expr.opensWithTable env).or
        (some (ctx.statement.opensWithTable env)) := by
    rw [QueryContext.opensWithTable]
    cases ctx.cte <;> rfl
  refine Opens.toAny (Opens.inScope ?_ (fun s hs => (enterQuery_sound [] s hs).1)
    (fun _ => rfl) fun _ _ => rfl)
  rw [hfirst]
  exact (visitCtes_opens env ctx.cte).bind fun _ => visitStatement_opens env ctx.statement

end Relations

end Parse

end DistStorage
