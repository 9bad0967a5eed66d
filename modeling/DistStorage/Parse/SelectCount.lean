import DistStorage.Parse.SelectList
import DistStorage.Parse.SilentExpressions

/-!
# How often a select statement is compiled

Each compiled select statement makes one `DF` node, so the `DF` nodes of a graph
tell how many were compiled. The relation of a `JOIN` is visited twice, and so
is every select statement in it, at each level of nesting anew. An expression
that compiles has no select statement but under `IS NULL`, whose operand is not
visited. `tally j e` counts the statements of a parse tree, those in the
relations of joins `j` times and those in expressions `e` times.
-/

namespace DistStorage

namespace Parse

open Cpp Cpp.Action Query QueryGraph

mutual

def QueryExpression.tally (j e : ℕ) : QueryExpression → ℕ
  | .mk selectStatement rest => selectStatement.tally j e + selectStatementsTally j e rest

def selectStatementsTally (j e : ℕ) : List SelectStatement → ℕ
  | [] => 0
  | selectStatement :: rest => selectStatement.tally j e + selectStatementsTally j e rest

def SelectStatement.tally (j e : ℕ) : SelectStatement → ℕ
  | .mk selectElement rest fromClause whereExpr groupByExprs sortItems limitExpr offsetExpr =>
      fromTally j e fromClause +
        e * (selectElement.tally j e + selectElementsTally j e rest + optionalTally j e whereExpr +
          expressionsTally j e groupByExprs + sortItemsTally j e sortItems +
          optionalTally j e offsetExpr + optionalTally j e limitExpr) + 1

def optionalTally (j e : ℕ) : Option Expression → ℕ
  | none => 0
  | some expression => expression.tally j e

def fromTally (j e : ℕ) : Option FromClause → ℕ
  | none => 0
  | some fromClause => fromClause.tally j e

def FromClause.tally (j e : ℕ) : FromClause → ℕ
  | .mk baseTable joins => baseTable.tally j e + joinsTally j e joins

def joinsTally (j e : ℕ) : List JoinClause → ℕ
  | [] => 0
  | joinClause :: rest => joinClause.tally j e + joinsTally j e rest

def JoinClause.tally (j e : ℕ) : JoinClause → ℕ
  | .mk relation onExpr => j * relation.tally j e + e * onExpr.tally j e

def Relation.tally (j e : ℕ) : Relation → ℕ
  | .table _ _ => 0
  | .subquery queryExpression _ => queryExpression.tally j e

def SelectElement.tally (j e : ℕ) : SelectElement → ℕ
  | .globalStar => 0
  | .tableStar _ => 0
  | .expression expression _ => expression.tally j e

def selectElementsTally (j e : ℕ) : List SelectElement → ℕ
  | [] => 0
  | selectElement :: rest => selectElement.tally j e + selectElementsTally j e rest

def SortItem.tally (j e : ℕ) : SortItem → ℕ
  | .mk expression _ => expression.tally j e

def sortItemsTally (j e : ℕ) : List SortItem → ℕ
  | [] => 0
  | sortItem :: rest => sortItem.tally j e + sortItemsTally j e rest

def expressionsTally (j e : ℕ) : List Expression → ℕ
  | [] => 0
  | expression :: rest => expression.tally j e + expressionsTally j e rest

def Expression.tally (j e : ℕ) : Expression → ℕ
  | .mk orExpr => orExpr.tally j e

def OrExpr.tally (j e : ℕ) : OrExpr → ℕ
  | .mk firstArg args => firstArg.tally j e + xorExprsTally j e args

def xorExprsTally (j e : ℕ) : List XorExpr → ℕ
  | [] => 0
  | arg :: rest => arg.tally j e + xorExprsTally j e rest

def XorExpr.tally (j e : ℕ) : XorExpr → ℕ
  | .mk firstArg args => firstArg.tally j e + andExprsTally j e args

def andExprsTally (j e : ℕ) : List AndExpr → ℕ
  | [] => 0
  | arg :: rest => arg.tally j e + andExprsTally j e rest

def AndExpr.tally (j e : ℕ) : AndExpr → ℕ
  | .mk firstArg args => firstArg.tally j e + notExprsTally j e args

def notExprsTally (j e : ℕ) : List NotExpr → ℕ
  | [] => 0
  | arg :: rest => arg.tally j e + notExprsTally j e rest

def NotExpr.tally (j e : ℕ) : NotExpr → ℕ
  | .not _ exprNot => exprNot.tally j e
  | .pass exprPass => exprPass.tally j e

def CmpExpr.tally (j e : ℕ) : CmpExpr → ℕ
  | .comparisonExpr left tail => left.tally j e + tail.tally j e
  | .isNullExpr left _ => left.tally j e
  | .inExpr left right => left.tally j e + right.tally j e
  | .likeExpr left _ right => left.tally j e + right.tally j e
  | .betweenExpr left _ lower upper => left.tally j e + lower.tally j e + upper.tally j e
  | .mathFallthrough mathExpr => mathExpr.tally j e

def CmpTail.tally (j e : ℕ) : CmpTail → ℕ
  | .last _ right => right.tally j e
  | .cons _ right rest => right.tally j e + rest.tally j e

def MathExpr.tally (j e : ℕ) : MathExpr → ℕ
  | .primaryBase primaryExpr => primaryExpr.tally j e
  | .castExpr left => left.tally j e
  | .mulDivExpr left _ right => left.tally j e + right.tally j e
  | .addSubExpr left _ right => left.tally j e + right.tally j e

def PrimaryExpr.tally (j e : ℕ) : PrimaryExpr → ℕ
  | .parenthesizedExpr inside => inside.tally j e
  | .subqueryExpr queryExpression => queryExpression.tally j e
  | .functionExpr functionCall => functionCall.tally j e
  | .columnExpr _ _ => 0
  | .literalExpr _ => 0

def ArrayExpression.tally (j e : ℕ) : ArrayExpression → ℕ
  | .query queryExpression => queryExpression.tally j e
  | .list first rest => first.tally j e + expressionsTally j e rest

def FunctionCall.tally (j e : ℕ) : FunctionCall → ℕ
  | .standardFunction expression => expression.tally j e
  | .countStar => 0
  | .countFunction expression => expression.tally j e

end

def Statement.tally (j e : ℕ) : Statement → ℕ
  | .selectStmt queryExpression => queryExpression.tally j e
  | .updateStmt => 0
  | .deleteStmt => 0

def ctesTally (j e : ℕ) : List Cte → ℕ
  | [] => 0
  | cte :: rest => cte.expr.tally j e + ctesTally j e rest

def QueryContext.tally (j e : ℕ) (ctx : QueryContext) : ℕ :=
  ctesTally j e ctx.cte + ctx.statement.tally j e

def QueryContext.selects (ctx : QueryContext) : ℕ := ctx.tally 1 1

def dfCount (g : OpGraph) : ℕ := (g.operations.map Operation.op).count .DF

/-- The action makes a number of `DF` nodes when it returns. -/
def Makes {α : Type} (m : Visit α) (n : ℕ) : Prop :=
  ∀ s a t, m s = .returned a t →
    dfCount t.outGraph.toOpGraph = dfCount s.outGraph.toOpGraph + n

theorem dfCount_append (g : OpGraph) (new : List (Operation × List ℤ)) :
    dfCount (g.append new) = dfCount g + (new.map fun node => node.1.op).count .DF := by
  simp [dfCount, OpGraph.append, Function.comp_def]

theorem dfCount_append_of_ne {g : OpGraph} {new : List (Operation × List ℤ)}
    (h : ∀ node ∈ new, node.1.op ≠ .DF) : dfCount (g.append new) = dfCount g := by
  rw [dfCount_append, Nat.add_eq_left, List.count_eq_zero]
  intro hmem
  obtain ⟨node, hnode, hop⟩ := List.mem_map.mp hmem
  exact h node hnode hop

theorem dfCount_setNodeName {g g' : QueryGraph} {nodeId : ℤ} {name : Bytes}
    (h : g.setNodeName nodeId name = some g') :
    dfCount g'.toOpGraph = dfCount g.toOpGraph := by
  obtain ⟨o, -, rfl⟩ := Option.map_eq_some_iff.mp h
  rw [dfCount, dfCount]
  refine congrArg _ (Cpp.map_modify fun o => ?_)
  rfl

section Rules

variable {α β : Type} {m : Visit α} {f : α → Visit β} {n k : ℕ}

namespace Makes

protected theorem pure (a : α) : Makes (pure a) 0 := by
  intro s b t h
  obtain ⟨-, rfl⟩ := pure_eq_returned.mp h
  rfl

protected theorem throw (e : Exception) : Makes (Action.throw e : Visit α) n := by
  intro s a t h
  cases h

protected theorem bind (hm : Makes m n) (hf : ∀ a, Makes (f a) k) : Makes (m >>= f) (n + k) := by
  intro s b u h
  obtain ⟨a, t, hms, h⟩ := bind_eq_returned.mp h
  rw [hf a t b u h, hm s a t hms, Nat.add_assoc]

theorem seq (hm : Makes m 0) (hf : ∀ a, Makes (f a) k) : Makes (m >>= f) k := by
  have h := hm.bind hf
  rwa [Nat.zero_add] at h

theorem last (hm : Makes m n) (hf : ∀ a, Makes (f a) 0) : Makes (m >>= f) n :=
  hm.bind hf

protected theorem toAny {m : Visit ℤ} (hm : Makes m n) : Makes (toAny m) n :=
  hm.last fun _ => Makes.pure _

protected theorem castNode {m : Visit Any} (hm : Makes m n) : Makes (castNode m) n := by
  refine hm.last fun a => ?_
  cases a with
  | none => exact Makes.throw _
  | some i => exact Makes.pure i

theorem of_leaves (h : ∀ s t, Leaves m s t →
    dfCount t.outGraph.toOpGraph = dfCount s.outGraph.toOpGraph) : Makes m 0 :=
  fun s a t hm => h s t (.returned a hm)

theorem of_grown {p : Operation → Prop} (hp : ∀ o, p o → o.op ≠ .DF)
    (h : ∀ s a t, m s = .returned a t → Grown p s [] t) : Makes m 0 := by
  intro s a t hm
  obtain ⟨new, g, hnew, hplain, rfl⟩ := h s a t hm
  change dfCount g.toOpGraph = _
  rw [hnew.graph_eq]
  exact dfCount_append_of_ne fun node hnode => hp node.1 (hplain node hnode)

theorem inScope {enter : VisitorState → VisitorState}
    {leave : VisitorState → VisitorState → VisitorState} (hm : Makes m n)
    (henter : ∀ s, (enter s).outGraph = s.outGraph)
    (hleave : ∀ s t, (leave s t).outGraph = t.outGraph) : Makes (inScope enter leave m) n := by
  intro s a u h
  obtain ⟨t, hms, rfl⟩ := inScope_eq_returned.mp h
  rw [hleave, hm _ a t hms, henter]

end Makes

end Rules

theorem findOrInsertTable_makes (env : Environment) (name : Bytes) :
    Makes (findOrInsertTable env name) 0 := by
  refine Makes.of_leaves fun s t h => ?_
  rcases findOrInsertTable_leaves h with rfl | ⟨schema, -, -, rfl⟩
  · rfl
  · refine dfCount_append_of_ne fun node hnode => ?_
    rcases List.mem_append.mp hnode with hcolumn | htable
    · rw [op_of_mem_columnNodes hcolumn]
      simp
    · rw [List.mem_singleton.mp htable]
      simp [tableOperation]

theorem setName_makes (nodeId : ℤ) (name : Bytes) : Makes (setName nodeId name) 0 := by
  refine Makes.of_leaves fun s t h => ?_
  obtain ⟨g, hg, rfl⟩ := setName_leaves h
  exact dfCount_setNodeName hg

theorem nameRelation_makes (tableNodeId : ℤ) (aliasName : Option Bytes) :
    Makes (nameRelation tableNodeId aliasName) 0 := by
  intro s a u h
  obtain ⟨s', v, hread, h⟩ := bind_eq_returned.mp h
  cases hread
  obtain ⟨exprName, v, hname, h⟩ := bind_eq_returned.mp h
  obtain rfl : s = v := by
    cases hget : s.outGraph.getNodeName tableNodeId with
    | none =>
        rw [hget] at hname
        cases hname
    | some name =>
        rw [hget] at hname
        cases hname
        rfl
  dsimp only at h
  split_ifs at h
  · exact (setName_makes _ _).last (fun _ => Makes.pure _) s a u h
  · exact Makes.pure _ s a u h

theorem enterTable_makes (tableNodeId : ℤ) (aliasName : Option Bytes) :
    Makes (enterTable tableNodeId aliasName) 0 := by
  refine Makes.of_leaves fun s t h => ?_
  obtain ⟨tableAlias, ctx, -, -, rfl⟩ := enterTable_leaves h
  rfl

theorem constructSelect_makes (tableNodeIds columnNodeIds filters groupNodeIds
      orderNodeIds : List ℤ) (offsetNodeId limitNodeId : ℤ) :
    Makes (constructSelect tableNodeIds columnNodeIds filters groupNodeIds orderNodeIds
      offsetNodeId limitNodeId) 1 := by
  intro s a t h
  obtain ⟨node, new, g, hnew, -, hframe, -, hover, rfl⟩ := constructSelect_leaves (.returned a h)
  have hone : node :: new = [node] ++ new := rfl
  change dfCount g.toOpGraph = _
  rw [hnew.graph_eq, hone, ← OpGraph.append_append,
    dfCount_append_of_ne fun other hother => (hover other hother).2, dfCount_append]
  simp [hframe]

theorem unite_makes (nodeIds : List ℤ) : Makes (appendUnlessSingle .UNION nodeIds) 0 := by
  have hgrown : Follows (Grown fun o => o.op = .UNION) Unbound (appendUnlessSingle .UNION nodeIds)
      fun _ => [] :=
    Grown.appendUnlessSingle (p := fun o => o.op = .UNION) rfl nodeIds
  refine Makes.of_grown (p := fun o => o.op = .UNION) ?_ fun s a t h =>
    (hgrown s).leaves t (.returned a h)
  intro o ho
  rw [ho]
  simp

section Recursion

variable (env : Environment)

theorem visitExpression_makes (x : Expression) : Makes (castNode (visitExpression env x)) 0 :=
  Makes.of_grown (fun _ ho => ho.ne_df) fun _ _ _ h => visitExpression_grown h

theorem visitSelectElement_makes (x : SelectElement) : Makes (visitSelectElement env x) 0 := by
  cases x with
  | globalStar =>
      intro s a t h
      rw [visitSelectElement] at h
      obtain ⟨u, s', hread, h⟩ := bind_eq_returned.mp h
      cases hread
      exact Makes.pure _ s a t h
  | tableStar tableName =>
      rw [visitSelectElement]
      exact Makes.pure []
  | expression expression aliasName =>
      cases aliasName with
      | none =>
          rw [visitSelectElement]
          exact (visitExpression_makes env expression).last fun _ => Makes.pure _
      | some aliasName =>
          rw [visitSelectElement]
          refine (visitExpression_makes env expression).last fun i => ?_
          exact (setName_makes i aliasName).last fun _ => Makes.pure _

theorem visitSelectElements_makes (l : List SelectElement) :
    Makes (visitSelectElements env l) 0 := by
  induction l with
  | nil =>
      rw [visitSelectElements]
      exact Makes.pure []
  | cons selectElement rest ih =>
      rw [visitSelectElements]
      exact (visitSelectElement_makes env selectElement).last fun _ =>
        ih.last fun _ => Makes.pure _

-- One case for each construct that makes tables: it is compiled once for each of
-- its visits, and the relation of a join is visited twice.
mutual

theorem visitQueryExpression_makes : (x : QueryExpression) →
    Makes (visitQueryExpression env x) (x.tally 2 0)
  | .mk selectStatement rest => by
      rw [visitQueryExpression, QueryExpression.tally]
      refine (visitSelectStatement_makes selectStatement).castNode.bind fun first => ?_
      exact (visitSelectStatements_makes rest).last fun nodeIds => (unite_makes _).toAny

theorem visitSelectStatements_makes : (l : List SelectStatement) →
    Makes (visitSelectStatements env l) (selectStatementsTally 2 0 l)
  | [] => by
      rw [visitSelectStatements, selectStatementsTally]
      exact Makes.pure []
  | selectStatement :: rest => by
      rw [visitSelectStatements, selectStatementsTally]
      refine (visitSelectStatement_makes selectStatement).castNode.bind fun _ => ?_
      exact (visitSelectStatements_makes rest).last fun _ => Makes.pure _

theorem visitSelectStatement_makes : (x : SelectStatement) →
    Makes (visitSelectStatement env x) (x.tally 2 0)
  | .mk selectElement rest fromClause whereExpr groupByExprs sortItems limitExpr offsetExpr => by
      rw [visitSelectStatement, SelectStatement.tally, Nat.zero_mul, Nat.add_zero]
      refine (Makes.inScope ?_ (by intro; rfl) (by intros; rfl)).toAny
      refine (visitFrom_makes fromClause).bind fun p => ?_
      refine (visitSelectElement_makes env selectElement).seq fun _ => ?_
      refine (visitSelectElements_makes env rest).seq fun _ => ?_
      refine (Makes.of_grown (fun _ ho => ho.ne_df) fun _ _ _ => visitOptional_grown).seq
        fun _ => ?_
      refine (Makes.of_grown (fun _ ho => ho.ne_df) fun _ _ _ => visitExpressions_grown).seq
        fun _ => ?_
      refine (Makes.of_grown (fun _ ho => ho.ne_df) fun _ _ _ => visitSortItems_grown).seq
        fun _ => ?_
      refine (Makes.of_grown (fun _ ho => ho.ne_df) fun _ _ _ => visitOptional_grown).seq
        fun _ => ?_
      refine (Makes.of_grown (fun _ ho => ho.ne_df) fun _ _ _ => visitOptional_grown).seq
        fun _ => ?_
      exact constructSelect_makes _ _ _ _ _ _ _

theorem visitFrom_makes : (x : Option FromClause) → Makes (visitFrom env x) (fromTally 2 0 x)
  | none => by
      rw [visitFrom, fromTally]
      exact Makes.pure _
  | some fromClause => by
      rw [visitFrom, fromTally]
      exact visitFromClause_makes fromClause

theorem visitFromClause_makes : (x : FromClause) →
    Makes (visitFromClause env x) (x.tally 2 0)
  | .mk baseTable joins => by
      rw [visitFromClause, FromClause.tally]
      refine (visitRelation_makes baseTable).castNode.bind fun tableNodeId => ?_
      refine (enterTable_makes tableNodeId _).seq fun _ => ?_
      exact (visitJoins_makes joins).last fun _ => Makes.pure _

theorem visitJoins_makes : (l : List JoinClause) → Makes (visitJoins env l) (joinsTally 2 0 l)
  | [] => by
      rw [visitJoins, joinsTally]
      exact Makes.pure _
  | joinClause :: rest => by
      rw [visitJoins, joinsTally]
      refine (visitJoinClause_makes joinClause).bind fun _ => ?_
      exact (visitJoins_makes rest).last fun _ => Makes.pure _

theorem visitJoinClause_makes : (x : JoinClause) →
    Makes (visitJoinClause env x) (x.tally 2 0)
  | .mk relation onExpr => by
      rw [visitJoinClause, JoinClause.tally, Nat.zero_mul, Nat.add_zero, Nat.two_mul]
      refine (visitRelation_makes relation).bind fun _ => ?_
      refine (visitRelation_makes relation).castNode.last fun tableNodeId => ?_
      refine (enterTable_makes tableNodeId _).seq fun _ => ?_
      exact (visitExpression_makes env onExpr).last fun _ => Makes.pure _

theorem visitRelation_makes : (x : Relation) → Makes (visitRelation env x) (x.tally 2 0)
  | .table name aliasName => by
      rw [visitRelation, Relation.tally]
      exact (findOrInsertTable_makes env name).last fun _ => nameRelation_makes _ _
  | .subquery queryExpression aliasName => by
      rw [visitRelation, Relation.tally]
      exact (visitQueryExpression_makes queryExpression).castNode.last fun _ =>
        nameRelation_makes _ _

end

theorem visitStatement_makes (x : Statement) : Makes (visitStatement env x) (x.tally 2 0) := by
  cases x with
  | selectStmt queryExpression => exact visitQueryExpression_makes env queryExpression
  | updateStmt => exact Makes.throw _
  | deleteStmt => exact Makes.throw _

theorem visitCtes_makes (l : List Cte) : Makes (visitCtes env l) (ctesTally 2 0 l) := by
  induction l with
  | nil => exact Makes.pure ()
  | cons cte rest ih =>
      rw [visitCtes, ctesTally]
      refine (visitQueryExpression_makes env cte.expr).castNode.bind fun nodeId => ?_
      refine Makes.seq (Makes.of_leaves fun s t h => ?_) fun _ => ih
      rw [← eq_of_leaves_modify h]

theorem visitQuery_makes (ctx : QueryContext) : Makes (visitQuery env ctx) (ctx.tally 2 0) := by
  rw [visitQuery, QueryContext.tally]
  refine (Makes.inScope ?_ (by intro; rfl) (by intros; rfl)).toAny
  exact (visitCtes_makes env ctx.cte).bind fun _ => (visitStatement_makes env _).castNode

end Recursion

/-- Every select statement of a query is compiled once exactly when those that
are compiled again in a join are as many as those that are not visited. -/
theorem dfCount_eq_selects_iff (env : Environment) (ctx : QueryContext) {a : Any}
    {t : VisitorState} (h : visitQuery env ctx {} = .returned a t) :
    dfCount t.outGraph.toOpGraph = ctx.selects ↔ ctx.tally 2 0 = ctx.selects := by
  have hcount : dfCount t.outGraph.toOpGraph = 0 + ctx.tally 2 0 :=
    visitQuery_makes env ctx {} a t h
  rw [hcount, Nat.zero_add]

theorem dfCount_eq_selects_iff_sample : ∃ a t,
    visitQuery sampleEnvironment pagedQuery {} = .returned a t ∧
      dfCount t.outGraph.toOpGraph = pagedQuery.selects := by
  have hrun : (visitQuery sampleEnvironment pagedQuery {}).returns fun _ _ => true := by
    decide +kernel
  obtain ⟨a, t, h, -⟩ := Outcome.exists_of_returns hrun
  exact ⟨a, t, h, (dfCount_eq_selects_iff sampleEnvironment pagedQuery h).mpr (by decide)⟩

def joinQuery : QueryContext where
  cte := []
  statement := .selectStmt (.mk (.mk (.expression (.ofInt "1") none) []
    (some (.mk (.table (bytes "t") none) [.mk (.subquery (.mk (.mk
      (.expression (.ofInt "2") none) [] none none [] [] none none) []) (some (bytes "q")))
      (.ofPrimary (.literalExpr .trueKw))])) none [] [] none none) [])

/-- The relation of the join is compiled twice. -/
theorem join_compiled_twice : ∃ a t,
    visitQuery sampleEnvironment joinQuery {} = .returned a t ∧
      dfCount t.outGraph.toOpGraph = 3 ∧ joinQuery.selects = 2 := by
  have hrun : (visitQuery sampleEnvironment joinQuery {}).returns fun _ t =>
      dfCount t.outGraph.toOpGraph = 3 := by
    decide +kernel
  obtain ⟨a, t, h, hcount⟩ := Outcome.exists_of_returns hrun
  exact ⟨a, t, h, of_decide_eq_true hcount, by decide⟩

end Parse

end DistStorage
