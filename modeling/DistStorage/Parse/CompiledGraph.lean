import DistStorage.Parse.Clauses

/-!
# The graph of a compiled query

Every visit keeps the graph coherent, so the graph that a query leaves behind is
well built unless it has a gap. A gap comes from a select statement with an
offset and no limit among the statements that make tables: the parts of a union,
the common table expressions, and the relations of `FROM` and `JOIN`. A select
statement inside an expression is not among them, because its visit returns no
node.
-/

namespace DistStorage

namespace Parse

open Cpp Query QueryGraph

mutual

/-- A select statement that makes a table has `OFFSET` and no `LIMIT`. -/
def QueryExpression.offsetWithoutLimit : QueryExpression → Bool
  | .mk selectStatement rest =>
      selectStatement.offsetWithoutLimit || selectsOffsetWithoutLimit rest

def selectsOffsetWithoutLimit : List SelectStatement → Bool
  | [] => false
  | selectStatement :: rest =>
      selectStatement.offsetWithoutLimit || selectsOffsetWithoutLimit rest

def SelectStatement.offsetWithoutLimit : SelectStatement → Bool
  | .mk _ _ fromClause _ _ _ limitExpr offsetExpr =>
      fromOffsetWithoutLimit fromClause || (offsetExpr.isSome && !limitExpr.isSome)

def fromOffsetWithoutLimit : Option FromClause → Bool
  | none => false
  | some fromClause => fromClause.offsetWithoutLimit

def FromClause.offsetWithoutLimit : FromClause → Bool
  | .mk baseTable joins => baseTable.offsetWithoutLimit || joinsOffsetWithoutLimit joins

def joinsOffsetWithoutLimit : List JoinClause → Bool
  | [] => false
  | joinClause :: rest => joinClause.offsetWithoutLimit || joinsOffsetWithoutLimit rest

def JoinClause.offsetWithoutLimit : JoinClause → Bool
  | .mk relation _ => relation.offsetWithoutLimit

def Relation.offsetWithoutLimit : Relation → Bool
  | .table _ _ => false
  | .subquery queryExpression _ => queryExpression.offsetWithoutLimit

end

def Statement.offsetWithoutLimit : Statement → Bool
  | .selectStmt queryExpression => queryExpression.offsetWithoutLimit
  | .updateStmt => false
  | .deleteStmt => false

def QueryContext.offsetWithoutLimit (ctx : QueryContext) : Bool :=
  ctx.cte.any (fun cte => cte.expr.offsetWithoutLimit) || ctx.statement.offsetWithoutLimit

theorem enterSelect_sound (ids : List ℤ) (s : VisitorState) (h : s.Sound ids) :
    (enterSelect s).Sound ids ∧ (enterSelect s).outGraph = s.outGraph :=
  ⟨⟨h.coherent, h.nodes, h.files, h.ctes, by simp [enterSelect]⟩, rfl⟩

/-- At the end of a scope the nodes of the contexts before it are still there. -/
theorem VisitorState.Sound.restored {ids : List ℤ} {old s : VisitorState}
    (h : s.Sound (old.contextNodes ++ ids)) :
    s.Sound ids ∧ (∀ i ∈ old.exprVarContext.values, s.outGraph.Valid i) ∧
      ∀ i ∈ old.withTableContext.values, s.outGraph.Valid i := by
  refine ⟨⟨h.coherent, fun i hi => h.nodes i (List.mem_append_right _ hi), h.files, h.ctes,
    h.vars⟩, fun i hi => h.nodes i ?_, fun i hi => h.nodes i ?_⟩
  · simp [VisitorState.contextNodes, hi]
  · simp [VisitorState.contextNodes, hi]

theorem leaveSelect_sound (ids : List ℤ) (old s : VisitorState)
    (h : s.Sound (old.contextNodes ++ ids)) :
    (leaveSelect old s).Sound ids ∧ (leaveSelect old s).outGraph = s.outGraph := by
  obtain ⟨hs, hvars, -⟩ := h.restored
  exact ⟨⟨hs.coherent, hs.nodes, hs.files, hs.ctes, hvars⟩, rfl⟩

theorem enterQuery_sound (ids : List ℤ) (s : VisitorState) (h : s.Sound ids) :
    (enterQuery s).Sound ids ∧ (enterQuery s).outGraph = s.outGraph :=
  ⟨⟨h.coherent, h.nodes, h.files, by simp [enterQuery], h.vars⟩, rfl⟩

theorem leaveQuery_sound (ids : List ℤ) (old s : VisitorState)
    (h : s.Sound (old.contextNodes ++ ids)) :
    (leaveQuery old s).Sound ids ∧ (leaveQuery old s).outGraph = s.outGraph := by
  obtain ⟨hs, -, hctes⟩ := h.restored
  exact ⟨⟨hs.coherent, hs.nodes, hs.files, hctes, hs.vars⟩, rfl⟩

theorem visitOptional_isSome (env : Environment) (x : Option Expression) {s t : VisitorState}
    {a : Option ℤ} (h : visitOptional env x s = .returned a t) : a.isSome = x.isSome := by
  cases x with
  | none =>
      rw [visitOptional] at h
      obtain ⟨rfl, -⟩ := Action.pure_eq_returned.mp h
      rfl
  | some expression =>
      rw [visitOptional] at h
      obtain ⟨nodeId, u, -, h⟩ := Action.bind_eq_returned.mp h
      obtain ⟨rfl, -⟩ := Action.pure_eq_returned.mp h
      rfl

section Recursion

variable (env : Environment)

-- One case for each constructor: the parts of a construct in the order of their
-- visits, then the node over them.
mutual

theorem visitQueryExpression_appends : (x : QueryExpression) →
    Appends (x.offsetWithoutLimit = true) [] (visitQueryExpression env x) Option.toList
  | .mk selectStatement rest => by
      rw [visitQueryExpression, QueryExpression.offsetWithoutLimit, Bool.or_eq_true]
      refine (visitSelectStatement_appends selectStatement).castNode.bind fun first => ?_
      refine ((visitSelectStatements_appends rest).of_nil.bind fun ids => ?_).congr
        (or_iff_left id)
      exact (appendUnlessSingle_appends (by simp) (by grind)).toAny

theorem visitSelectStatements_appends : (l : List SelectStatement) →
    Appends (selectsOffsetWithoutLimit l = true) [] (visitSelectStatements env l) fun ids => ids
  | [] => by
      rw [visitSelectStatements, selectsOffsetWithoutLimit]
      exact (Appends.pure (List.nil_subset _)).congr (by simp)
  | selectStatement :: rest => by
      rw [visitSelectStatements, selectsOffsetWithoutLimit, Bool.or_eq_true]
      refine (visitSelectStatement_appends selectStatement).castNode.bind fun selectNodeId => ?_
      refine ((visitSelectStatements_appends rest).of_nil.bind fun ids => ?_).congr
        (or_iff_left id)
      exact Appends.pure (by grind)

theorem visitSelectStatement_appends : (x : SelectStatement) →
    Appends (x.offsetWithoutLimit = true) [] (visitSelectStatement env x) Option.toList
  | .mk selectElement rest fromClause whereExpr groupByExprs sortItems limitExpr offsetExpr => by
      rw [visitSelectStatement, SelectStatement.offsetWithoutLimit, Bool.or_eq_true]
      refine (inScope_appends ?_ enterSelect_sound leaveSelect_sound).toAny
      refine (visitFrom_appends fromClause).bind fun tablesFilters => ?_
      refine (visitSelectElement_appends selectElement).of_nil.seq fun columnNodeIds => ?_
      refine (visitSelectElements_appends rest).of_nil.seq fun otherNodeIds => ?_
      refine (visitOptional_appends whereExpr).of_nil.seq fun whereNodeId => ?_
      refine (visitExpressions_appends groupByExprs).of_nil.seq fun groupNodeIds => ?_
      refine (visitSortItems_appends sortItems).of_nil.seq fun orderNodeIds => ?_
      refine (visitOptional_appends offsetExpr).of_nil.seq_of
        (visitOptional_isSome env offsetExpr) fun offset hoffset => ?_
      refine (visitOptional_appends limitExpr).of_nil.seq_of
        (visitOptional_isSome env limitExpr) fun limit hlimit => ?_
      rw [← hoffset, ← hlimit, Bool.and_eq_true, Bool.not_eq_true']
      exact constructSelect_appends (by grind) (by grind) (by grind) (by grind) (by grind)
        (by grind) (by grind)

theorem visitOptional_appends : (x : Option Expression) →
    Appends False [] (visitOptional env x) Option.toList
  | none => by
      rw [visitOptional]
      exact Appends.pure (List.nil_subset _)
  | some expression => by
      rw [visitOptional]
      exact (visitExpression_visits expression).castNode.seq fun nodeId => Appends.pure (by grind)

theorem visitFrom_appends : (x : Option FromClause) →
    Appends (fromOffsetWithoutLimit x = true) [] (visitFrom env x) fun p => p.1 ++ p.2
  | none => by
      rw [visitFrom, fromOffsetWithoutLimit]
      exact (Appends.pure (List.nil_subset _)).congr (by simp)
  | some fromClause => by
      rw [visitFrom, fromOffsetWithoutLimit]
      exact visitFromClause_appends fromClause

theorem visitFromClause_appends : (x : FromClause) →
    Appends (x.offsetWithoutLimit = true) [] (visitFromClause env x) fun p => p.1 ++ p.2
  | .mk baseTable joins => by
      rw [visitFromClause, FromClause.offsetWithoutLimit, Bool.or_eq_true]
      refine (visitRelation_appends baseTable).castNode.bind fun tableNodeId => ?_
      refine (enterTable_appends tableNodeId _).seq fun _ => ?_
      refine ((visitJoins_appends joins).of_nil.bind fun p => ?_).congr (or_iff_left id)
      exact Appends.pure (by grind)

theorem visitJoins_appends : (l : List JoinClause) →
    Appends (joinsOffsetWithoutLimit l = true) [] (visitJoins env l) fun p => p.1 ++ p.2
  | [] => by
      rw [visitJoins, joinsOffsetWithoutLimit]
      exact (Appends.pure (List.nil_subset _)).congr (by simp)
  | joinClause :: rest => by
      rw [visitJoins, joinsOffsetWithoutLimit, Bool.or_eq_true]
      refine (visitJoinClause_appends joinClause).bind fun p => ?_
      refine ((visitJoins_appends rest).of_nil.bind fun ps => ?_).congr (or_iff_left id)
      exact Appends.pure (by grind)

-- The first visit of the relation makes the same gaps as the second.
theorem visitJoinClause_appends : (x : JoinClause) →
    Appends (x.offsetWithoutLimit = true) [] (visitJoinClause env x) fun p => [p.1, p.2]
  | .mk relation onExpr => by
      rw [visitJoinClause, JoinClause.offsetWithoutLimit]
      refine ((visitRelation_appends relation).bind fun _ => ?_).congr (or_self_iff)
      refine ((visitRelation_appends relation).castNode.of_nil.bind fun tableNodeId => ?_).congr
        (or_iff_left id)
      refine (enterTable_appends tableNodeId _).seq fun _ => ?_
      refine (visitExpression_visits onExpr).castNode.of_nil.seq fun filter => ?_
      exact Appends.pure (by grind)

theorem visitRelation_appends : (x : Relation) →
    Appends (x.offsetWithoutLimit = true) [] (visitRelation env x) Option.toList
  | .table name aliasName => by
      rw [visitRelation, Relation.offsetWithoutLimit]
      refine ((findOrInsertTable_appends env name).seq fun tableNodeId => ?_).congr
        (iff_of_false id (by simp))
      exact nameRelation_appends (by simp) aliasName
  | .subquery queryExpression aliasName => by
      rw [visitRelation, Relation.offsetWithoutLimit]
      refine ((visitQueryExpression_appends queryExpression).castNode.bind
        fun tableNodeId => ?_).congr (or_iff_left id)
      exact nameRelation_appends (by simp) aliasName

theorem visitSelectElement_appends : (x : SelectElement) →
    Appends False [] (visitSelectElement env x) fun ids => ids
  | .globalStar => by
      rw [visitSelectElement]
      refine Appends.get_bind fun s hs => ⟨s.exprVarContext.values, hs.vars, ?_⟩
      have hstar := globalStar_subset s.exprVarContext
      exact Appends.pure (by grind)
  | .tableStar _ => by
      rw [visitSelectElement]
      exact Appends.pure (List.nil_subset _)
  | .expression expression none => by
      rw [visitSelectElement]
      exact (visitExpression_visits expression).castNode.seq fun _ => Appends.pure (by grind)
  | .expression expression (some aliasName) => by
      rw [visitSelectElement]
      refine (visitExpression_visits expression).castNode.seq fun elementNodeId => ?_
      exact (setName_appends elementNodeId aliasName).seq fun _ => Appends.pure (by grind)

theorem visitSelectElements_appends : (l : List SelectElement) →
    Appends False [] (visitSelectElements env l) fun ids => ids
  | [] => by
      rw [visitSelectElements]
      exact Appends.pure (List.nil_subset _)
  | selectElement :: rest => by
      rw [visitSelectElements]
      refine (visitSelectElement_appends selectElement).seq fun columnNodeIds => ?_
      refine (visitSelectElements_appends rest).of_nil.seq fun otherNodeIds => ?_
      exact Appends.pure (by grind)

theorem visitSortItem_appends : (x : SortItem) →
    Appends False [] (visitSortItem env x) fun i => [i]
  | .mk expression desc => by
      rw [visitSortItem]
      refine (visitExpression_visits expression).castNode.seq fun itemNodeId => ?_
      split_ifs
      · exact Appends.appendNode (by simp) nodeNone .Any (by grind)
      · exact Appends.pure (by grind)

theorem visitSortItems_appends : (l : List SortItem) →
    Appends False [] (visitSortItems env l) fun ids => ids
  | [] => by
      rw [visitSortItems]
      exact Appends.pure (List.nil_subset _)
  | sortItem :: rest => by
      rw [visitSortItems]
      refine (visitSortItem_appends sortItem).seq fun itemNodeId => ?_
      exact (visitSortItems_appends rest).of_nil.seq fun ids => Appends.pure (by grind)

theorem visitExpressions_appends : (l : List Expression) →
    Appends False [] (visitExpressions env l) fun ids => ids
  | [] => by
      rw [visitExpressions]
      exact Appends.pure (List.nil_subset _)
  | expression :: rest => by
      rw [visitExpressions]
      refine (visitExpression_visits expression).castNode.seq fun nodeId => ?_
      exact (visitExpressions_appends rest).of_nil.seq fun ids => Appends.pure (by grind)

theorem visitExpression_visits : (x : Expression) → Visits (visitExpression env x)
  | .mk orExpr => by
      rw [visitExpression]
      exact Visits.of_appends (visitOrExpr_visits orExpr).castNode.toAny

theorem visitOrExpr_visits : (x : OrExpr) → Visits (visitOrExpr env x)
  | .mk firstArg args => by
      rw [visitOrExpr]
      refine Visits.of_appends ((visitXorExpr_visits firstArg).castNode.seq fun first => ?_)
      refine (visitXorExprs_appends args).of_nil.seq fun ids => ?_
      exact (appendUnlessSingle_appends (by simp) (by grind)).toAny

theorem visitXorExprs_appends : (l : List XorExpr) →
    Appends False [] (visitXorExprs env l) fun ids => ids
  | [] => by
      rw [visitXorExprs]
      exact Appends.pure (List.nil_subset _)
  | arg :: rest => by
      rw [visitXorExprs]
      refine (visitXorExpr_visits arg).castNode.seq fun nodeId => ?_
      exact (visitXorExprs_appends rest).of_nil.seq fun ids => Appends.pure (by grind)

theorem visitXorExpr_visits : (x : XorExpr) → Visits (visitXorExpr env x)
  | .mk firstArg args => by
      rw [visitXorExpr]
      refine Visits.of_appends ((visitAndExpr_visits firstArg).castNode.seq fun first => ?_)
      refine (visitAndExprs_appends args).of_nil.seq fun ids => ?_
      exact (appendUnlessSingle_appends (by simp) (by grind)).toAny

theorem visitAndExprs_appends : (l : List AndExpr) →
    Appends False [] (visitAndExprs env l) fun ids => ids
  | [] => by
      rw [visitAndExprs]
      exact Appends.pure (List.nil_subset _)
  | arg :: rest => by
      rw [visitAndExprs]
      refine (visitAndExpr_visits arg).castNode.seq fun nodeId => ?_
      exact (visitAndExprs_appends rest).of_nil.seq fun ids => Appends.pure (by grind)

theorem visitAndExpr_visits : (x : AndExpr) → Visits (visitAndExpr env x)
  | .mk firstArg args => by
      rw [visitAndExpr]
      refine Visits.of_appends ((visitNotExpr_visits firstArg).castNode.seq fun first => ?_)
      refine (visitNotExprs_appends args).of_nil.seq fun ids => ?_
      exact (appendUnlessSingle_appends (by simp) (by grind)).toAny

theorem visitNotExprs_appends : (l : List NotExpr) →
    Appends False [] (visitNotExprs env l) fun ids => ids
  | [] => by
      rw [visitNotExprs]
      exact Appends.pure (List.nil_subset _)
  | arg :: rest => by
      rw [visitNotExprs]
      refine (visitNotExpr_visits arg).castNode.seq fun nodeId => ?_
      exact (visitNotExprs_appends rest).of_nil.seq fun ids => Appends.pure (by grind)

theorem visitNotExpr_visits : (x : NotExpr) → Visits (visitNotExpr env x)
  | .not op exprNot => by
      rw [visitNotExpr]
      refine Visits.of_appends ((visitNotExpr_visits exprNot).castNode.seq fun nodeId => ?_)
      exact (appendOperation_appends op.text (by grind)).toAny
  | .pass exprPass => by
      rw [visitNotExpr]
      exact Visits.of_appends (visitCmpExpr_visits exprPass).castNode.toAny

theorem visitCmpExpr_visits : (x : CmpExpr) → Visits (visitCmpExpr env x)
  | .comparisonExpr left tail => by
      rw [visitCmpExpr]
      refine Visits.of_appends ((visitMathExpr_visits left).castNode.seq fun leftNodeId => ?_)
      refine ((visitCmpTail_appends leftNodeId tail).weaken (by simp)).seq fun ids => ?_
      exact (appendUnlessSingle_appends (by simp) (by grind)).toAny
  | .isNullExpr _ op => by
      rw [visitCmpExpr]
      exact Visits.of_appends (appendOperation_appends op.text (List.nil_subset _)).toAny
  | .inExpr left right => by
      rw [visitCmpExpr]
      exact (VisitsNothing.bind (visitMathExpr_visits left).runs fun _ =>
        visitArrayExpression_nothing right).visits
  | .likeExpr left op right => by
      rw [visitCmpExpr]
      refine Visits.of_appends ((visitMathExpr_visits left).castNode.seq fun leftNodeId => ?_)
      refine (visitMathExpr_visits right).castNode.of_nil.seq fun rightNodeId => ?_
      exact (appendOperation_appends op.text (by grind)).toAny
  | .betweenExpr left notOp lower upper => by
      rw [visitCmpExpr]
      refine Visits.of_appends ((visitMathExpr_visits lower).castNode.seq fun lowerNodeId => ?_)
      refine (visitMathExpr_visits left).castNode.of_nil.seq fun middleNodeId => ?_
      refine (visitMathExpr_visits upper).castNode.of_nil.seq fun upperNodeId => ?_
      exact (appendBetween_appends notOp (by simp) (by simp) (by simp)).toAny
  | .mathFallthrough mathExpr => by
      rw [visitCmpExpr]
      exact visitMathExpr_visits mathExpr

theorem visitCmpTail_appends (leftNodeId : ℤ) : (x : CmpTail) →
    Appends False [leftNodeId] (visitCmpTail env leftNodeId x) fun ids => ids
  | .last op right => by
      rw [visitCmpTail]
      refine (visitMathExpr_visits right).castNode.of_nil.seq fun rightNodeId => ?_
      refine (appendComparison_appends op (by simp) (by simp)).seq fun cmpNodeId => ?_
      exact Appends.pure (by grind)
  | .cons op right rest => by
      rw [visitCmpTail]
      refine (visitMathExpr_visits right).castNode.of_nil.seq fun rightNodeId => ?_
      refine (appendComparison_appends op (by simp) (by simp)).seq fun cmpNodeId => ?_
      refine ((visitCmpTail_appends rightNodeId rest).weaken (by simp)).seq fun ids => ?_
      exact Appends.pure (by grind)

theorem visitMathExpr_visits : (x : MathExpr) → Visits (visitMathExpr env x)
  | .primaryBase primaryExpr => by
      rw [visitMathExpr]
      exact visitPrimaryExpr_visits primaryExpr
  | .castExpr left => by
      rw [visitMathExpr]
      exact (VisitsNothing.bind (visitMathExpr_visits left).runs fun _ =>
        VisitsNothing.pure).visits
  | .mulDivExpr left op right => by
      rw [visitMathExpr]
      refine Visits.of_appends ((visitMathExpr_visits left).castNode.seq fun leftNodeId => ?_)
      refine (visitMathExpr_visits right).castNode.of_nil.seq fun rightNodeId => ?_
      exact (appendOperation_appends op.text (by grind)).toAny
  | .addSubExpr left op right => by
      rw [visitMathExpr]
      refine Visits.of_appends ((visitMathExpr_visits left).castNode.seq fun leftNodeId => ?_)
      refine (visitMathExpr_visits right).castNode.of_nil.seq fun rightNodeId => ?_
      exact (appendOperation_appends op.text (by grind)).toAny

theorem visitPrimaryExpr_visits : (x : PrimaryExpr) → Visits (visitPrimaryExpr env x)
  | .parenthesizedExpr inside => by
      rw [visitPrimaryExpr]
      exact Visits.of_appends (visitExpression_visits inside).castNode.toAny
  | .subqueryExpr queryExpression => by
      rw [visitPrimaryExpr]
      exact (VisitsNothing.bind (visitQueryExpression_appends queryExpression).runs fun _ =>
        VisitsNothing.pure).visits
  | .functionExpr functionCall => by
      rw [visitPrimaryExpr]
      exact (visitFunctionCall_nothing functionCall).visits
  | .columnExpr tableName columnName => by
      rw [visitPrimaryExpr]
      exact visitColumnExpr_visits tableName columnName
  | .literalExpr literal => by
      rw [visitPrimaryExpr]
      exact visitLiteralExpr_visits env literal

theorem visitArrayExpression_nothing : (x : ArrayExpression) →
    VisitsNothing (visitArrayExpression env x)
  | .query queryExpression => by
      rw [visitArrayExpression]
      exact VisitsNothing.bind (visitQueryExpression_appends queryExpression).runs fun _ =>
        VisitsNothing.pure
  | .list first rest => by
      rw [visitArrayExpression]
      exact VisitsNothing.bind (visitExpression_visits first).runs fun _ =>
        visitArrayElements_nothing rest

theorem visitArrayElements_nothing : (l : List Expression) →
    VisitsNothing (visitArrayElements env l)
  | [] => by
      rw [visitArrayElements]
      exact VisitsNothing.pure
  | expression :: rest => by
      rw [visitArrayElements]
      exact VisitsNothing.bind (visitExpression_visits expression).runs fun _ =>
        visitArrayElements_nothing rest

theorem visitFunctionCall_nothing : (x : FunctionCall) →
    VisitsNothing (visitFunctionCall env x)
  | .standardFunction expression => by
      rw [visitFunctionCall]
      exact VisitsNothing.bind (visitExpression_visits expression).runs fun _ =>
        VisitsNothing.pure
  | .countStar => by
      rw [visitFunctionCall]
      exact VisitsNothing.pure
  | .countFunction expression => by
      rw [visitFunctionCall]
      exact VisitsNothing.bind (visitExpression_visits expression).runs fun _ =>
        VisitsNothing.pure

end

end Recursion

theorem visitStatement_appends (env : Environment) (statement : Statement) :
    Appends (statement.offsetWithoutLimit = true) [] (visitStatement env statement)
      Option.toList := by
  cases statement with
  | selectStmt queryExpression => exact visitQueryExpression_appends env queryExpression
  | updateStmt => exact Appends.throw _
  | deleteStmt => exact Appends.throw _

theorem visitCtes_appends (env : Environment) (ctes : List Cte) :
    Appends (ctes.any (fun cte => cte.expr.offsetWithoutLimit) = true) [] (visitCtes env ctes)
      fun _ => [] := by
  induction ctes with
  | nil => exact (Appends.pure (List.nil_subset _)).congr (by simp)
  | cons cte rest ih =>
      rw [List.any_cons, Bool.or_eq_true]
      refine (visitQueryExpression_appends env cte.expr).castNode.bind fun nodeId => ?_
      refine (insertCte_appends (by simp) cte.aliasName).seq fun _ => ?_
      exact ih.of_nil

theorem visitQuery_appends (env : Environment) (ctx : QueryContext) :
    Appends (ctx.offsetWithoutLimit = true) [] (visitQuery env ctx) Option.toList := by
  rw [QueryContext.offsetWithoutLimit, Bool.or_eq_true]
  refine (inScope_appends ?_ enterQuery_sound leaveQuery_sound).toAny
  refine (visitCtes_appends env ctx.cte).bind fun _ => ?_
  exact (visitStatement_appends env ctx.statement).castNode

/-- The graph of a query whose visit returns is well built exactly when no
select statement that makes a table has `OFFSET` without `LIMIT`. -/
theorem visitQuery_wellBuilt_iff (env : Environment) (ctx : QueryContext) {a : Any}
    {s : VisitorState} (h : visitQuery env ctx {} = .returned a s) :
    s.outGraph.WellBuilt ↔ ctx.offsetWithoutLimit = false := by
  have hstart : Building [] False ({} : VisitorState) :=
    ⟨VisitorState.sound_start, iff_false_intro not_hasGap_empty⟩
  obtain ⟨hsound, hgap⟩ :=
    (visitQuery_appends env ctx [] False (List.nil_subset _)).returned hstart h
  rw [hsound.coherent.wellBuilt_iff, hgap, false_or, Bool.not_eq_true]

/-- An expression that is one primary expression. -/
def Expression.ofPrimary (primaryExpr : PrimaryExpr) : Expression :=
  .mk (.mk (.mk (.mk (.pass (.mathFallthrough (.primaryBase primaryExpr))) []) []) [])

def Expression.ofInt (token : String) : Expression :=
  .ofPrimary (.literalExpr (.int false (bytes token)))

/-- One table `t` with a column `a`, and no floating point numbers. -/
def sampleEnvironment : Environment where
  tables := [{ name := bytes "t", columns := [{ name := bytes "a", type := .Int64 }] }]
  stod _ := .error .invalidArgument

def pagedQuery : QueryContext where
  cte := []
  statement := .selectStmt (.mk (.mk .globalStar [] (some (.mk (.subquery (.mk (.mk
    (.expression (.ofPrimary (.columnExpr none (bytes "a"))) none) []
    (some (.mk (.table (bytes "t") none) [])) none [] [] (some (.ofInt "3")) (some (.ofInt "2")))
    []) (some (bytes "u"))) [])) none [] [] none none) [])

theorem visitQuery_wellBuilt_iff_sample :
    ∃ a s, visitQuery sampleEnvironment pagedQuery {} = .returned a s ∧
      (s.outGraph.WellBuilt ↔ pagedQuery.offsetWithoutLimit = false) := by
  have hrun : (visitQuery sampleEnvironment pagedQuery {}).returns fun _ _ => true := by
    decide +kernel
  obtain ⟨a, s, h, -⟩ := Outcome.exists_of_returns hrun
  exact ⟨a, s, h, visitQuery_wellBuilt_iff sampleEnvironment pagedQuery h⟩

def offsetQuery : QueryContext where
  cte := []
  statement := .selectStmt (.mk (.mk (.expression (.ofInt "1") none) [] none none [] [] none
    (some (.ofInt "2"))) [])

/-- The last node of `offsetQuery` has the absent node as its third child. -/
theorem offsetQuery_not_wellBuilt :
    ∃ s, visitQuery sampleEnvironment offsetQuery {} = .returned (some 3) s ∧
      s.outGraph.graphMapping = [[], [], [0], [2, 1, -1]] ∧ ¬ s.outGraph.WellBuilt := by
  have hrun : (visitQuery sampleEnvironment offsetQuery {}).returns fun a s =>
      a = some 3 && s.outGraph.graphMapping = [[], [], [0], [2, 1, -1]] := by
    decide +kernel
  obtain ⟨a, s, h, hgraph⟩ := Outcome.exists_of_returns hrun
  obtain ⟨rfl, hmapping⟩ : a = some 3 ∧ s.outGraph.graphMapping = [[], [], [0], [2, 1, -1]] := by
    simpa using hgraph
  refine ⟨s, h, hmapping, fun hbuilt => ?_⟩
  have hchild : (-1 : ℤ) ∈ s.outGraph.children 3 := by simp [OpGraph.children, Cpp.index, hmapping]
  exact absurd (hbuilt.childrenFirst 3 (by simp [hmapping]) (-1) hchild).1 (by decide)

end Parse

end DistStorage
