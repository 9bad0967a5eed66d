import DistStorage.Parse.CompiledGraph
import DistStorage.Parse.Failing

/-!
# Queries whose errors are reported

A query that cannot be compiled is to end in a `SqlCompileError`, which names the
place of the error. `Escapes` says of a construct and of the state before its
visit that the visit comes to something it cannot do and does not report: a
cast, a function call, an `IN` or a subquery whose node is asked for, a number
out of range, or a relation with an absent child. What the visit comes to
depends on the names it resolves on the way, because a name that is not
resolved is reported and ends the visit.
-/

namespace DistStorage

namespace Parse

open Cpp Query QueryGraph

/-- The alternatives whose last child is a terminal, so that their default visit
gives no node. -/
def PrimaryExpr.nodeless : PrimaryExpr → Bool
  | .subqueryExpr _ => true
  | .functionExpr _ => true
  | _ => false

def MathExpr.nodeless : MathExpr → Bool
  | .primaryBase primaryExpr => primaryExpr.nodeless
  | .castExpr _ => true
  | _ => false

def CmpExpr.nodeless : CmpExpr → Bool
  | .inExpr _ _ => true
  | .mathFallthrough mathExpr => mathExpr.nodeless
  | _ => false

mutual

def QueryExpression.Escapes (env : Environment) : QueryExpression → VisitorState → Prop
  | .mk selectStatement rest =>
      OrAfter (selectStatement.Escapes env) (castNode (visitSelectStatement env selectStatement))
        fun _ => selectStatementsEscape env rest

def selectStatementsEscape (env : Environment) : List SelectStatement → VisitorState → Prop
  | [] => fun _ => False
  | selectStatement :: rest =>
      OrAfter (selectStatement.Escapes env) (castNode (visitSelectStatement env selectStatement))
        fun _ => selectStatementsEscape env rest

/-- The clauses in the order of their visits. -/
def SelectStatement.Escapes (env : Environment) : SelectStatement → VisitorState → Prop
  | .mk selectElement rest fromClause whereExpr groupByExprs sortItems limitExpr offsetExpr =>
      fun s =>
        OrAfter (fromEscapes env fromClause) (visitFrom env fromClause) (fun _ =>
          OrAfter (selectElement.Escapes env) (visitSelectElement env selectElement) fun _ =>
          OrAfter (selectElementsEscape env rest) (visitSelectElements env rest) fun _ =>
          OrAfter (optionalEscapes env whereExpr) (visitOptional env whereExpr) fun _ =>
          OrAfter (expressionsEscape env groupByExprs) (visitExpressions env groupByExprs) fun _ =>
          OrAfter (sortItemsEscape env sortItems) (visitSortItems env sortItems) fun _ =>
          OrAfter (optionalEscapes env offsetExpr) (visitOptional env offsetExpr) fun _ =>
          optionalEscapes env limitExpr) (enterSelect s)

def optionalEscapes (env : Environment) : Option Expression → VisitorState → Prop
  | none => fun _ => False
  | some expression => expression.Escapes env

def fromEscapes (env : Environment) : Option FromClause → VisitorState → Prop
  | none => fun _ => False
  | some fromClause => fromClause.Escapes env

def FromClause.Escapes (env : Environment) : FromClause → VisitorState → Prop
  | .mk baseTable joins =>
      OrAfter (baseTable.Escapes env) (castNode (visitRelation env baseTable)) fun tableNodeId =>
        OrAfter (HasAbsentChild tableNodeId) (enterTable tableNodeId baseTable.aliasName) fun _ =>
          joinsEscape env joins

def joinsEscape (env : Environment) : List JoinClause → VisitorState → Prop
  | [] => fun _ => False
  | joinClause :: rest =>
      OrAfter (joinClause.Escapes env) (visitJoinClause env joinClause) fun _ =>
        joinsEscape env rest

def JoinClause.Escapes (env : Environment) : JoinClause → VisitorState → Prop
  | .mk relation onExpr =>
      OrAfter (relation.Escapes env) (visitRelation env relation) fun _ =>
        OrAfter (relation.Escapes env) (castNode (visitRelation env relation)) fun tableNodeId =>
          OrAfter (HasAbsentChild tableNodeId) (enterTable tableNodeId relation.aliasName) fun _ =>
            onExpr.Escapes env

def Relation.Escapes (env : Environment) : Relation → VisitorState → Prop
  | .table _ _ => fun _ => False
  | .subquery queryExpression _ => queryExpression.Escapes env

def SelectElement.Escapes (env : Environment) : SelectElement → VisitorState → Prop
  | .globalStar => fun _ => False
  | .tableStar _ => fun _ => False
  | .expression expression _ => expression.Escapes env

def selectElementsEscape (env : Environment) : List SelectElement → VisitorState → Prop
  | [] => fun _ => False
  | selectElement :: rest =>
      OrAfter (selectElement.Escapes env) (visitSelectElement env selectElement) fun _ =>
        selectElementsEscape env rest

def SortItem.Escapes (env : Environment) : SortItem → VisitorState → Prop
  | .mk expression _ => expression.Escapes env

def sortItemsEscape (env : Environment) : List SortItem → VisitorState → Prop
  | [] => fun _ => False
  | sortItem :: rest =>
      OrAfter (sortItem.Escapes env) (visitSortItem env sortItem) fun _ => sortItemsEscape env rest

def expressionsEscape (env : Environment) : List Expression → VisitorState → Prop
  | [] => fun _ => False
  | expression :: rest =>
      OrAfter (expression.Escapes env) (castNode (visitExpression env expression)) fun _ =>
        expressionsEscape env rest

def Expression.Escapes (env : Environment) : Expression → VisitorState → Prop
  | .mk orExpr => orExpr.Escapes env

def OrExpr.Escapes (env : Environment) : OrExpr → VisitorState → Prop
  | .mk firstArg args =>
      OrAfter (firstArg.Escapes env) (castNode (visitXorExpr env firstArg)) fun _ =>
        xorExprsEscape env args

def xorExprsEscape (env : Environment) : List XorExpr → VisitorState → Prop
  | [] => fun _ => False
  | arg :: rest =>
      OrAfter (arg.Escapes env) (castNode (visitXorExpr env arg)) fun _ => xorExprsEscape env rest

def XorExpr.Escapes (env : Environment) : XorExpr → VisitorState → Prop
  | .mk firstArg args =>
      OrAfter (firstArg.Escapes env) (castNode (visitAndExpr env firstArg)) fun _ =>
        andExprsEscape env args

def andExprsEscape (env : Environment) : List AndExpr → VisitorState → Prop
  | [] => fun _ => False
  | arg :: rest =>
      OrAfter (arg.Escapes env) (castNode (visitAndExpr env arg)) fun _ => andExprsEscape env rest

def AndExpr.Escapes (env : Environment) : AndExpr → VisitorState → Prop
  | .mk firstArg args =>
      OrAfter (firstArg.Escapes env) (castNode (visitNotExpr env firstArg)) fun _ =>
        notExprsEscape env args

def notExprsEscape (env : Environment) : List NotExpr → VisitorState → Prop
  | [] => fun _ => False
  | arg :: rest =>
      OrAfter (arg.Escapes env) (castNode (visitNotExpr env arg)) fun _ => notExprsEscape env rest

def NotExpr.Escapes (env : Environment) : NotExpr → VisitorState → Prop
  | .not _ exprNot => exprNot.Escapes env
  | .pass exprPass => AsNode (exprPass.Escapes env) (visitCmpExpr env exprPass) exprPass.nodeless

def CmpExpr.Escapes (env : Environment) : CmpExpr → VisitorState → Prop
  | .comparisonExpr left tail =>
      OrAfter (AsNode (left.Escapes env) (visitMathExpr env left) left.nodeless)
        (castNode (visitMathExpr env left)) fun leftNodeId => tail.Escapes env leftNodeId
  | .isNullExpr _ _ => fun _ => False
  | .inExpr left right =>
      OrAfter (left.Escapes env) (visitMathExpr env left) fun _ => right.Escapes env
  | .likeExpr left _ right =>
      OrAfter (AsNode (left.Escapes env) (visitMathExpr env left) left.nodeless)
        (castNode (visitMathExpr env left)) fun _ =>
          AsNode (right.Escapes env) (visitMathExpr env right) right.nodeless
  | .betweenExpr left _ lower upper =>
      OrAfter (AsNode (lower.Escapes env) (visitMathExpr env lower) lower.nodeless)
        (castNode (visitMathExpr env lower)) fun _ =>
          OrAfter (AsNode (left.Escapes env) (visitMathExpr env left) left.nodeless)
            (castNode (visitMathExpr env left)) fun _ =>
              AsNode (upper.Escapes env) (visitMathExpr env upper) upper.nodeless
  | .mathFallthrough mathExpr => mathExpr.Escapes env

def CmpTail.Escapes (env : Environment) (leftNodeId : ℤ) : CmpTail → VisitorState → Prop
  | .last _ right => AsNode (right.Escapes env) (visitMathExpr env right) right.nodeless
  | .cons op right rest =>
      OrAfter (AsNode (right.Escapes env) (visitMathExpr env right) right.nodeless)
        (castNode (visitMathExpr env right)) fun rightNodeId =>
          Action.After (appendComparison op leftNodeId rightNodeId) fun _ =>
            rest.Escapes env rightNodeId

def MathExpr.Escapes (env : Environment) : MathExpr → VisitorState → Prop
  | .primaryBase primaryExpr => primaryExpr.Escapes env
  | .castExpr left => left.Escapes env
  | .mulDivExpr left _ right =>
      OrAfter (AsNode (left.Escapes env) (visitMathExpr env left) left.nodeless)
        (castNode (visitMathExpr env left)) fun _ =>
          AsNode (right.Escapes env) (visitMathExpr env right) right.nodeless
  | .addSubExpr left _ right =>
      OrAfter (AsNode (left.Escapes env) (visitMathExpr env left) left.nodeless)
        (castNode (visitMathExpr env left)) fun _ =>
          AsNode (right.Escapes env) (visitMathExpr env right) right.nodeless

def PrimaryExpr.Escapes (env : Environment) : PrimaryExpr → VisitorState → Prop
  | .parenthesizedExpr inside => inside.Escapes env
  | .subqueryExpr queryExpression => queryExpression.Escapes env
  | .functionExpr functionCall => functionCall.Escapes env
  | .columnExpr _ _ => fun _ => False
  | .literalExpr literal => fun _ => literal.Unreadable env

def ArrayExpression.Escapes (env : Environment) : ArrayExpression → VisitorState → Prop
  | .query queryExpression => queryExpression.Escapes env
  | .list first rest =>
      OrAfter (first.Escapes env) (visitExpression env first) fun _ => arrayElementsEscape env rest

def arrayElementsEscape (env : Environment) : List Expression → VisitorState → Prop
  | [] => fun _ => False
  | expression :: rest =>
      OrAfter (expression.Escapes env) (visitExpression env expression) fun _ =>
        arrayElementsEscape env rest

def FunctionCall.Escapes (env : Environment) : FunctionCall → VisitorState → Prop
  | .standardFunction expression => expression.Escapes env
  | .countStar => fun _ => False
  | .countFunction expression => expression.Escapes env

end

theorem visitFunctionCall_answers (env : Environment) (x : FunctionCall) :
    Answers false (visitFunctionCall env x) := by
  cases x with
  | standardFunction expression =>
      rw [visitFunctionCall]
      exact Answers.bind fun _ => Answers.pure none
  | countStar =>
      rw [visitFunctionCall]
      exact Answers.pure none
  | countFunction expression =>
      rw [visitFunctionCall]
      exact Answers.bind fun _ => Answers.pure none

theorem visitArrayElements_answers (env : Environment) (l : List Expression) :
    Answers false (visitArrayElements env l) := by
  induction l with
  | nil =>
      rw [visitArrayElements]
      exact Answers.pure none
  | cons expression rest ih =>
      rw [visitArrayElements]
      exact Answers.bind fun _ => ih

theorem visitArrayExpression_answers (env : Environment) (x : ArrayExpression) :
    Answers false (visitArrayExpression env x) := by
  cases x with
  | query queryExpression =>
      rw [visitArrayExpression]
      exact Answers.bind fun _ => Answers.pure none
  | list first rest =>
      rw [visitArrayExpression]
      exact Answers.bind fun _ => visitArrayElements_answers env rest

theorem visitLiteralExpr_answers (env : Environment) (literal : Literal) :
    Answers true (visitLiteralExpr env literal) := by
  cases literal with
  | string token => exact Answers.bind fun _ => Answers.toAny _
  | int minus token => exact Answers.bind fun _ => Answers.toAny _
  | float minus token => exact Answers.bind fun _ => Answers.toAny _
  | nullKw => exact Answers.toAny _
  | trueKw => exact Answers.toAny _
  | falseKw => exact Answers.toAny _

theorem visitColumnExpr_answers (tableName : Option Bytes) (columnName : Bytes) :
    Answers true (visitColumnExpr tableName columnName) := by
  refine Answers.get_bind fun s => ?_
  dsimp only
  split_ifs
  · exact Answers.throw _
  · exact Answers.pure (some _)

theorem visitPrimaryExpr_answers (env : Environment) (x : PrimaryExpr) :
    Answers (!x.nodeless) (visitPrimaryExpr env x) := by
  cases x with
  | parenthesizedExpr inside =>
      rw [visitPrimaryExpr]
      exact Answers.toAny _
  | subqueryExpr queryExpression =>
      rw [visitPrimaryExpr]
      exact Answers.bind fun _ => Answers.pure none
  | functionExpr functionCall =>
      rw [visitPrimaryExpr]
      exact visitFunctionCall_answers env functionCall
  | columnExpr tableName columnName =>
      rw [visitPrimaryExpr]
      exact visitColumnExpr_answers tableName columnName
  | literalExpr literal =>
      rw [visitPrimaryExpr]
      exact visitLiteralExpr_answers env literal

theorem visitMathExpr_answers (env : Environment) (x : MathExpr) :
    Answers (!x.nodeless) (visitMathExpr env x) := by
  cases x with
  | primaryBase primaryExpr =>
      rw [visitMathExpr]
      exact visitPrimaryExpr_answers env primaryExpr
  | castExpr left =>
      rw [visitMathExpr]
      exact Answers.bind fun _ => Answers.pure none
  | mulDivExpr left op right =>
      rw [visitMathExpr]
      exact Answers.bind fun _ => Answers.bind fun _ => Answers.toAny _
  | addSubExpr left op right =>
      rw [visitMathExpr]
      exact Answers.bind fun _ => Answers.bind fun _ => Answers.toAny _

theorem visitCmpExpr_answers (env : Environment) (x : CmpExpr) :
    Answers (!x.nodeless) (visitCmpExpr env x) := by
  cases x with
  | comparisonExpr left tail =>
      rw [visitCmpExpr]
      exact Answers.bind fun _ => Answers.bind fun _ => Answers.toAny _
  | isNullExpr left op =>
      rw [visitCmpExpr]
      exact Answers.toAny _
  | inExpr left right =>
      rw [visitCmpExpr]
      exact Answers.bind fun _ => visitArrayExpression_answers env right
  | likeExpr left op right =>
      rw [visitCmpExpr]
      exact Answers.bind fun _ => Answers.bind fun _ => Answers.toAny _
  | betweenExpr left notOp lower upper =>
      rw [visitCmpExpr]
      exact Answers.bind fun _ => Answers.bind fun _ => Answers.bind fun _ => Answers.toAny _
  | mathFallthrough mathExpr =>
      rw [visitCmpExpr]
      exact visitMathExpr_answers env mathExpr

theorem visitNotExpr_answers (env : Environment) (x : NotExpr) :
    Answers true (visitNotExpr env x) := by
  cases x with
  | not op exprNot =>
      rw [visitNotExpr]
      exact Answers.bind fun _ => Answers.toAny _
  | pass exprPass =>
      rw [visitNotExpr]
      exact Answers.toAny _

theorem visitAndExpr_answers (env : Environment) (x : AndExpr) :
    Answers true (visitAndExpr env x) := by
  cases x with
  | mk firstArg args =>
      rw [visitAndExpr]
      exact Answers.bind fun _ => Answers.bind fun _ => Answers.toAny _

theorem visitXorExpr_answers (env : Environment) (x : XorExpr) :
    Answers true (visitXorExpr env x) := by
  cases x with
  | mk firstArg args =>
      rw [visitXorExpr]
      exact Answers.bind fun _ => Answers.bind fun _ => Answers.toAny _

theorem visitOrExpr_answers (env : Environment) (x : OrExpr) :
    Answers true (visitOrExpr env x) := by
  cases x with
  | mk firstArg args =>
      rw [visitOrExpr]
      exact Answers.bind fun _ => Answers.bind fun _ => Answers.toAny _

theorem visitExpression_answers (env : Environment) (x : Expression) :
    Answers true (visitExpression env x) := by
  cases x with
  | mk orExpr =>
      rw [visitExpression]
      exact Answers.toAny _

theorem visitSelectStatement_answers (env : Environment) (x : SelectStatement) :
    Answers true (visitSelectStatement env x) := by
  cases x with
  | mk selectElement rest fromClause whereExpr groupByExprs sortItems limitExpr offsetExpr =>
      rw [visitSelectStatement]
      exact Answers.toAny _

theorem visitQueryExpression_answers (env : Environment) (x : QueryExpression) :
    Answers true (visitQueryExpression env x) := by
  cases x with
  | mk selectStatement rest =>
      rw [visitQueryExpression]
      exact Answers.bind fun _ => Answers.bind fun _ => Answers.toAny _

theorem nameRelation_answers (tableNodeId : ℤ) (aliasName : Option Bytes) :
    Answers true (nameRelation tableNodeId aliasName) := by
  refine Answers.get_bind fun s => Answers.bind fun exprName => ?_
  dsimp only
  split_ifs
  · exact Answers.bind fun _ => Answers.pure (some _)
  · exact Answers.pure (some _)

theorem visitRelation_answers (env : Environment) (x : Relation) :
    Answers true (visitRelation env x) := by
  cases x with
  | table name aliasName =>
      rw [visitRelation]
      exact Answers.bind fun _ => nameRelation_answers _ _
  | subquery queryExpression aliasName =>
      rw [visitRelation]
      exact Answers.bind fun _ => nameRelation_answers _ _

section Recursion

variable (env : Environment)

mutual

theorem visitQueryExpression_failsWhen : (x : QueryExpression) →
    FailsWhen [] (visitQueryExpression env x) (x.Escapes env)
  | .mk selectStatement rest => by
      rw [visitQueryExpression, QueryExpression.Escapes]
      have hfirst := (visitSelectStatement_failsWhen selectStatement).castNode_of_node
        (visitSelectStatement_answers env selectStatement)
      refine hfirst.bind (visitSelectStatement_appends env selectStatement).castNode.keeps
        fun _ => ?_
      exact (visitSelectStatements_failsWhen rest).of_nil.last fun _ =>
        (appendUnlessSingle_safe _ _).toAny

theorem visitSelectStatements_failsWhen : (l : List SelectStatement) →
    FailsWhen [] (visitSelectStatements env l) (selectStatementsEscape env l)
  | [] => by
      rw [visitSelectStatements, selectStatementsEscape]
      exact (Safe.pure _).neverFails.failsWhen
  | selectStatement :: rest => by
      rw [visitSelectStatements, selectStatementsEscape]
      have hfirst := (visitSelectStatement_failsWhen selectStatement).castNode_of_node
        (visitSelectStatement_answers env selectStatement)
      refine hfirst.bind (visitSelectStatement_appends env selectStatement).castNode.keeps
        fun _ => ?_
      exact (visitSelectStatements_failsWhen rest).of_nil.last fun _ => Safe.pure _

theorem visitSelectStatement_failsWhen : (x : SelectStatement) →
    FailsWhen [] (visitSelectStatement env x) (x.Escapes env)
  | .mk selectElement rest fromClause whereExpr groupByExprs sortItems limitExpr offsetExpr => by
      rw [visitSelectStatement, SelectStatement.Escapes]
      refine (FailsWhen.inScope ?_ enterSelect_sound).toAny
      refine (visitFrom_failsWhen fromClause).bind (visitFrom_appends env fromClause).keeps
        fun _ => ?_
      refine (visitSelectElement_failsWhen selectElement).of_nil.bind
        (visitSelectElement_appends env selectElement).of_nil.keeps fun _ => ?_
      refine (visitSelectElements_failsWhen rest).of_nil.bind
        (visitSelectElements_appends env rest).of_nil.keeps fun _ => ?_
      refine (visitOptional_failsWhen whereExpr).of_nil.bind
        (visitOptional_appends env whereExpr).of_nil.keeps fun _ => ?_
      refine (visitExpressions_failsWhen groupByExprs).of_nil.bind
        (visitExpressions_appends env groupByExprs).of_nil.keeps fun _ => ?_
      refine (visitSortItems_failsWhen sortItems).of_nil.bind
        (visitSortItems_appends env sortItems).of_nil.keeps fun _ => ?_
      refine (visitOptional_failsWhen offsetExpr).of_nil.bind
        (visitOptional_appends env offsetExpr).of_nil.keeps fun _ => ?_
      exact (visitOptional_failsWhen limitExpr).of_nil.last fun _ =>
        constructSelect_safe _ _ _ _ _ _ _

theorem visitOptional_failsWhen : (x : Option Expression) →
    FailsWhen [] (visitOptional env x) (optionalEscapes env x)
  | none => by
      rw [visitOptional, optionalEscapes]
      exact (Safe.pure _).neverFails.failsWhen
  | some expression => by
      rw [visitOptional, optionalEscapes]
      have hexpression := (visitExpression_failsWhen expression).castNode_of_node
        (visitExpression_answers env expression)
      exact hexpression.last fun _ => Safe.pure _

theorem visitFrom_failsWhen : (x : Option FromClause) →
    FailsWhen [] (visitFrom env x) (fromEscapes env x)
  | none => by
      rw [visitFrom, fromEscapes]
      exact (Safe.pure _).neverFails.failsWhen
  | some fromClause => by
      rw [visitFrom, fromEscapes]
      exact visitFromClause_failsWhen fromClause

theorem visitFromClause_failsWhen : (x : FromClause) →
    FailsWhen [] (visitFromClause env x) (x.Escapes env)
  | .mk baseTable joins => by
      rw [visitFromClause, FromClause.Escapes]
      have hrelation := (visitRelation_failsWhen baseTable).castNode_of_node
        (visitRelation_answers env baseTable)
      refine hrelation.bind (visitRelation_appends env baseTable).castNode.keeps
        fun tableNodeId => ?_
      refine (enterTable_failsWhen (by simp) _).bind (enterTable_appends tableNodeId _).keeps
        fun _ => ?_
      exact (visitJoins_failsWhen joins).of_nil.last fun _ => Safe.pure _

theorem visitJoins_failsWhen : (l : List JoinClause) →
    FailsWhen [] (visitJoins env l) (joinsEscape env l)
  | [] => by
      rw [visitJoins, joinsEscape]
      exact (Safe.pure _).neverFails.failsWhen
  | joinClause :: rest => by
      rw [visitJoins, joinsEscape]
      refine (visitJoinClause_failsWhen joinClause).bind
        (visitJoinClause_appends env joinClause).keeps fun _ => ?_
      exact (visitJoins_failsWhen rest).of_nil.last fun _ => Safe.pure _

theorem visitJoinClause_failsWhen : (x : JoinClause) →
    FailsWhen [] (visitJoinClause env x) (x.Escapes env)
  | .mk relation onExpr => by
      rw [visitJoinClause, JoinClause.Escapes]
      refine (visitRelation_failsWhen relation).bind (visitRelation_appends env relation).keeps
        fun _ => ?_
      have hrelation := (visitRelation_failsWhen relation).castNode_of_node
        (visitRelation_answers env relation)
      refine hrelation.of_nil.bind (visitRelation_appends env relation).castNode.of_nil.keeps
        fun tableNodeId => ?_
      refine (enterTable_failsWhen (by simp) _).bind (enterTable_appends tableNodeId _).keeps
        fun _ => ?_
      have hon := (visitExpression_failsWhen onExpr).castNode_of_node
        (visitExpression_answers env onExpr)
      exact hon.of_nil.last fun _ => Safe.pure _

theorem visitRelation_failsWhen : (x : Relation) →
    FailsWhen [] (visitRelation env x) (x.Escapes env)
  | .table name aliasName => by
      rw [visitRelation, Relation.Escapes]
      refine (findOrInsertTable_neverFails env name).failsWhen.finish
        (findOrInsertTable_appends env name).keeps fun tableNodeId => ?_
      exact nameRelation_neverFails (by simp) aliasName
  | .subquery queryExpression aliasName => by
      rw [visitRelation, Relation.Escapes]
      have hquery := (visitQueryExpression_failsWhen queryExpression).castNode_of_node
        (visitQueryExpression_answers env queryExpression)
      refine hquery.finish (visitQueryExpression_appends env queryExpression).castNode.keeps
        fun tableNodeId => ?_
      exact nameRelation_neverFails (by simp) aliasName

theorem visitSelectElement_failsWhen : (x : SelectElement) →
    FailsWhen [] (visitSelectElement env x) (x.Escapes env)
  | .globalStar => by
      rw [visitSelectElement, SelectElement.Escapes]
      exact (Safe.get_bind fun _ => Safe.pure _).neverFails.failsWhen
  | .tableStar _ => by
      rw [visitSelectElement, SelectElement.Escapes]
      exact (Safe.pure _).neverFails.failsWhen
  | .expression expression none => by
      rw [visitSelectElement, SelectElement.Escapes]
      have hexpression := (visitExpression_failsWhen expression).castNode_of_node
        (visitExpression_answers env expression)
      exact hexpression.last fun _ => Safe.pure _
  | .expression expression (some aliasName) => by
      rw [visitSelectElement, SelectElement.Escapes]
      have hexpression := (visitExpression_failsWhen expression).castNode_of_node
        (visitExpression_answers env expression)
      refine hexpression.finish (visitExpression_visits env expression).castNode.keeps
        fun elementNodeId => ?_
      exact (setName_neverFails (by simp) aliasName).seq fun _ => Safe.pure _

theorem visitSelectElements_failsWhen : (l : List SelectElement) →
    FailsWhen [] (visitSelectElements env l) (selectElementsEscape env l)
  | [] => by
      rw [visitSelectElements, selectElementsEscape]
      exact (Safe.pure _).neverFails.failsWhen
  | selectElement :: rest => by
      rw [visitSelectElements, selectElementsEscape]
      refine (visitSelectElement_failsWhen selectElement).bind
        (visitSelectElement_appends env selectElement).keeps fun _ => ?_
      exact (visitSelectElements_failsWhen rest).of_nil.last fun _ => Safe.pure _

theorem visitSortItem_failsWhen : (x : SortItem) →
    FailsWhen [] (visitSortItem env x) (x.Escapes env)
  | .mk expression desc => by
      rw [visitSortItem, SortItem.Escapes]
      have hexpression := (visitExpression_failsWhen expression).castNode_of_node
        (visitExpression_answers env expression)
      refine hexpression.last fun itemNodeId => ?_
      split_ifs
      · exact Safe.build _
      · exact Safe.pure _

theorem visitSortItems_failsWhen : (l : List SortItem) →
    FailsWhen [] (visitSortItems env l) (sortItemsEscape env l)
  | [] => by
      rw [visitSortItems, sortItemsEscape]
      exact (Safe.pure _).neverFails.failsWhen
  | sortItem :: rest => by
      rw [visitSortItems, sortItemsEscape]
      refine (visitSortItem_failsWhen sortItem).bind (visitSortItem_appends env sortItem).keeps
        fun _ => ?_
      exact (visitSortItems_failsWhen rest).of_nil.last fun _ => Safe.pure _

theorem visitExpressions_failsWhen : (l : List Expression) →
    FailsWhen [] (visitExpressions env l) (expressionsEscape env l)
  | [] => by
      rw [visitExpressions, expressionsEscape]
      exact (Safe.pure _).neverFails.failsWhen
  | expression :: rest => by
      rw [visitExpressions, expressionsEscape]
      have hfirst := (visitExpression_failsWhen expression).castNode_of_node
        (visitExpression_answers env expression)
      refine hfirst.bind (visitExpression_visits env expression).castNode.keeps fun _ => ?_
      exact (visitExpressions_failsWhen rest).of_nil.last fun _ => Safe.pure _

theorem visitExpression_failsWhen : (x : Expression) →
    FailsWhen [] (visitExpression env x) (x.Escapes env)
  | .mk orExpr => by
      rw [visitExpression, Expression.Escapes]
      exact ((visitOrExpr_failsWhen orExpr).castNode_of_node
        (visitOrExpr_answers env orExpr)).toAny

theorem visitOrExpr_failsWhen : (x : OrExpr) → FailsWhen [] (visitOrExpr env x) (x.Escapes env)
  | .mk firstArg args => by
      rw [visitOrExpr, OrExpr.Escapes]
      have hfirst := (visitXorExpr_failsWhen firstArg).castNode_of_node
        (visitXorExpr_answers env firstArg)
      refine hfirst.bind (visitXorExpr_visits env firstArg).castNode.keeps fun _ => ?_
      exact (visitXorExprs_failsWhen args).of_nil.last fun _ => (appendUnlessSingle_safe _ _).toAny

theorem visitXorExprs_failsWhen : (l : List XorExpr) →
    FailsWhen [] (visitXorExprs env l) (xorExprsEscape env l)
  | [] => by
      rw [visitXorExprs, xorExprsEscape]
      exact (Safe.pure _).neverFails.failsWhen
  | arg :: rest => by
      rw [visitXorExprs, xorExprsEscape]
      have hfirst := (visitXorExpr_failsWhen arg).castNode_of_node (visitXorExpr_answers env arg)
      refine hfirst.bind (visitXorExpr_visits env arg).castNode.keeps fun _ => ?_
      exact (visitXorExprs_failsWhen rest).of_nil.last fun _ => Safe.pure _

theorem visitXorExpr_failsWhen : (x : XorExpr) → FailsWhen [] (visitXorExpr env x) (x.Escapes env)
  | .mk firstArg args => by
      rw [visitXorExpr, XorExpr.Escapes]
      have hfirst := (visitAndExpr_failsWhen firstArg).castNode_of_node
        (visitAndExpr_answers env firstArg)
      refine hfirst.bind (visitAndExpr_visits env firstArg).castNode.keeps fun _ => ?_
      exact (visitAndExprs_failsWhen args).of_nil.last fun _ => (appendUnlessSingle_safe _ _).toAny

theorem visitAndExprs_failsWhen : (l : List AndExpr) →
    FailsWhen [] (visitAndExprs env l) (andExprsEscape env l)
  | [] => by
      rw [visitAndExprs, andExprsEscape]
      exact (Safe.pure _).neverFails.failsWhen
  | arg :: rest => by
      rw [visitAndExprs, andExprsEscape]
      have hfirst := (visitAndExpr_failsWhen arg).castNode_of_node (visitAndExpr_answers env arg)
      refine hfirst.bind (visitAndExpr_visits env arg).castNode.keeps fun _ => ?_
      exact (visitAndExprs_failsWhen rest).of_nil.last fun _ => Safe.pure _

theorem visitAndExpr_failsWhen : (x : AndExpr) → FailsWhen [] (visitAndExpr env x) (x.Escapes env)
  | .mk firstArg args => by
      rw [visitAndExpr, AndExpr.Escapes]
      have hfirst := (visitNotExpr_failsWhen firstArg).castNode_of_node
        (visitNotExpr_answers env firstArg)
      refine hfirst.bind (visitNotExpr_visits env firstArg).castNode.keeps fun _ => ?_
      exact (visitNotExprs_failsWhen args).of_nil.last fun _ => (appendUnlessSingle_safe _ _).toAny

theorem visitNotExprs_failsWhen : (l : List NotExpr) →
    FailsWhen [] (visitNotExprs env l) (notExprsEscape env l)
  | [] => by
      rw [visitNotExprs, notExprsEscape]
      exact (Safe.pure _).neverFails.failsWhen
  | arg :: rest => by
      rw [visitNotExprs, notExprsEscape]
      have hfirst := (visitNotExpr_failsWhen arg).castNode_of_node (visitNotExpr_answers env arg)
      refine hfirst.bind (visitNotExpr_visits env arg).castNode.keeps fun _ => ?_
      exact (visitNotExprs_failsWhen rest).of_nil.last fun _ => Safe.pure _

theorem visitNotExpr_failsWhen : (x : NotExpr) → FailsWhen [] (visitNotExpr env x) (x.Escapes env)
  | .not op exprNot => by
      rw [visitNotExpr, NotExpr.Escapes]
      have hoperand := (visitNotExpr_failsWhen exprNot).castNode_of_node
        (visitNotExpr_answers env exprNot)
      exact hoperand.last fun _ => (appendOperation_safe _ _).toAny
  | .pass exprPass => by
      rw [visitNotExpr, NotExpr.Escapes]
      exact ((visitCmpExpr_failsWhen exprPass).castNode (visitCmpExpr_answers env exprPass)).toAny

theorem visitCmpExpr_failsWhen : (x : CmpExpr) → FailsWhen [] (visitCmpExpr env x) (x.Escapes env)
  | .comparisonExpr left tail => by
      rw [visitCmpExpr, CmpExpr.Escapes]
      have hleft := (visitMathExpr_failsWhen left).castNode (visitMathExpr_answers env left)
      refine hleft.bind (visitMathExpr_visits env left).castNode.keeps fun leftNodeId => ?_
      exact (visitCmpTail_failsWhen leftNodeId tail).last fun _ =>
        (appendUnlessSingle_safe _ _).toAny
  | .isNullExpr _ op => by
      rw [visitCmpExpr, CmpExpr.Escapes]
      exact (appendOperation_safe op.text []).toAny.neverFails.failsWhen
  | .inExpr left right => by
      rw [visitCmpExpr, CmpExpr.Escapes]
      refine (visitMathExpr_failsWhen left).bind (visitMathExpr_visits env left).keeps fun _ => ?_
      exact visitArrayExpression_failsWhen right
  | .likeExpr left op right => by
      rw [visitCmpExpr, CmpExpr.Escapes]
      have hleft := (visitMathExpr_failsWhen left).castNode (visitMathExpr_answers env left)
      have hright := (visitMathExpr_failsWhen right).castNode (visitMathExpr_answers env right)
      refine hleft.bind (visitMathExpr_visits env left).castNode.keeps fun leftNodeId => ?_
      exact hright.of_nil.last fun rightNodeId => (appendOperation_safe _ _).toAny
  | .betweenExpr left notOp lower upper => by
      rw [visitCmpExpr, CmpExpr.Escapes]
      have hlower := (visitMathExpr_failsWhen lower).castNode (visitMathExpr_answers env lower)
      have hmiddle := (visitMathExpr_failsWhen left).castNode (visitMathExpr_answers env left)
      have hupper := (visitMathExpr_failsWhen upper).castNode (visitMathExpr_answers env upper)
      refine hlower.bind (visitMathExpr_visits env lower).castNode.keeps fun lowerNodeId => ?_
      refine hmiddle.of_nil.bind (visitMathExpr_visits env left).castNode.of_nil.keeps
        fun middleNodeId => ?_
      exact hupper.of_nil.last fun upperNodeId => (appendBetween_safe _ _ _ _).toAny
  | .mathFallthrough mathExpr => by
      rw [visitCmpExpr, CmpExpr.Escapes]
      exact visitMathExpr_failsWhen mathExpr

theorem visitCmpTail_failsWhen (leftNodeId : ℤ) : (x : CmpTail) →
    FailsWhen [leftNodeId] (visitCmpTail env leftNodeId x) (x.Escapes env leftNodeId)
  | .last op right => by
      rw [visitCmpTail, CmpTail.Escapes]
      have hright := (visitMathExpr_failsWhen right).castNode (visitMathExpr_answers env right)
      exact hright.of_nil.last fun rightNodeId =>
        (appendComparison_safe _ _ _).bind fun _ => Safe.pure _
  | .cons op right rest => by
      rw [visitCmpTail, CmpTail.Escapes]
      have hright := (visitMathExpr_failsWhen right).castNode (visitMathExpr_answers env right)
      refine hright.of_nil.bind (visitMathExpr_visits env right).castNode.of_nil.keeps
        fun rightNodeId => ?_
      refine FailsWhen.start (appendComparison_safe _ _ _).neverFails
        (appendComparison_appends op (by simp) (by simp)).keeps fun cmpNodeId => ?_
      exact ((visitCmpTail_failsWhen rightNodeId rest).weaken (by simp)).last fun _ => Safe.pure _

theorem visitMathExpr_failsWhen : (x : MathExpr) →
    FailsWhen [] (visitMathExpr env x) (x.Escapes env)
  | .primaryBase primaryExpr => by
      rw [visitMathExpr, MathExpr.Escapes]
      exact visitPrimaryExpr_failsWhen primaryExpr
  | .castExpr left => by
      rw [visitMathExpr, MathExpr.Escapes]
      exact (visitMathExpr_failsWhen left).last fun _ => Safe.pure none
  | .mulDivExpr left op right => by
      rw [visitMathExpr, MathExpr.Escapes]
      have hleft := (visitMathExpr_failsWhen left).castNode (visitMathExpr_answers env left)
      have hright := (visitMathExpr_failsWhen right).castNode (visitMathExpr_answers env right)
      refine hleft.bind (visitMathExpr_visits env left).castNode.keeps fun leftNodeId => ?_
      exact hright.of_nil.last fun rightNodeId => (appendOperation_safe _ _).toAny
  | .addSubExpr left op right => by
      rw [visitMathExpr, MathExpr.Escapes]
      have hleft := (visitMathExpr_failsWhen left).castNode (visitMathExpr_answers env left)
      have hright := (visitMathExpr_failsWhen right).castNode (visitMathExpr_answers env right)
      refine hleft.bind (visitMathExpr_visits env left).castNode.keeps fun leftNodeId => ?_
      exact hright.of_nil.last fun rightNodeId => (appendOperation_safe _ _).toAny

theorem visitPrimaryExpr_failsWhen : (x : PrimaryExpr) →
    FailsWhen [] (visitPrimaryExpr env x) (x.Escapes env)
  | .parenthesizedExpr inside => by
      rw [visitPrimaryExpr, PrimaryExpr.Escapes]
      exact ((visitExpression_failsWhen inside).castNode_of_node
        (visitExpression_answers env inside)).toAny
  | .subqueryExpr queryExpression => by
      rw [visitPrimaryExpr, PrimaryExpr.Escapes]
      exact (visitQueryExpression_failsWhen queryExpression).last fun _ => Safe.pure none
  | .functionExpr functionCall => by
      rw [visitPrimaryExpr, PrimaryExpr.Escapes]
      exact visitFunctionCall_failsWhen functionCall
  | .columnExpr tableName columnName => by
      rw [visitPrimaryExpr, PrimaryExpr.Escapes]
      exact (visitColumnExpr_safe tableName columnName).neverFails.failsWhen
  | .literalExpr literal => by
      rw [visitPrimaryExpr, PrimaryExpr.Escapes]
      exact visitLiteralExpr_failsWhen env literal

theorem visitArrayExpression_failsWhen : (x : ArrayExpression) →
    FailsWhen [] (visitArrayExpression env x) (x.Escapes env)
  | .query queryExpression => by
      rw [visitArrayExpression, ArrayExpression.Escapes]
      exact (visitQueryExpression_failsWhen queryExpression).last fun _ => Safe.pure none
  | .list first rest => by
      rw [visitArrayExpression, ArrayExpression.Escapes]
      refine (visitExpression_failsWhen first).bind (visitExpression_visits env first).keeps
        fun _ => ?_
      exact visitArrayElements_failsWhen rest

theorem visitArrayElements_failsWhen : (l : List Expression) →
    FailsWhen [] (visitArrayElements env l) (arrayElementsEscape env l)
  | [] => by
      rw [visitArrayElements, arrayElementsEscape]
      exact (Safe.pure none).neverFails.failsWhen
  | expression :: rest => by
      rw [visitArrayElements, arrayElementsEscape]
      refine (visitExpression_failsWhen expression).bind
        (visitExpression_visits env expression).keeps fun _ => ?_
      exact visitArrayElements_failsWhen rest

theorem visitFunctionCall_failsWhen : (x : FunctionCall) →
    FailsWhen [] (visitFunctionCall env x) (x.Escapes env)
  | .standardFunction expression => by
      rw [visitFunctionCall, FunctionCall.Escapes]
      exact (visitExpression_failsWhen expression).last fun _ => Safe.pure none
  | .countStar => by
      rw [visitFunctionCall, FunctionCall.Escapes]
      exact (Safe.pure none).neverFails.failsWhen
  | .countFunction expression => by
      rw [visitFunctionCall, FunctionCall.Escapes]
      exact (visitExpression_failsWhen expression).last fun _ => Safe.pure none

end

end Recursion

def Statement.Escapes (env : Environment) : Statement → VisitorState → Prop
  | .selectStmt queryExpression => queryExpression.Escapes env
  | .updateStmt => fun _ => False
  | .deleteStmt => fun _ => False

/-- Enter the node of a common table expression under its name. -/
def VisitorState.withCte (s : VisitorState) (name : Bytes) (nodeId : ℤ) : VisitorState :=
  { s with withTableContext := s.withTableContext.insert name nodeId }

def ctesEscape (env : Environment) : List Cte → VisitorState → Prop
  | [] => fun _ => False
  | cte :: rest =>
      OrAfter (cte.expr.Escapes env) (castNode (visitQueryExpression env cte.expr)) fun nodeId s =>
        ctesEscape env rest (s.withCte cte.aliasName nodeId)

def QueryContext.Escapes (env : Environment) (ctx : QueryContext) (s : VisitorState) : Prop :=
  OrAfter (ctesEscape env ctx.cte) (visitCtes env ctx.cte) (fun _ => ctx.statement.Escapes env)
    (enterQuery s)

theorem visitStatement_failsWhen (env : Environment) (statement : Statement) :
    FailsWhen [] (visitStatement env statement) (statement.Escapes env) := by
  cases statement with
  | selectStmt queryExpression => exact visitQueryExpression_failsWhen env queryExpression
  | updateStmt => exact (Safe.report _).neverFails.failsWhen
  | deleteStmt => exact (Safe.report _).neverFails.failsWhen

theorem visitStatement_answers (env : Environment) (statement : Statement) :
    Answers true (visitStatement env statement) := by
  cases statement with
  | selectStmt queryExpression => exact visitQueryExpression_answers env queryExpression
  | updateStmt => exact Answers.throw _
  | deleteStmt => exact Answers.throw _

theorem visitCtes_failsWhen (env : Environment) (ctes : List Cte) :
    FailsWhen [] (visitCtes env ctes) (ctesEscape env ctes) := by
  induction ctes with
  | nil => exact (Safe.pure _).neverFails.failsWhen
  | cons cte rest ih =>
      rw [visitCtes, ctesEscape]
      have hquery := (visitQueryExpression_failsWhen env cte.expr).castNode_of_node
        (visitQueryExpression_answers env cte.expr)
      refine hquery.bind (visitQueryExpression_appends env cte.expr).castNode.keeps
        fun nodeId s hs => ?_
      have hinsert : (s.withCte cte.aliasName nodeId).Sound [] := by
        have hmem : nodeId ∈ [nodeId] ++ [] := by simp
        have hkeeps := (insertCte_appends hmem cte.aliasName).keeps s () _ hs rfl
        exact hkeeps.subset (List.nil_subset _)
      exact ih _ hinsert

theorem visitQuery_failsWhen (env : Environment) (ctx : QueryContext) :
    FailsWhen [] (visitQuery env ctx) (ctx.Escapes env) := by
  refine (FailsWhen.inScope ?_ enterQuery_sound).toAny
  refine (visitCtes_failsWhen env ctx.cte).bind (visitCtes_appends env ctx.cte).keeps fun _ => ?_
  exact ((visitStatement_failsWhen env ctx.statement).castNode_of_node
    (visitStatement_answers env ctx.statement)).of_nil

/-- A visit returns a node or reports an error. -/
def Settles (m : Visit Any) (s : VisitorState) : Prop :=
  (∃ i t, m s = .returned (some i) t) ∨ ∃ what t, m s = .thrown (.sqlCompileError what) t

theorem settles_iff {m : Visit Any} (h : Answers true m) (s : VisitorState) :
    Settles m s ↔ ¬Fails m s := by
  cases hm : m s with
  | returned a t =>
      obtain ⟨i, rfl⟩ := Option.isSome_iff_exists.mp (h s a t hm)
      exact iff_of_true (.inl ⟨i, t, hm⟩) (by simp [Action.Fails, hm])
  | thrown e t =>
      cases e with
      | sqlCompileError what =>
          exact iff_of_true (.inr ⟨what, t, hm⟩) (by simp [Action.Fails, hm, Exception.Reported])
      | _ => simp [Settles, Action.Fails, hm, Exception.Reported]
  | undefined => simp [Settles, Action.Fails, hm]

/-- The visit of a query returns a node or reports an error exactly when it does
not come to a construct that it cannot visit. -/
theorem visitQuery_settles_iff (env : Environment) (ctx : QueryContext) :
    Settles (visitQuery env ctx) {} ↔ ¬ctx.Escapes env {} := by
  have hfails := visitQuery_failsWhen env ctx {} VisitorState.sound_start
  exact (settles_iff (Answers.toAny _) _).trans (not_congr hfails)

def selectQuery (x : Expression) : QueryContext where
  cte := []
  statement := .selectStmt (.mk (.mk (.expression x none) [] none none [] [] none none) [])

def castExpression : Expression :=
  .mk (.mk (.mk (.mk (.pass (.mathFallthrough (.castExpr (.primaryBase (.literalExpr
    (.int false (bytes "1"))))))) []) []) [])

theorem not_settles_of_answer {m : Visit Any} {s : VisitorState} {e : Exception}
    (h : (m s).answer = some (.error e)) (he : ¬e.Reported) : ¬Settles m s := by
  rintro (⟨i, t, hm⟩ | ⟨what, t, hm⟩)
  · rw [hm] at h
    cases h
  · rw [hm] at h
    cases h
    exact he trivial

/-- The visits of `SELECT 1::INT` and of `SELECT 9223372036854775808` end in other
exceptions. -/
theorem selectQuery_not_settles :
    ¬Settles (visitQuery sampleEnvironment (selectQuery castExpression)) {} ∧
      ¬Settles (visitQuery sampleEnvironment
        (selectQuery (.ofInt "9223372036854775808"))) {} := by
  constructor
  · exact not_settles_of_answer (e := .badAnyCast) (by decide +kernel) id
  · exact not_settles_of_answer (e := .outOfRange) (by decide +kernel) id

end Parse

end DistStorage
