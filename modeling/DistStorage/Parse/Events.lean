import DistStorage.Cpp.Trace
import DistStorage.Parse.Visitor

/-!
# The events of a visit

What the contexts and the names of a visitor come to is decided by a few steps:
a select statement begins or its node is put together, a relation is looked up
or entered, and a node is named. These are the events of a visit, each with the
state before it, in the order in which they happen. The visit of `IS NULL` has
none, because its operand is not visited, and a relation of `JOIN` has its
events twice.

An event has no node: the node of a relation or of a select item is given by its
`Origin`, which is read off the parse tree.
-/

namespace DistStorage

namespace Parse

open Cpp Cpp.Action Query QueryGraph

/-- Where the node of a relation or of a select item comes from. -/
inductive Origin
  /-- A column, under its name in `exprVarContext`. -/
  | column (varName : Bytes)
  /-- A relation by name, in `fileTableContext` or `withTableContext`. -/
  | table (name : Bytes)
  /-- A subquery, or an expression that is not a column. -/
  | made
  deriving DecidableEq, Repr

def Expression.origin (x : Expression) : Origin :=
  x.varName.elim .made .column

def Relation.origin : Relation → Origin
  | .table name _ => .table name
  | .subquery _ _ => .made

/-- The node that the contexts have. -/
def Origin.node : Origin → VisitorState → Option ℤ
  | .column varName, s => s.exprVarContext.find varName
  | .table name, s =>
      let nodeId := findIdent name [s.fileTableContext, s.withTableContext]
      if nodeId = nodeNone then none else some nodeId
  | .made, _ => none

inductive Step
  /-- A select statement begins. -/
  | select
  /-- The nodes over the clauses of a select statement. -/
  | construct
  /-- The node over the select statements of a query expression. -/
  | unite
  /-- A relation is looked up by its name. -/
  | lookup (name : Bytes)
  /-- A relation is entered into the contexts. -/
  | enter (origin : Origin) (aliasName : Option Bytes)
  /-- A node is given a name. -/
  | name (origin : Origin) (name : Bytes)
  deriving DecidableEq, Repr

structure Event where
  step : Step
  before : VisitorState

def record (step : Step) (s : VisitorState) : List Event :=
  [⟨step, s⟩]

theorem forall_mem_record {es : List Event} {step : Step} {s : VisitorState}
    {p : VisitorState → Prop} :
    (∀ e ∈ es ++ record step s, p e.before) ↔ (∀ e ∈ es, p e.before) ∧ p s := by
  simp [record, or_imp, forall_and]

def nameRelationEvents (origin : Origin) (aliasName : Option Bytes) (tableNodeId : ℤ)
    (s : VisitorState) : List Event :=
  if s.outGraph.getNodeName tableNodeId = some [] ∧ aliasName.getD [] ≠ [] then
    record (.name origin (aliasName.getD [])) s
  else []

mutual

def QueryExpression.events (env : Environment) : QueryExpression → VisitorState → List Event
  | .mk selectStatement rest =>
      eventsThen (selectStatement.events env) (castNode (visitSelectStatement env selectStatement))
        fun _ => eventsThen (selectStatementsEvents env rest) (visitSelectStatements env rest)
        fun _ => record .unite

def selectStatementsEvents (env : Environment) :
    List SelectStatement → VisitorState → List Event
  | [] => fun _ => []
  | selectStatement :: rest =>
      eventsThen (selectStatement.events env) (castNode (visitSelectStatement env selectStatement))
        fun _ => selectStatementsEvents env rest

def SelectStatement.events (env : Environment) : SelectStatement → VisitorState → List Event
  | .mk selectElement rest fromClause whereExpr groupByExprs sortItems limitExpr offsetExpr =>
      fun s => record .select s ++
        eventsThen (fromEvents env fromClause) (visitFrom env fromClause) (fun _ =>
          eventsThen (selectElement.events env) (visitSelectElement env selectElement) fun _ =>
          eventsThen (selectElementsEvents env rest) (visitSelectElements env rest) fun _ =>
          eventsThen (optionalEvents env whereExpr) (visitOptional env whereExpr) fun _ =>
          eventsThen (expressionsEvents env groupByExprs) (visitExpressions env groupByExprs)
            fun _ =>
          eventsThen (sortItemsEvents env sortItems) (visitSortItems env sortItems) fun _ =>
          eventsThen (optionalEvents env offsetExpr) (visitOptional env offsetExpr) fun _ =>
          eventsThen (optionalEvents env limitExpr) (visitOptional env limitExpr) fun _ =>
          record .construct) (enterSelect s)

def optionalEvents (env : Environment) : Option Expression → VisitorState → List Event
  | none => fun _ => []
  | some expression => expression.events env

def fromEvents (env : Environment) : Option FromClause → VisitorState → List Event
  | none => fun _ => []
  | some fromClause => fromClause.events env

def FromClause.events (env : Environment) : FromClause → VisitorState → List Event
  | .mk baseTable joins =>
      eventsThen (baseTable.events env) (castNode (visitRelation env baseTable))
        fun tableNodeId =>
          eventsThen (record (.enter baseTable.origin baseTable.aliasName))
            (enterTable tableNodeId baseTable.aliasName) fun _ => joinsEvents env joins

def joinsEvents (env : Environment) : List JoinClause → VisitorState → List Event
  | [] => fun _ => []
  | joinClause :: rest =>
      eventsThen (joinClause.events env) (visitJoinClause env joinClause) fun _ =>
        joinsEvents env rest

def JoinClause.events (env : Environment) : JoinClause → VisitorState → List Event
  | .mk relation onExpr =>
      eventsThen (relation.events env) (visitRelation env relation) fun _ =>
        eventsThen (relation.events env) (castNode (visitRelation env relation))
          fun tableNodeId =>
            eventsThen (record (.enter relation.origin relation.aliasName))
              (enterTable tableNodeId relation.aliasName) fun _ => onExpr.events env

def Relation.events (env : Environment) : Relation → VisitorState → List Event
  | .table name aliasName =>
      eventsThen (record (.lookup name)) (findOrInsertTable env name)
        (nameRelationEvents (.table name) aliasName)
  | .subquery queryExpression aliasName =>
      eventsThen (queryExpression.events env) (castNode (visitQueryExpression env queryExpression))
        (nameRelationEvents .made aliasName)

def SelectElement.events (env : Environment) : SelectElement → VisitorState → List Event
  | .globalStar => fun _ => []
  | .tableStar _ => fun _ => []
  | .expression expression none => expression.events env
  | .expression expression (some aliasName) =>
      eventsThen (expression.events env) (castNode (visitExpression env expression))
        fun _ => record (.name expression.origin aliasName)

def selectElementsEvents (env : Environment) : List SelectElement → VisitorState → List Event
  | [] => fun _ => []
  | selectElement :: rest =>
      eventsThen (selectElement.events env) (visitSelectElement env selectElement) fun _ =>
        selectElementsEvents env rest

def SortItem.events (env : Environment) : SortItem → VisitorState → List Event
  | .mk expression _ => expression.events env

def sortItemsEvents (env : Environment) : List SortItem → VisitorState → List Event
  | [] => fun _ => []
  | sortItem :: rest =>
      eventsThen (sortItem.events env) (visitSortItem env sortItem) fun _ =>
        sortItemsEvents env rest

def expressionsEvents (env : Environment) : List Expression → VisitorState → List Event
  | [] => fun _ => []
  | expression :: rest =>
      eventsThen (expression.events env) (castNode (visitExpression env expression)) fun _ =>
        expressionsEvents env rest

def Expression.events (env : Environment) : Expression → VisitorState → List Event
  | .mk orExpr => orExpr.events env

def OrExpr.events (env : Environment) : OrExpr → VisitorState → List Event
  | .mk firstArg args =>
      eventsThen (firstArg.events env) (castNode (visitXorExpr env firstArg)) fun _ =>
        xorExprsEvents env args

def xorExprsEvents (env : Environment) : List XorExpr → VisitorState → List Event
  | [] => fun _ => []
  | arg :: rest =>
      eventsThen (arg.events env) (castNode (visitXorExpr env arg)) fun _ =>
        xorExprsEvents env rest

def XorExpr.events (env : Environment) : XorExpr → VisitorState → List Event
  | .mk firstArg args =>
      eventsThen (firstArg.events env) (castNode (visitAndExpr env firstArg)) fun _ =>
        andExprsEvents env args

def andExprsEvents (env : Environment) : List AndExpr → VisitorState → List Event
  | [] => fun _ => []
  | arg :: rest =>
      eventsThen (arg.events env) (castNode (visitAndExpr env arg)) fun _ =>
        andExprsEvents env rest

def AndExpr.events (env : Environment) : AndExpr → VisitorState → List Event
  | .mk firstArg args =>
      eventsThen (firstArg.events env) (castNode (visitNotExpr env firstArg)) fun _ =>
        notExprsEvents env args

def notExprsEvents (env : Environment) : List NotExpr → VisitorState → List Event
  | [] => fun _ => []
  | arg :: rest =>
      eventsThen (arg.events env) (castNode (visitNotExpr env arg)) fun _ =>
        notExprsEvents env rest

def NotExpr.events (env : Environment) : NotExpr → VisitorState → List Event
  | .not _ exprNot => exprNot.events env
  | .pass exprPass => exprPass.events env

def CmpExpr.events (env : Environment) : CmpExpr → VisitorState → List Event
  | .comparisonExpr left tail =>
      eventsThen (left.events env) (castNode (visitMathExpr env left)) fun leftNodeId =>
        tail.events env leftNodeId
  | .isNullExpr _ _ => fun _ => []
  | .inExpr left right =>
      eventsThen (left.events env) (visitMathExpr env left) fun _ => right.events env
  | .likeExpr left _ right =>
      eventsThen (left.events env) (castNode (visitMathExpr env left)) fun _ => right.events env
  | .betweenExpr left _ lower upper =>
      eventsThen (lower.events env) (castNode (visitMathExpr env lower)) fun _ =>
        eventsThen (left.events env) (castNode (visitMathExpr env left)) fun _ =>
          upper.events env
  | .mathFallthrough mathExpr => mathExpr.events env

def CmpTail.events (env : Environment) (leftNodeId : ℤ) : CmpTail → VisitorState → List Event
  | .last _ right => right.events env
  | .cons op right rest =>
      eventsThen (right.events env) (castNode (visitMathExpr env right)) fun rightNodeId =>
        eventsThen (fun _ => []) (appendComparison op leftNodeId rightNodeId) fun _ =>
          rest.events env rightNodeId

def MathExpr.events (env : Environment) : MathExpr → VisitorState → List Event
  | .primaryBase primaryExpr => primaryExpr.events env
  | .castExpr left => left.events env
  | .mulDivExpr left _ right =>
      eventsThen (left.events env) (castNode (visitMathExpr env left)) fun _ => right.events env
  | .addSubExpr left _ right =>
      eventsThen (left.events env) (castNode (visitMathExpr env left)) fun _ => right.events env

def PrimaryExpr.events (env : Environment) : PrimaryExpr → VisitorState → List Event
  | .parenthesizedExpr inside => inside.events env
  | .subqueryExpr queryExpression => queryExpression.events env
  | .functionExpr functionCall => functionCall.events env
  | .columnExpr _ _ => fun _ => []
  | .literalExpr _ => fun _ => []

def ArrayExpression.events (env : Environment) : ArrayExpression → VisitorState → List Event
  | .query queryExpression => queryExpression.events env
  | .list first rest =>
      eventsThen (first.events env) (visitExpression env first) fun _ =>
        arrayElementsEvents env rest

def arrayElementsEvents (env : Environment) : List Expression → VisitorState → List Event
  | [] => fun _ => []
  | expression :: rest =>
      eventsThen (expression.events env) (visitExpression env expression) fun _ =>
        arrayElementsEvents env rest

def FunctionCall.events (env : Environment) : FunctionCall → VisitorState → List Event
  | .standardFunction expression => expression.events env
  | .countStar => fun _ => []
  | .countFunction expression => expression.events env

end

/-- The state after a common table expression was entered under its name. -/
def enterCte (aliasName : Bytes) (nodeId : ℤ) (s : VisitorState) : VisitorState :=
  { s with withTableContext := s.withTableContext.insert aliasName nodeId }

end Parse

end DistStorage
