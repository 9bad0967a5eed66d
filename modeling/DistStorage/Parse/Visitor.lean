import DistStorage.Cpp.Action
import DistStorage.Cpp.Integer
import DistStorage.Parse.Text

/-!
# The SQL visitor

`SqlVisitor` walks a parse tree and appends nodes to `out_graph`. Its state is
that graph and four contexts that map names to nodes. A visit returns a
`std::any`, which holds a node or, for a construct without a visitor of its
own, nothing: the default visit of a rule visits the children in order and
returns what the last one does, and a terminal gives nothing. `castNode` is the
cast of `visitNode`, which throws on nothing.

The functions are mutually recursive over the rules of the grammar, with one
more function for each repeated or optional part.
-/

namespace DistStorage

namespace Proto

structure ColumnSchema where
  name : Bytes
  type : Query.ValueType
  deriving DecidableEq, Repr

structure TableSchema where
  name : Bytes
  columns : List ColumnSchema
  deriving DecidableEq, Repr

end Proto

namespace Parse

open Cpp Query QueryGraph Proto

/-- What a visitor is given besides the tree: the tables of the database and
the library's reading of a floating point number. -/
structure Environment where
  tables : List TableSchema
  stod : Bytes → Except Exception Double

abbrev Context := OrderedMap Bytes ℤ

structure VisitorState where
  outGraph : QueryGraph := default
  fileTableContext : Context := ∅
  withTableContext : Context := ∅
  exprTableContext : Context := ∅
  exprVarContext : Context := ∅

abbrev Visit := Action Exception VisitorState

/-- A `std::any` with a node or with nothing. -/
abbrev Any := Option ℤ

def castNode (m : Visit Any) : Visit ℤ := do
  match ← m with
  | some nodeId => pure nodeId
  | none => Action.throw .badAnyCast

def toAny (m : Visit ℤ) : Visit Any := do
  let nodeId ← m
  pure (some nodeId)

def build (f : QueryGraph → ℤ × QueryGraph) : Visit ℤ := do
  let s ← Action.get
  let (nodeId, g) := f s.outGraph
  Action.modify fun s => { s with outGraph := g }
  pure nodeId

def ofExcept {α : Type} : Except Exception α → Visit α
  | .ok a => pure a
  | .error e => Action.throw e

/-- The node of the first map that has the identifier. -/
def findIdent (ident : Bytes) : List Context → ℤ
  | [] => nodeNone
  | identMap :: rest =>
      match identMap.find ident with
      | some nodeId => nodeId
      | none => findIdent ident rest

def setName (nodeId : ℤ) (name : Bytes) : Visit Unit := do
  let s ← Action.get
  let g ← Action.ofOption (s.outGraph.setNodeName nodeId name)
  Action.modify fun s => { s with outGraph := g }

def appendColumns : List ColumnSchema → Visit (List ℤ)
  | [] => pure []
  | col :: rest => do
      let colNodeId ← build fun g => g.appendColumn col.name col.type
      let colNodeIds ← appendColumns rest
      pure (colNodeId :: colNodeIds)

def insertTableColumnNodes (schema : TableSchema) : Visit ℤ := do
  let colNodeIds ← appendColumns schema.columns
  build fun g => g.appendTable schema.name colNodeIds

def findOrInsertTable (env : Environment) (name : Bytes) : Visit ℤ := do
  let s ← Action.get
  let tableNodeId := findIdent name [s.fileTableContext, s.withTableContext]
  if tableNodeId ≠ nodeNone then
    let o ← Action.ofOption (Cpp.index s.outGraph.operations tableNodeId)
    if isTableOperation o.op then pure tableNodeId
    else Action.throw (.sqlCompileError (bytes "Invalid table name: " ++ name))
  else
    match env.tables.find? fun schema => schema.name = name with
    | some schema =>
        let tableNodeId ← insertTableColumnNodes schema
        Action.modify fun s =>
          { s with fileTableContext := s.fileTableContext.insert name tableNodeId }
        pure tableNodeId
    | none => Action.throw (.sqlCompileError (bytes "Unknown table name: " ++ name))

def appendOperation (op : Bytes) (nodeArgs : List ℤ) : Visit ℤ :=
  match opMap.lookup (normalizeOp op) with
  | some opValue => build fun g => g.appendNode nodeNone opValue .Any nodeArgs
  | none => Action.throw (.sqlCompileError (bytes "Unknown operator: " ++ op))

/-- A node over a list of nodes, left out around a single one. -/
def appendUnlessSingle (op : ColumnOperation) : List ℤ → Visit ℤ
  | [nodeId] => pure nodeId
  | nodeIds => build fun g => g.appendNode nodeNone op .Any nodeIds

def visitLiteralExpr (env : Environment) : Literal → Visit Any
  | .string token => do
      let str ← ofExcept (substr token 1 (sizeT (token.length + (2 ^ 64 - 2))))
      toAny (build fun g => g.appendStringConstant (unescapeSqlString str))
  | .int minus token => do
      let num ← ofExcept (stoll ((if minus then bytes "-" else []) ++ token))
      toAny (build fun g => g.appendInt64Constant num)
  | .float minus token => do
      let num ← ofExcept (env.stod ((if minus then bytes "-" else []) ++ token))
      toAny (build fun g => g.appendFloat64Constant num)
  | .nullKw => toAny (build fun g => g.appendNode 0 .NULL_ .Any [])
  | .trueKw => toAny (build fun g => g.appendNode 0 .TRUE .Bool [])
  | .falseKw => toAny (build fun g => g.appendNode 0 .FALSE .Bool [])

def visitColumnExpr (tableName : Option Bytes) (columnName : Bytes) : Visit Any := do
  let varName :=
    match tableName with
    | some tableName => tableName ++ bytes "." ++ columnName
    | none => columnName
  let s ← Action.get
  let nodeId := findIdent varName [s.exprVarContext]
  if nodeId = nodeNone then
    Action.throw (.sqlCompileError (bytes "Unknown identifier: " ++ varName))
  else pure (some nodeId)

/-- One comparison of a chain. The text of the operator is not normalized. -/
def appendComparison (op : CmpOp) (leftNodeId rightNodeId : ℤ) : Visit ℤ :=
  match opMap.lookup op.text with
  | some opValue => build fun g => g.appendNode nodeNone opValue .Any [leftNodeId, rightNodeId]
  | none => Action.throw .outOfRange

def appendBetween (notOp : Bool) (lowerNodeId middleNodeId upperNodeId : ℤ) : Visit ℤ := do
  let cmp1Id ← build fun g => g.appendNode nodeNone .LTE .Any [lowerNodeId, middleNodeId]
  let cmp2Id ← build fun g => g.appendNode nodeNone .LTE .Any [middleNodeId, upperNodeId]
  build fun g => g.appendNode nodeNone (if notOp then .NAND else .AND) .Any [cmp1Id, cmp2Id]

/-- Give a relation its alias when it has no name. -/
def nameRelation (tableNodeId : ℤ) (aliasName : Option Bytes) : Visit Any := do
  let s ← Action.get
  let exprName ← Action.ofOption (s.outGraph.getNodeName tableNodeId)
  let aliasName := aliasName.getD []
  if exprName = [] ∧ aliasName ≠ [] then setName tableNodeId aliasName
  pure (some tableNodeId)

def enterTable (tableNodeId : ℤ) (aliasName : Option Bytes) : Visit Unit := do
  let s ← Action.get
  let tableAlias ← Action.ofOption (aliasName.or (s.outGraph.getNodeName tableNodeId))
  let exprVarContext ←
    Action.ofOption (loadTableNames s.exprVarContext s.outGraph tableNodeId tableAlias)
  Action.modify fun s => { s with exprVarContext := exprVarContext }
  if tableAlias ≠ [] then
    Action.modify fun s =>
      { s with exprTableContext := s.exprTableContext.insert tableAlias tableNodeId }

/-- The columns of a global star: the variables without a dot in their name. -/
def globalStar (exprVarContext : Context) : List ℤ :=
  (exprVarContext.entries.filter fun col => !col.1.contains (byte '.')).map Prod.snd

def appendFilter (dfNodeId : ℤ) : List ℤ → Visit ℤ
  | [] => pure dfNodeId
  | [filterNodeId] =>
      build fun g => g.appendNode nodeNone .FILTER .Any [dfNodeId, filterNodeId]
  | filters => do
      let filterNodeId ← build fun g => g.appendNode nodeNone .AND .Any filters
      build fun g => g.appendNode nodeNone .FILTER .Any [dfNodeId, filterNodeId]

def appendKeys (op : ColumnOperation) (dfNodeId : ℤ) (keyNodeIds : List ℤ) : Visit ℤ :=
  if keyNodeIds = [] then pure dfNodeId
  else build fun g => g.appendNode nodeNone op .Any (dfNodeId :: keyNodeIds)

/-- The `RANGE` node. A missing offset is made a zero, a missing limit stays
the mark of an absent node. -/
def appendRange (dfNodeId offsetNodeId limitNodeId : ℤ) : Visit ℤ :=
  if limitNodeId ≠ nodeNone ∨ offsetNodeId ≠ nodeNone then do
    let offsetNodeId ←
      if offsetNodeId = nodeNone then build fun g => g.appendInt64Constant 0
      else pure offsetNodeId
    let limitNodeId ←
      if limitNodeId ≠ nodeNone then
        build fun g => g.appendNode nodeNone .ADD .Int64 [offsetNodeId, limitNodeId]
      else pure limitNodeId
    build fun g => g.appendNode nodeNone .RANGE .Any [dfNodeId, offsetNodeId, limitNodeId]
  else pure dfNodeId

/-- The nodes of a select statement over those of its clauses. -/
def constructSelect (tableNodeIds columnNodeIds filters groupNodeIds orderNodeIds : List ℤ)
    (offsetNodeId limitNodeId : ℤ) : Visit ℤ := do
  let dfNodeId ← build fun g =>
    g.appendNode nodeNone .DF .Any (tableNodeIds ++ columnNodeIds)
  let dfNodeId ← appendFilter dfNodeId filters
  let dfNodeId ← appendKeys .GROUP dfNodeId groupNodeIds
  let dfNodeId ← appendKeys .SORT dfNodeId orderNodeIds
  appendRange dfNodeId offsetNodeId limitNodeId

/-- Run a visit with `enter` before it and `leave`, given the old state, after
it, also when it throws. -/
def inScope {α : Type} (enter : VisitorState → VisitorState)
    (leave : VisitorState → VisitorState → VisitorState) (m : Visit α) : Visit α := do
  let old ← Action.get
  Action.modify enter
  let a ← m.tryCatch fun e => do
    Action.modify (leave old)
    Action.throw e
  Action.modify (leave old)
  pure a

def enterSelect (s : VisitorState) : VisitorState :=
  { s with exprTableContext := ∅, exprVarContext := ∅ }

/-- The source assigns `exprVarContext` twice and `exprTableContext` never. -/
def leaveSelect (old s : VisitorState) : VisitorState :=
  let s := { s with exprVarContext := old.exprTableContext }
  { s with exprVarContext := old.exprVarContext }

def enterQuery (s : VisitorState) : VisitorState :=
  { s with withTableContext := ∅ }

def leaveQuery (old s : VisitorState) : VisitorState :=
  { s with withTableContext := old.withTableContext }

mutual

def visitQueryExpression (env : Environment) : QueryExpression → Visit Any
  | .mk selectStatement rest => do
      let first ← castNode (visitSelectStatement env selectStatement)
      let selectNodeIds ← visitSelectStatements env rest
      toAny (appendUnlessSingle .UNION (first :: selectNodeIds))

def visitSelectStatements (env : Environment) : List SelectStatement → Visit (List ℤ)
  | [] => pure []
  | selectStatement :: rest => do
      let selectNodeId ← castNode (visitSelectStatement env selectStatement)
      let selectNodeIds ← visitSelectStatements env rest
      pure (selectNodeId :: selectNodeIds)

def visitSelectStatement (env : Environment) : SelectStatement → Visit Any
  | .mk selectElement rest fromClause whereExpr groupByExprs sortItems limitExpr offsetExpr =>
      toAny <| inScope enterSelect leaveSelect do
        let (tableNodeIds, joinFilters) ← visitFrom env fromClause
        let columnNodeIds ← visitSelectElement env selectElement
        let otherNodeIds ← visitSelectElements env rest
        let whereNodeId ← visitOptional env whereExpr
        let groupNodeIds ← visitExpressions env groupByExprs
        let orderNodeIds ← visitSortItems env sortItems
        let offsetNodeId ← visitOptional env offsetExpr
        let limitNodeId ← visitOptional env limitExpr
        constructSelect tableNodeIds (columnNodeIds ++ otherNodeIds)
          (joinFilters ++ whereNodeId.toList) groupNodeIds orderNodeIds
          (offsetNodeId.getD nodeNone) (limitNodeId.getD nodeNone)

def visitOptional (env : Environment) : Option Expression → Visit (Option ℤ)
  | none => pure none
  | some expression => do
      let nodeId ← castNode (visitExpression env expression)
      pure (some nodeId)

def visitFrom (env : Environment) : Option FromClause → Visit (List ℤ × List ℤ)
  | none => pure ([], [])
  | some fromClause => visitFromClause env fromClause

def visitFromClause (env : Environment) : FromClause → Visit (List ℤ × List ℤ)
  | .mk baseTable joins => do
      let tableNodeId ← castNode (visitRelation env baseTable)
      enterTable tableNodeId baseTable.aliasName
      let (tableNodeIds, filters) ← visitJoins env joins
      pure (tableNodeId :: tableNodeIds, filters)

def visitJoins (env : Environment) : List JoinClause → Visit (List ℤ × List ℤ)
  | [] => pure ([], [])
  | joinClause :: rest => do
      let (tableNodeId, filter) ← visitJoinClause env joinClause
      let (tableNodeIds, filters) ← visitJoins env rest
      pure (tableNodeId :: tableNodeIds, filter :: filters)

/-- The relation of a join is visited twice, and only the second node kept. -/
def visitJoinClause (env : Environment) : JoinClause → Visit (ℤ × ℤ)
  | .mk relation onExpr => do
      let _ ← visitRelation env relation
      let tableNodeId ← castNode (visitRelation env relation)
      enterTable tableNodeId relation.aliasName
      let filter ← castNode (visitExpression env onExpr)
      pure (tableNodeId, filter)

def visitRelation (env : Environment) : Relation → Visit Any
  | .table name aliasName => do
      let tableNodeId ← findOrInsertTable env name
      nameRelation tableNodeId aliasName
  | .subquery queryExpression aliasName => do
      let tableNodeId ← castNode (visitQueryExpression env queryExpression)
      nameRelation tableNodeId aliasName

/-- The columns of one element. Those of a table star are not put in yet. -/
def visitSelectElement (env : Environment) : SelectElement → Visit (List ℤ)
  | .globalStar => do
      let s ← Action.get
      pure (globalStar s.exprVarContext)
  | .tableStar _ => pure []
  | .expression expression none => do
      let elementNodeId ← castNode (visitExpression env expression)
      pure [elementNodeId]
  | .expression expression (some aliasName) => do
      let elementNodeId ← castNode (visitExpression env expression)
      setName elementNodeId aliasName
      pure [elementNodeId]

def visitSelectElements (env : Environment) : List SelectElement → Visit (List ℤ)
  | [] => pure []
  | selectElement :: rest => do
      let columnNodeIds ← visitSelectElement env selectElement
      let otherNodeIds ← visitSelectElements env rest
      pure (columnNodeIds ++ otherNodeIds)

def visitSortItem (env : Environment) : SortItem → Visit ℤ
  | .mk expression desc => do
      let itemNodeId ← castNode (visitExpression env expression)
      if desc then build fun g => g.appendNode nodeNone .DESC .Any [itemNodeId]
      else pure itemNodeId

def visitSortItems (env : Environment) : List SortItem → Visit (List ℤ)
  | [] => pure []
  | sortItem :: rest => do
      let itemNodeId ← visitSortItem env sortItem
      let orderNodeIds ← visitSortItems env rest
      pure (itemNodeId :: orderNodeIds)

def visitExpressions (env : Environment) : List Expression → Visit (List ℤ)
  | [] => pure []
  | expression :: rest => do
      let nodeId ← castNode (visitExpression env expression)
      let nodeIds ← visitExpressions env rest
      pure (nodeId :: nodeIds)

def visitExpression (env : Environment) : Expression → Visit Any
  | .mk orExpr => toAny (castNode (visitOrExpr env orExpr))

def visitOrExpr (env : Environment) : OrExpr → Visit Any
  | .mk firstArg args => do
      let first ← castNode (visitXorExpr env firstArg)
      let nodeIds ← visitXorExprs env args
      toAny (appendUnlessSingle .OR (first :: nodeIds))

def visitXorExprs (env : Environment) : List XorExpr → Visit (List ℤ)
  | [] => pure []
  | arg :: rest => do
      let nodeId ← castNode (visitXorExpr env arg)
      let nodeIds ← visitXorExprs env rest
      pure (nodeId :: nodeIds)

def visitXorExpr (env : Environment) : XorExpr → Visit Any
  | .mk firstArg args => do
      let first ← castNode (visitAndExpr env firstArg)
      let nodeIds ← visitAndExprs env args
      toAny (appendUnlessSingle .XOR (first :: nodeIds))

def visitAndExprs (env : Environment) : List AndExpr → Visit (List ℤ)
  | [] => pure []
  | arg :: rest => do
      let nodeId ← castNode (visitAndExpr env arg)
      let nodeIds ← visitAndExprs env rest
      pure (nodeId :: nodeIds)

def visitAndExpr (env : Environment) : AndExpr → Visit Any
  | .mk firstArg args => do
      let first ← castNode (visitNotExpr env firstArg)
      let nodeIds ← visitNotExprs env args
      toAny (appendUnlessSingle .AND (first :: nodeIds))

def visitNotExprs (env : Environment) : List NotExpr → Visit (List ℤ)
  | [] => pure []
  | arg :: rest => do
      let nodeId ← castNode (visitNotExpr env arg)
      let nodeIds ← visitNotExprs env rest
      pure (nodeId :: nodeIds)

def visitNotExpr (env : Environment) : NotExpr → Visit Any
  | .not op exprNot => do
      let nodeId ← castNode (visitNotExpr env exprNot)
      toAny (appendOperation op.text [nodeId])
  | .pass exprPass => toAny (castNode (visitCmpExpr env exprPass))

/-- `IS NULL` does not visit its operand. `IN` has no visitor of its own: its
last child ends in a terminal. -/
def visitCmpExpr (env : Environment) : CmpExpr → Visit Any
  | .comparisonExpr left tail => do
      let leftNodeId ← castNode (visitMathExpr env left)
      let cmpNodeIds ← visitCmpTail env leftNodeId tail
      toAny (appendUnlessSingle .AND cmpNodeIds)
  | .isNullExpr _ op => toAny (appendOperation op.text [])
  | .inExpr left right => do
      let _ ← visitMathExpr env left
      visitArrayExpression env right
  | .likeExpr left op right => do
      let leftNodeId ← castNode (visitMathExpr env left)
      let rightNodeId ← castNode (visitMathExpr env right)
      toAny (appendOperation op.text [leftNodeId, rightNodeId])
  | .betweenExpr left notOp lower upper => do
      let lowerNodeId ← castNode (visitMathExpr env lower)
      let middleNodeId ← castNode (visitMathExpr env left)
      let upperNodeId ← castNode (visitMathExpr env upper)
      toAny (appendBetween notOp lowerNodeId middleNodeId upperNodeId)
  | .mathFallthrough mathExpr => visitMathExpr env mathExpr

/-- The loop of a comparison chain, from the node on its left. -/
def visitCmpTail (env : Environment) (leftNodeId : ℤ) : CmpTail → Visit (List ℤ)
  | .last op right => do
      let rightNodeId ← castNode (visitMathExpr env right)
      let cmpNodeId ← appendComparison op leftNodeId rightNodeId
      pure [cmpNodeId]
  | .cons op right rest => do
      let rightNodeId ← castNode (visitMathExpr env right)
      let cmpNodeId ← appendComparison op leftNodeId rightNodeId
      let cmpNodeIds ← visitCmpTail env rightNodeId rest
      pure (cmpNodeId :: cmpNodeIds)

/-- A cast has no visitor of its own: its last child is the data type. -/
def visitMathExpr (env : Environment) : MathExpr → Visit Any
  | .primaryBase primaryExpr => visitPrimaryExpr env primaryExpr
  | .castExpr left => do
      let _ ← visitMathExpr env left
      pure none
  | .mulDivExpr left op right => do
      let leftNodeId ← castNode (visitMathExpr env left)
      let rightNodeId ← castNode (visitMathExpr env right)
      toAny (appendOperation op.text [leftNodeId, rightNodeId])
  | .addSubExpr left op right => do
      let leftNodeId ← castNode (visitMathExpr env left)
      let rightNodeId ← castNode (visitMathExpr env right)
      toAny (appendOperation op.text [leftNodeId, rightNodeId])

/-- A subquery and a function call have no visitors of their own: their last
child is a parenthesis. -/
def visitPrimaryExpr (env : Environment) : PrimaryExpr → Visit Any
  | .parenthesizedExpr inside => toAny (castNode (visitExpression env inside))
  | .subqueryExpr queryExpression => do
      let _ ← visitQueryExpression env queryExpression
      pure none
  | .functionExpr functionCall => visitFunctionCall env functionCall
  | .columnExpr tableName columnName => visitColumnExpr tableName columnName
  | .literalExpr literal => visitLiteralExpr env literal

def visitArrayExpression (env : Environment) : ArrayExpression → Visit Any
  | .query queryExpression => do
      let _ ← visitQueryExpression env queryExpression
      pure none
  | .list first rest => do
      let _ ← visitExpression env first
      visitArrayElements env rest

/-- The default visit of the further expressions of an array. -/
def visitArrayElements (env : Environment) : List Expression → Visit Any
  | [] => pure none
  | expression :: rest => do
      let _ ← visitExpression env expression
      visitArrayElements env rest

def visitFunctionCall (env : Environment) : FunctionCall → Visit Any
  | .standardFunction expression => do
      let _ ← visitExpression env expression
      pure none
  | .countStar => pure none
  | .countFunction expression => do
      let _ ← visitExpression env expression
      pure none

end

/-- The visit of a statement. Only a select has a visitor that does not throw. -/
def visitStatement (env : Environment) : Statement → Visit Any
  | .selectStmt queryExpression => visitQueryExpression env queryExpression
  | .updateStmt => Action.throw (.sqlCompileError (bytes "Update unimplemented"))
  | .deleteStmt => Action.throw (.sqlCompileError (bytes "Delete unimplemented"))

def visitCtes (env : Environment) : List Cte → Visit Unit
  | [] => pure ()
  | cte :: rest => do
      let nodeId ← castNode (visitQueryExpression env cte.expr)
      Action.modify fun s =>
        { s with withTableContext := s.withTableContext.insert cte.aliasName nodeId }
      visitCtes env rest

def visitQuery (env : Environment) (ctx : QueryContext) : Visit Any :=
  toAny <| inScope enterQuery leaveQuery do
    visitCtes env ctx.cte
    castNode (visitStatement env ctx.statement)

end Parse

end DistStorage
