import DistStorage.Cpp.Bytes

/-!
# Parse trees of the SQL grammar

One type for each rule of the grammar and one constructor for each of its
labelled alternatives, with the fields under the grammar's labels. A keyword is
recognised in any letter case and the visitor folds the case of operators, so an
operator is kept without its spelling. What no visitor reads is left out: the
places of tokens in the input, `ALL`, `ASC`, join types, the names of functions
and data types, the operator of `IN`, and the contents of `UPDATE` and `DELETE`.

`Expression.varName` is the name of the column that an expression refers to when
nothing but parentheses stand around the reference.
-/

namespace DistStorage

namespace Parse

inductive MulDivOp
  | star | slash
  deriving DecidableEq, Repr

inductive AddSubOp
  | plus | minus
  deriving DecidableEq, Repr

inductive NotOp
  | keyword | tilde | exclamation
  deriving DecidableEq, Repr

inductive CmpOp
  | equal | doubleEqual | less | greater | lessEqual | greaterEqual | notEqual | lessGreater
  deriving DecidableEq, Repr

structure IsNullOp where
  notKw : Bool
  deriving DecidableEq, Repr

inductive LikeKw
  | like | ilike
  deriving DecidableEq, Repr

structure LikeOp where
  notKw : Bool
  kw : LikeKw
  deriving DecidableEq, Repr

/-- The alternatives of `LiteralExpr`, with the texts of the tokens. -/
inductive Literal
  | string (token : Bytes)
  | int (minus : Bool) (token : Bytes)
  | float (minus : Bool) (token : Bytes)
  | nullKw
  | trueKw
  | falseKw
  deriving DecidableEq, Repr

mutual

inductive QueryExpression
  | mk (selectStatement : SelectStatement) (rest : List SelectStatement)

inductive SelectStatement
  | mk (selectElement : SelectElement) (rest : List SelectElement)
      (fromClause : Option FromClause) (whereExpr : Option Expression)
      (groupByExprs : List Expression) (sortItems : List SortItem)
      (limitExpr offsetExpr : Option Expression)

inductive FromClause
  | mk (baseTable : Relation) (joins : List JoinClause)

inductive JoinClause
  | mk (relation : Relation) (onExpr : Expression)

inductive Relation
  | table (name : Bytes) (aliasName : Option Bytes)
  | subquery (queryExpression : QueryExpression) (aliasName : Option Bytes)

inductive SelectElement
  | globalStar
  | tableStar (tableName : Bytes)
  | expression (expression : Expression) (aliasName : Option Bytes)

inductive SortItem
  | mk (expression : Expression) (desc : Bool)

inductive Expression
  | mk (orExpr : OrExpr)

inductive OrExpr
  | mk (firstArg : XorExpr) (args : List XorExpr)

inductive XorExpr
  | mk (firstArg : AndExpr) (args : List AndExpr)

inductive AndExpr
  | mk (firstArg : NotExpr) (args : List NotExpr)

inductive NotExpr
  | not (op : NotOp) (exprNot : NotExpr)
  | pass (exprPass : CmpExpr)

inductive CmpExpr
  | comparisonExpr (left : MathExpr) (tail : CmpTail)
  | isNullExpr (left : MathExpr) (op : IsNullOp)
  | inExpr (left : MathExpr) (right : ArrayExpression)
  | likeExpr (left : MathExpr) (op : LikeOp) (right : MathExpr)
  | betweenExpr (left : MathExpr) (notOp : Bool) (lower upper : MathExpr)
  | mathFallthrough (mathExpr : MathExpr)

/-- The non-empty list `(ops+=cmpOp rights+=mathExpr)+`. -/
inductive CmpTail
  | last (op : CmpOp) (right : MathExpr)
  | cons (op : CmpOp) (right : MathExpr) (rest : CmpTail)

inductive MathExpr
  | primaryBase (primaryExpr : PrimaryExpr)
  | castExpr (left : MathExpr)
  | mulDivExpr (left : MathExpr) (op : MulDivOp) (right : MathExpr)
  | addSubExpr (left : MathExpr) (op : AddSubOp) (right : MathExpr)

inductive PrimaryExpr
  | parenthesizedExpr (inside : Expression)
  | subqueryExpr (queryExpression : QueryExpression)
  | functionExpr (functionCall : FunctionCall)
  | columnExpr (tableName : Option Bytes) (columnName : Bytes)
  | literalExpr (literal : Literal)

inductive ArrayExpression
  | query (queryExpression : QueryExpression)
  | list (first : Expression) (rest : List Expression)

inductive FunctionCall
  | standardFunction (expression : Expression)
  | countStar
  | countFunction (expression : Expression)

end

structure Cte where
  aliasName : Bytes
  expr : QueryExpression

inductive Statement
  | selectStmt (queryExpression : QueryExpression)
  | updateStmt
  | deleteStmt

/-- The rule `query`, where parsing starts. -/
structure QueryContext where
  cte : List Cte
  statement : Statement

def Relation.aliasName : Relation → Option Bytes
  | .table _ aliasName => aliasName
  | .subquery _ aliasName => aliasName

/-- The key of a column in `exprVarContext`. -/
def columnKey (tableName : Option Bytes) (columnName : Bytes) : Bytes :=
  match tableName with
  | some tableName => tableName ++ bytes "." ++ columnName
  | none => columnName

mutual

def Expression.varName : Expression → Option Bytes
  | .mk orExpr => orExpr.varName

def OrExpr.varName : OrExpr → Option Bytes
  | .mk firstArg [] => firstArg.varName
  | .mk _ (_ :: _) => none

def XorExpr.varName : XorExpr → Option Bytes
  | .mk firstArg [] => firstArg.varName
  | .mk _ (_ :: _) => none

def AndExpr.varName : AndExpr → Option Bytes
  | .mk firstArg [] => firstArg.varName
  | .mk _ (_ :: _) => none

def NotExpr.varName : NotExpr → Option Bytes
  | .not _ _ => none
  | .pass exprPass => exprPass.varName

def CmpExpr.varName : CmpExpr → Option Bytes
  | .comparisonExpr _ _ => none
  | .isNullExpr _ _ => none
  | .inExpr _ _ => none
  | .likeExpr _ _ _ => none
  | .betweenExpr _ _ _ _ => none
  | .mathFallthrough mathExpr => mathExpr.varName

def MathExpr.varName : MathExpr → Option Bytes
  | .primaryBase primaryExpr => primaryExpr.varName
  | .castExpr _ => none
  | .mulDivExpr _ _ _ => none
  | .addSubExpr _ _ _ => none

/-- The name that the expression refers to, if it is a column. -/
def PrimaryExpr.varName : PrimaryExpr → Option Bytes
  | .parenthesizedExpr inside => inside.varName
  | .subqueryExpr _ => none
  | .functionExpr _ => none
  | .columnExpr tableName columnName => some (columnKey tableName columnName)
  | .literalExpr _ => none

end

end Parse

end DistStorage
