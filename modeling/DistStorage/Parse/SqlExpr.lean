import DistStorage.Parse.Visitor
import DistStorage.Query.Evaluation

/-!
# SQL expressions

The expressions without casts, function calls, `IN` and subqueries, in abstract
syntax, with the value that SQL gives them in three-valued logic. `toSql` reads
a parse tree; a column stands for the node that its name is resolved to, and an
integer literal must be in the range of `int64_t`. The escapes of a string
literal are those of the dialect.

`InPlace` says that the operands of an expression have their nodes at their
places below its own node.
-/

namespace DistStorage

namespace Parse

open Cpp Query

inductive ArithOp
  | add | sub | mul | div
  deriving DecidableEq, Repr

inductive Connective
  | and | or | xor
  deriving DecidableEq, Repr

inductive SqlExpr
  | string (text : Bytes)
  | int (value : ℤ)
  | float (text : Bytes)
  | null
  | bool (b : Bool)
  | column (nodeId : ℤ)
  | arith (op : ArithOp) (left right : SqlExpr)
  | compare (left : SqlExpr) (ops : List CmpOp) (rights : List SqlExpr)
  | between (notOp : Bool) (middle lower upper : SqlExpr)
  | like (op : LikeOp) (left right : SqlExpr)
  | isNull (op : IsNullOp) (operand : SqlExpr)
  | not (operand : SqlExpr)
  | connective (c : Connective) (args : List SqlExpr)

section Reading

/-- A string literal between its quotes. -/
def readString (token : Bytes) : Option Bytes :=
  if token.head? = some (byte '\'') ∧ token.getLast? = some (byte '\'') ∧
      2 ≤ token.length ∧ token.length < 2 ^ 64 then
    some (unescapeSqlString (token.drop 1).dropLast)
  else none

/-- The integer of a literal, if it is one of an `int64_t`. -/
def readInt (minus : Bool) (token : Bytes) : Option ℤ :=
  let value : ℤ := if minus then -(digitsValue token : ℤ) else digitsValue token
  if token ≠ [] ∧ (∀ b ∈ token, isDigit b) ∧ -2 ^ 63 ≤ value ∧ value < 2 ^ 63 then some value
  else none

theorem stoll_of_readInt {minus : Bool} {token : Bytes} {v : ℤ}
    (h : readInt minus token = some v) :
    stoll ((if minus then bytes "-" else []) ++ token) = .ok v := by
  rw [readInt, Option.ite_none_right_eq_some] at h
  obtain ⟨⟨hne, hdigits, hrange⟩, hvalue⟩ := h
  rw [stoll_digits minus hne hdigits, if_pos hrange]
  exact congrArg Except.ok (Option.some.inj hvalue)

theorem readInt_digit {b : UInt8} (h : isDigit b = true) :
    readInt false [b] = some (digitsValue [b] : ℤ) := by
  have hvalue : digitsValue [b] < 256 := by simpa [digitsValue] using UInt8.toNat_lt _
  simp [readInt, h]
  omega

theorem substr_of_readString {token text : Bytes} (h : readString token = some text) :
    ∃ str, substr token 1 (sizeT (token.length + (2 ^ 64 - 2))) = .ok str ∧
      unescapeSqlString str = text := by
  rw [readString, Option.ite_none_right_eq_some] at h
  obtain ⟨⟨-, -, htwo, hlt⟩, htext⟩ := h
  have hcount : sizeT (token.length + (2 ^ 64 - 2)) = token.length - 2 := by
    unfold sizeT
    omega
  refine ⟨(token.drop 1).take (token.length - 2), ?_, ?_⟩
  · rw [substr, if_neg (by omega), hcount]
  · rw [← Option.some.inj htext, List.dropLast_eq_take, List.length_drop]
    congr 2

def Literal.toSql : Literal → Option SqlExpr
  | .string token => (readString token).map .string
  | .int minus token => (readInt minus token).map .int
  | .float minus token => some (.float ((if minus then bytes "-" else []) ++ token))
  | .nullKw => some .null
  | .trueKw => some (.bool true)
  | .falseKw => some (.bool false)

/-- A column whose name is resolved. -/
def columnToSql (names : Context) (tableName : Option Bytes) (columnName : Bytes) :
    Option SqlExpr :=
  let varName :=
    match tableName with
    | some tableName => tableName ++ bytes "." ++ columnName
    | none => columnName
  let nodeId := findIdent varName [names]
  if nodeId = nodeNone then none else some (.column nodeId)

def MulDivOp.toSql : MulDivOp → ArithOp
  | .star => .mul
  | .slash => .div

def AddSubOp.toSql : AddSubOp → ArithOp
  | .plus => .add
  | .minus => .sub

/-- A connective is left out around a single argument. -/
def SqlExpr.connectiveOf (c : Connective) : List SqlExpr → SqlExpr
  | [e] => e
  | args => .connective c args

mutual

def Expression.toSql (names : Context) : Expression → Option SqlExpr
  | .mk orExpr => orExpr.toSql names

def OrExpr.toSql (names : Context) : OrExpr → Option SqlExpr
  | .mk firstArg args => do
      let first ← firstArg.toSql names
      let rest ← xorsToSql names args
      some (.connectiveOf .or (first :: rest))

def xorsToSql (names : Context) : List XorExpr → Option (List SqlExpr)
  | [] => some []
  | arg :: rest => do
      let first ← arg.toSql names
      let others ← xorsToSql names rest
      some (first :: others)

def XorExpr.toSql (names : Context) : XorExpr → Option SqlExpr
  | .mk firstArg args => do
      let first ← firstArg.toSql names
      let rest ← andsToSql names args
      some (.connectiveOf .xor (first :: rest))

def andsToSql (names : Context) : List AndExpr → Option (List SqlExpr)
  | [] => some []
  | arg :: rest => do
      let first ← arg.toSql names
      let others ← andsToSql names rest
      some (first :: others)

def AndExpr.toSql (names : Context) : AndExpr → Option SqlExpr
  | .mk firstArg args => do
      let first ← firstArg.toSql names
      let rest ← notsToSql names args
      some (.connectiveOf .and (first :: rest))

def notsToSql (names : Context) : List NotExpr → Option (List SqlExpr)
  | [] => some []
  | arg :: rest => do
      let first ← arg.toSql names
      let others ← notsToSql names rest
      some (first :: others)

def NotExpr.toSql (names : Context) : NotExpr → Option SqlExpr
  | .not _ exprNot => do
      let operand ← exprNot.toSql names
      some (.not operand)
  | .pass exprPass => exprPass.toSql names

def CmpExpr.toSql (names : Context) : CmpExpr → Option SqlExpr
  | .comparisonExpr left tail => do
      let first ← left.toSql names
      let (ops, rights) ← tail.toSql names
      some (.compare first ops rights)
  | .isNullExpr left op => do
      let operand ← left.toSql names
      some (.isNull op operand)
  | .inExpr _ _ => none
  | .likeExpr left op right => do
      let first ← left.toSql names
      let second ← right.toSql names
      some (.like op first second)
  | .betweenExpr left notOp lower upper => do
      let middle ← left.toSql names
      let first ← lower.toSql names
      let last ← upper.toSql names
      some (.between notOp middle first last)
  | .mathFallthrough mathExpr => mathExpr.toSql names

def CmpTail.toSql (names : Context) : CmpTail → Option (List CmpOp × List SqlExpr)
  | .last op right => do
      let first ← right.toSql names
      some ([op], [first])
  | .cons op right rest => do
      let first ← right.toSql names
      let (ops, rights) ← rest.toSql names
      some (op :: ops, first :: rights)

def MathExpr.toSql (names : Context) : MathExpr → Option SqlExpr
  | .primaryBase primaryExpr => primaryExpr.toSql names
  | .castExpr _ => none
  | .mulDivExpr left op right => do
      let first ← left.toSql names
      let second ← right.toSql names
      some (.arith op.toSql first second)
  | .addSubExpr left op right => do
      let first ← left.toSql names
      let second ← right.toSql names
      some (.arith op.toSql first second)

def PrimaryExpr.toSql (names : Context) : PrimaryExpr → Option SqlExpr
  | .parenthesizedExpr inside => inside.toSql names
  | .subqueryExpr _ => none
  | .functionExpr _ => none
  | .columnExpr tableName columnName => columnToSql names tableName columnName
  | .literalExpr literal => literal.toSql

end

end Reading

section Value

variable {V : Type*} [LinearOrder V]

/-- A comparison of two values that are not null. -/
def CmpOp.test : CmpOp → V → V → Bool
  | .equal, a, b => decide (a = b)
  | .doubleEqual, a, b => decide (a = b)
  | .less, a, b => decide (a < b)
  | .greater, a, b => decide (b < a)
  | .lessEqual, a, b => decide (a ≤ b)
  | .greaterEqual, a, b => decide (b ≤ a)
  | .notEqual, a, b => !decide (a = b)
  | .lessGreater, a, b => !decide (a = b)

/-- A test of two values, unknown if one is null. -/
def testValues (p : V → V → Bool) : Option V → Option V → Option Bool
  | some a, some b => some (p a b)
  | _, _ => none

def compareValues : Option V → List CmpOp → List (Option V) → List (Option Bool)
  | left, op :: ops, right :: rights =>
      testValues op.test left right :: compareValues right ops rights
  | _, _, _ => []

def ArithOp.apply (J : SqlValues V) : ArithOp → Option V → Option V → Option V
  | .add => J.add
  | .sub => J.sub
  | .mul => J.mul
  | .div => J.div

def Connective.apply : Connective → List (Option Bool) → Option Bool
  | .and => Kleene.all
  | .or => Kleene.any
  | .xor => Kleene.parity

def LikeOp.test (J : SqlValues V) (op : LikeOp) : V → V → Bool :=
  match op.kw with
  | .like => J.like
  | .ilike => J.ilike

def negateIf (notOp : Bool) (t : Option Bool) : Option Bool :=
  if notOp then Kleene.not t else t

def floatValue (env : Environment) (J : SqlValues V) (text : Bytes) : Option V :=
  match env.stod text with
  | .ok d => some (J.float64 d)
  | .error _ => none

mutual

def SqlExpr.value (env : Environment) (J : SqlValues V) (column : ℤ → Option V) :
    SqlExpr → Option V
  | .string text => some (J.string text)
  | .int value => some (J.int64 value)
  | .float text => floatValue env J text
  | .null => none
  | .bool b => some (J.ofBool b)
  | .column nodeId => column nodeId
  | .arith op left right => op.apply J (left.value env J column) (right.value env J column)
  | .compare left ops rights =>
      J.interpretation.ofTruth (Kleene.all
        (compareValues (left.value env J column) ops (valuesOf env J column rights)))
  | .between notOp middle lower upper =>
      J.interpretation.ofTruth (negateIf notOp (Kleene.and
        (testValues (fun a b => decide (a ≤ b)) (lower.value env J column)
          (middle.value env J column))
        (testValues (fun a b => decide (a ≤ b)) (middle.value env J column)
          (upper.value env J column))))
  | .like op left right =>
      J.interpretation.ofTruth (negateIf op.notKw
        (testValues (op.test J) (left.value env J column) (right.value env J column)))
  | .isNull op operand =>
      J.interpretation.ofTruth (negateIf op.notKw
        (some (operand.value env J column).isNone))
  | .not operand =>
      J.interpretation.ofTruth (Kleene.not
        (J.interpretation.truthOf (operand.value env J column)))
  | .connective c args =>
      J.interpretation.ofTruth
        (c.apply ((valuesOf env J column args).map J.interpretation.truthOf))

def valuesOf (env : Environment) (J : SqlValues V) (column : ℤ → Option V) :
    List SqlExpr → List (Option V)
  | [] => []
  | e :: es => e.value env J column :: valuesOf env J column es

end

end Value

mutual

/-- There is an `IS NULL` or an `IS NOT NULL` in the expression. -/
def SqlExpr.testsNull : SqlExpr → Bool
  | .isNull _ _ => true
  | .arith _ left right => left.testsNull || right.testsNull
  | .compare left _ rights => left.testsNull || anyTestsNull rights
  | .between _ middle lower upper => middle.testsNull || lower.testsNull || upper.testsNull
  | .like _ left right => left.testsNull || right.testsNull
  | .not operand => operand.testsNull
  | .connective _ args => anyTestsNull args
  | .string _ | .int _ | .float _ | .null | .bool _ | .column _ => false

def anyTestsNull : List SqlExpr → Bool
  | [] => false
  | e :: es => e.testsNull || anyTestsNull es

end

mutual

def SqlExpr.floats : SqlExpr → List Bytes
  | .float text => [text]
  | .isNull _ operand => operand.floats
  | .arith _ left right => left.floats ++ right.floats
  | .compare left _ rights => left.floats ++ floatsOf rights
  | .between _ middle lower upper => lower.floats ++ (middle.floats ++ upper.floats)
  | .like _ left right => left.floats ++ right.floats
  | .not operand => operand.floats
  | .connective _ args => floatsOf args
  | .string _ | .int _ | .null | .bool _ | .column _ => []

def floatsOf : List SqlExpr → List Bytes
  | [] => []
  | e :: es => e.floats ++ floatsOf es

end

theorem floats_connectiveOf (c : Connective) (es : List SqlExpr) :
    (SqlExpr.connectiveOf c es).floats = floatsOf es := by
  match es with
  | [e] => simp [SqlExpr.connectiveOf, floatsOf]
  | [] => simp [SqlExpr.connectiveOf, SqlExpr.floats]
  | _ :: _ :: _ => simp [SqlExpr.connectiveOf, SqlExpr.floats]

mutual

/-- The operands have their nodes in their places below the node. -/
def SqlExpr.InPlace (g : OpGraph) : SqlExpr → ℤ → Prop
  | .column nodeId, i => i = nodeId
  | .arith _ left right, i => ∃ j k, g.children i = [j, k] ∧ left.InPlace g j ∧ right.InPlace g k
  | .compare left ops rights, i =>
      ∃ j, left.InPlace g j ∧
        chainInPlace g rights j (if ops.length = 1 then [i] else g.children i)
  | .between _ middle lower upper, i =>
      ∃ c d j k l, g.children i = [c, d] ∧ g.children c = [j, k] ∧ g.children d = [k, l] ∧
        lower.InPlace g j ∧ middle.InPlace g k ∧ upper.InPlace g l
  | .like _ left right, i => ∃ j k, g.children i = [j, k] ∧ left.InPlace g j ∧ right.InPlace g k
  | .isNull _ operand, i => ∃ j, g.children i = [j] ∧ operand.InPlace g j
  | .not operand, i => ∃ j, g.children i = [j] ∧ operand.InPlace g j
  | .connective _ args, i => allInPlace g args (g.children i)
  | .string _, i | .int _, i | .float _, i | .null, i | .bool _, i => g.children i = []

def allInPlace (g : OpGraph) : List SqlExpr → List ℤ → Prop
  | [], is => is = []
  | e :: es, is => ∃ i js, is = i :: js ∧ e.InPlace g i ∧ allInPlace g es js

/-- The comparisons of a chain, each over the node on its left and its own. -/
def chainInPlace (g : OpGraph) : List SqlExpr → ℤ → List ℤ → Prop
  | [], _, is => is = []
  | e :: es, left, is =>
      ∃ i js right, is = i :: js ∧ g.children i = [left, right] ∧ e.InPlace g right ∧
        chainInPlace g es right js

end

attribute [grind =] SqlExpr.value valuesOf SqlExpr.testsNull anyTestsNull SqlExpr.InPlace
  allInPlace chainInPlace

end Parse

end DistStorage
