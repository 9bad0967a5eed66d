import DistStorage.Cpp.Vector

/-!
# Query graphs

The planner keeps a query as a directed graph in two parallel vectors: the
operation of every node and the list of its children. A node is named by its
position, and a child list may mention a node several times. `OpGraph` is that
pair of vectors, which is all the rewrite rules see; `QueryGraph` adds the
name table and the constant tables filled while a query is visited.

A node identifier, the `node_t` of the source, is a signed integer: an absent
node, name or constant is marked by `-1`.
-/

namespace DistStorage

namespace Query

inductive ColumnOperation
  | CONST | ADD | SUB | MUL | DIV | NEG | INV | ABS | SQRT | EXP | POW | LN | LOG
  | NOT | AND | OR | XOR | NAND | NOR | XNOR
  | EQ | NEQ | GT | LT | GTE | LTE | IN | NOT_IN
  | LIKE | NOT_LIKE | ILIKE | NOT_ILIKE | IS_NULL | IS_NOT_NULL
  | NULL_ | TRUE | FALSE
  | MIN | MAX | SUM | COUNT | COUNT_DISTINCT | AVG | MEDIAN | STD | VAR
  | COLUMN | DESC
  | TABLE | DF | FILTER | RANGE | GROUP | SORT | UNION
  | NOP | INVALID
  deriving DecidableEq, Repr

/-- The wire number of an operation, printed in error texts. -/
def ColumnOperation.number : ColumnOperation → ℕ
  | .CONST => 0 | .ADD => 1 | .SUB => 2 | .MUL => 3 | .DIV => 4 | .NEG => 5
  | .INV => 6 | .ABS => 7 | .SQRT => 8 | .EXP => 9 | .POW => 10 | .LN => 11
  | .LOG => 12
  | .NOT => 30 | .AND => 31 | .OR => 32 | .XOR => 35 | .NAND => 33 | .NOR => 34
  | .XNOR => 36
  | .EQ => 50 | .NEQ => 51 | .GT => 52 | .LT => 53 | .GTE => 54 | .LTE => 55
  | .IN => 56 | .NOT_IN => 57 | .LIKE => 58 | .NOT_LIKE => 59 | .ILIKE => 60
  | .NOT_ILIKE => 61 | .IS_NULL => 62 | .IS_NOT_NULL => 63
  | .NULL_ => 90 | .TRUE => 91 | .FALSE => 92
  | .MIN => 104 | .MAX => 105 | .SUM => 106 | .COUNT => 107
  | .COUNT_DISTINCT => 108 | .AVG => 109 | .MEDIAN => 110 | .STD => 111
  | .VAR => 112
  | .COLUMN => 250 | .DESC => 251
  | .TABLE => 261 | .DF => 262 | .FILTER => 263 | .RANGE => 264 | .GROUP => 265
  | .SORT => 266 | .UNION => 267
  | .NOP => 400 | .INVALID => 500

inductive ValueType
  | Bool | Int8 | UInt8 | Int16 | UInt16 | Int32 | UInt32 | Int64 | UInt64
  | Float32 | Float64 | String | Bytes | Any | JSON
  deriving DecidableEq, Repr

inductive SequenceType
  | ANY | SINGLE | ARRAY
  deriving DecidableEq, Repr

/-- The mark of an absent node, name or constant. -/
def nodeNone : ℤ := -1

theorem ne_nodeNone_of_nonneg {i : ℤ} (h : 0 ≤ i) : i ≠ nodeNone := by
  rintro rfl
  exact absurd h (by decide)

/-- The parameters of one node. Every place that builds one gives `sequence`
explicitly, so its missing default in the source is never read. -/
structure Operation where
  op : ColumnOperation
  name : ℤ := nodeNone
  constId : ℤ := nodeNone
  df : ℤ := nodeNone
  type : ValueType := .Any
  sequence : SequenceType := .ANY
  deriving DecidableEq, Repr

instance : Inhabited Operation := ⟨{ op := .CONST }⟩

/-- The two parallel vectors of a query graph. -/
structure OpGraph where
  operations : List Operation := []
  graphMapping : List (List ℤ) := []
  deriving DecidableEq, Repr, Inhabited

/-- The negation of an operation, `INVALID` when it has none. -/
def getNegatedOperation : ColumnOperation → ColumnOperation
  | .NOT => .NOP
  | .NULL_ => .NULL_
  | .AND => .NAND
  | .OR => .NOR
  | .XOR => .XNOR
  | .NAND => .AND
  | .NOR => .OR
  | .XNOR => .XOR
  | .GT => .LTE
  | .LT => .GTE
  | .GTE => .LT
  | .LTE => .GT
  | .EQ => .NEQ
  | .NEQ => .EQ
  | .IN => .NOT_IN
  | .NOT_IN => .IN
  | .LIKE => .NOT_LIKE
  | .NOT_LIKE => .LIKE
  | .ILIKE => .NOT_ILIKE
  | .NOT_ILIKE => .ILIKE
  | .IS_NULL => .IS_NOT_NULL
  | .IS_NOT_NULL => .IS_NULL
  | _ => .INVALID

def isCummutative : ColumnOperation → Bool
  | .AND | .NAND | .OR | .NOR | .XOR | .XNOR
  | .ADD | .MUL | .MIN | .MAX | .AVG | .COUNT | .COUNT_DISTINCT | .SUM | .MEDIAN | .VAR
  | .STD => true
  | _ => false

namespace OpGraph

def size (g : OpGraph) : ℕ := g.operations.length

/-- The operation of a node. The default is never read at a node of the
graph. -/
def operation (g : OpGraph) (i : ℤ) : Operation :=
  (Cpp.index g.operations i).getD default

def children (g : OpGraph) (i : ℤ) : List ℤ :=
  (Cpp.index g.graphMapping i).getD []

def modifyOperation (g : OpGraph) (i : ℤ) (f : Operation → Operation) : OpGraph :=
  { g with operations := Cpp.modify g.operations i f }

def modifyChildren (g : OpGraph) (i : ℤ) (f : List ℤ → List ℤ) : OpGraph :=
  { g with graphMapping := Cpp.modify g.graphMapping i f }

def Valid (g : OpGraph) (i : ℤ) : Prop := 0 ≤ i ∧ i < g.size

instance (g : OpGraph) (i : ℤ) : Decidable (g.Valid i) :=
  inferInstanceAs (Decidable (_ ∧ _))

end OpGraph

end Query

end DistStorage
