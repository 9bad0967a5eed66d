import DistStorage.Cpp.Bytes
import DistStorage.Cpp.OrderedMap
import DistStorage.Query.Append

/-!
# Building a query graph

The visitor of a query fills a graph node by node. Besides the two vectors of
`OpGraph` it fills a table of names and a table of constants for each type; an
operation refers to them by position. Every function below that adds a node
returns its identifier, which is the number of nodes before. Identifiers are
not bounded by the width of an `int` here.
-/

namespace DistStorage

namespace Query

/-- A `double`, by its bit pattern. -/
abbrev Double := UInt64

/-- A query graph with its tables of constants and names. -/
structure QueryGraph extends OpGraph where
  int64Constants : List ℤ := []
  int64ArrayConstants : List (List ℤ) := []
  float64Constants : List Double := []
  float64ArrayConstants : List (List Double) := []
  stringConstants : List Bytes := []
  stringArrayConstants : List (List Bytes) := []
  names : List Bytes := []
  deriving DecidableEq, Repr, Inhabited

def isTableOperation : ColumnOperation → Bool
  | .TABLE | .DF | .FILTER | .RANGE | .SORT | .UNION => true
  | _ => false

def isLiteral : ColumnOperation → Bool
  | .CONST | .NULL_ | .TRUE | .FALSE => true
  | _ => false

namespace QueryGraph

def push (g : QueryGraph) (o : Operation) (args : List ℤ) : ℤ × QueryGraph :=
  (g.operations.length, { g with toOpGraph := g.toOpGraph.append [(o, args)] })

def appendName (g : QueryGraph) (name : Bytes) : ℤ × QueryGraph :=
  (g.names.length, { g with names := g.names ++ [name] })

def setNodeName (g : QueryGraph) (nodeId : ℤ) (name : Bytes) : Option QueryGraph :=
  let (nameId, g) := g.appendName name
  (Cpp.index g.operations nodeId).map fun _ =>
    { g with toOpGraph := g.modifyOperation nodeId fun o => { o with name := nameId } }

/-- Empty for a node without a name, undefined when a position is out of
range. -/
def getNodeName (g : QueryGraph) (nodeId : ℤ) : Option Bytes :=
  (Cpp.index g.operations nodeId).bind fun o =>
    if o.name = nodeNone then some [] else Cpp.index g.names o.name

/-- Append a node for the constant at position `constId` of its table. -/
def appendConstant (g : QueryGraph) (constId : ℤ) (type : ValueType) : ℤ × QueryGraph :=
  g.push { op := .CONST, constId := constId, df := 0, type := type, sequence := .SINGLE } []

def appendInt64Constant (g : QueryGraph) (value : ℤ) : ℤ × QueryGraph :=
  appendConstant { g with int64Constants := g.int64Constants ++ [value] }
    g.int64Constants.length .Int64

def appendFloat64Constant (g : QueryGraph) (value : Double) : ℤ × QueryGraph :=
  appendConstant { g with float64Constants := g.float64Constants ++ [value] }
    g.float64Constants.length .Float64

def appendStringConstant (g : QueryGraph) (value : Bytes) : ℤ × QueryGraph :=
  appendConstant { g with stringConstants := g.stringConstants ++ [value] }
    g.stringConstants.length .String

def appendColumn (g : QueryGraph) (name : Bytes) (type : ValueType) : ℤ × QueryGraph :=
  let (nameId, g) := g.appendName name
  g.push { op := .COLUMN, name := nameId, type := type, sequence := .ARRAY } []

def appendTable (g : QueryGraph) (name : Bytes) (colNodeIds : List ℤ) : ℤ × QueryGraph :=
  let (nameId, g) := g.appendName name
  g.push { op := .TABLE, name := nameId, sequence := .ARRAY } colNodeIds

/-- The node is a single value whatever `sequence` the source is given. -/
def appendNode (g : QueryGraph) (df : ℤ) (op : ColumnOperation) (type : ValueType)
    (args : List ℤ) : ℤ × QueryGraph :=
  g.push { op := op, df := df, type := type, sequence := .SINGLE } args

def loadColumnNames (g : QueryGraph) (tableName : Bytes) :
    List ℤ → Cpp.OrderedMap Bytes ℤ → Option (Cpp.OrderedMap Bytes ℤ)
  | [], ctx => some ctx
  | colNodeId :: rest, ctx =>
      (Cpp.index g.operations colNodeId).bind fun o =>
        if o.name = nodeNone then loadColumnNames g tableName rest ctx
        else
          (Cpp.index g.names o.name).bind fun name =>
            let ctx := ctx.insert name colNodeId
            loadColumnNames g tableName rest <|
              if tableName = [] then ctx
              else ctx.insert (tableName ++ bytes "." ++ name) colNodeId

/-- Enter the named columns of a table into a context, undefined when the table
or one of its children is not a node. -/
def loadTableNames (ctx : Cpp.OrderedMap Bytes ℤ) (g : QueryGraph) (tableNodeId : ℤ)
    (tableName : Bytes) : Option (Cpp.OrderedMap Bytes ℤ) :=
  (Cpp.index g.graphMapping tableNodeId).bind fun cols => loadColumnNames g tableName cols ctx

end QueryGraph

end Query

end DistStorage
