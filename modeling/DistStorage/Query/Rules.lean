import DistStorage.Query.Graph

/-!
# Rewrite rules of the query planner

A rule never changes a node in place: it appends copies of nodes, changes the
copies, and returns the node that should stand for the old one. A rule that
does not apply throws `std::invalid_argument`, possibly after some copies were
appended, so every rule returns the graph next to its outcome.
-/

namespace DistStorage

namespace Query

structure InvalidArgument where
  what : String
  deriving DecidableEq, Repr

abbrev RuleResult := Except InvalidArgument ℤ × OpGraph

namespace OpGraph

/-- Append nodes, each given by its parameters and its children. -/
def append (g : OpGraph) (nodes : List (Operation × List ℤ)) : OpGraph where
  operations := g.operations ++ nodes.map Prod.fst
  graphMapping := g.graphMapping ++ nodes.map Prod.snd

def setOp (g : OpGraph) (i : ℤ) (op : ColumnOperation) : OpGraph :=
  g.modifyOperation i fun o => { o with op := op }

end OpGraph

def cloneNode (g : OpGraph) (node : ℤ) : ℤ × OpGraph :=
  (g.operations.length, g.append [(g.operation node, g.children node)])

/-- Append a copy of a node with the negated operation. The source writes this
twice, in the De Morgan rule and in the rule for `NOT`. -/
def cloneNegated (g : OpGraph) (node : ℤ) : RuleResult :=
  let (newChildIdx, g) := cloneNode g node
  let negatedOp := getNegatedOperation (g.operation newChildIdx).op
  if negatedOp = .INVALID then
    (.error ⟨"Invalid operation for negation: " ++
      toString (g.operation newChildIdx).op.number⟩, g)
  else
    (.ok newChildIdx, g.setOp newChildIdx negatedOp)

/-- The loop of the De Morgan rule over the old children. -/
def demorganChildren (newNodeIdx : ℤ) :
    List ℤ → OpGraph → Except InvalidArgument Unit × OpGraph
  | [], g => (.ok (), g)
  | child :: rest, g =>
      match cloneNegated g child with
      | (.error e, g) => (.error e, g)
      | (.ok newChildIdx, g) =>
          demorganChildren newNodeIdx rest
            (g.modifyChildren newNodeIdx (· ++ [newChildIdx]))

/-- The operation that replaces `op` when all arguments are negated. -/
def demorganOp : ColumnOperation → Option ColumnOperation
  | .AND => some .NOR
  | .OR => some .NAND
  | .NAND => some .OR
  | .NOR => some .AND
  | _ => none

/-- Rewrite a conjunction or disjunction to its dual over negated copies of the
children. -/
def demorganApply (g : OpGraph) (node : ℤ) : RuleResult :=
  let (newNodeIdx, g) := cloneNode g node
  match demorganOp (g.operation newNodeIdx).op with
  | none =>
      (.error ⟨"Invalid operation for demorgan: " ++
        toString (g.operation newNodeIdx).op.number⟩, g)
  | some op =>
      let g := g.setOp newNodeIdx op
      let oldChildren := g.children node
      let g := g.modifyChildren newNodeIdx fun _ => []
      match demorganChildren newNodeIdx oldChildren g with
      | (.error e, g) => (.error e, g)
      | (.ok (), g) => (.ok newNodeIdx, g)

/-- The loop of the two merge rules: a child with the operation `nodeOp` is
replaced by its own children. -/
def mergeChildren (newNodeIdx : ℤ) (nodeOp : ColumnOperation) :
    List ℤ → OpGraph → OpGraph
  | [], g => g
  | child :: rest, g =>
      if (g.operation child).op = nodeOp then
        let grandChildren := g.children child
        mergeChildren newNodeIdx nodeOp rest
          (g.modifyChildren newNodeIdx (· ++ grandChildren))
      else
        mergeChildren newNodeIdx nodeOp rest
          (g.modifyChildren newNodeIdx (· ++ [child]))

def mergeCummutativeNumericApply (g : OpGraph) (node : ℤ) : ℤ × OpGraph :=
  let (newNodeIdx, g) := cloneNode g node
  let nodeOp := (g.operation node).op
  let oldChildren := g.children newNodeIdx
  let g := g.modifyChildren newNodeIdx fun _ => []
  (newNodeIdx, mergeChildren newNodeIdx nodeOp oldChildren g)

def mergedLogicOp : ColumnOperation → Option ColumnOperation
  | .AND => some .AND
  | .OR => some .OR
  | .XOR => some .XOR
  | .NAND => some .AND
  | .NOR => some .OR
  | .XNOR => some .XOR
  | _ => none

def mergeCummutativeLogicApply (g : OpGraph) (node : ℤ) : RuleResult :=
  let (newNodeIdx, g) := cloneNode g node
  match mergedLogicOp (g.operation node).op with
  | none =>
      (.error ⟨"Invalid operation for merge cummutative logic: " ++
        toString (g.operation node).op.number⟩, g)
  | some nodeOp =>
      let oldChildren := g.children newNodeIdx
      let g := g.modifyChildren newNodeIdx fun _ => []
      (.ok newNodeIdx, mergeChildren newNodeIdx nodeOp oldChildren g)

/-- Replace a `NOP` by its child and a `NOT` by a negated copy of its child. -/
def reduceNotNopApply (g : OpGraph) (node : ℤ) : RuleResult :=
  match (g.operation node).op with
  | .NOT => reduceUnary g node true
  | .NOP => reduceUnary g node false
  | op =>
      (.error ⟨"Invalid operation for reduce not nop: " ++ toString op.number⟩, g)
where
  /-- The part after the operation was read. -/
  reduceUnary (g : OpGraph) (node : ℤ) (negate : Bool) : RuleResult :=
    match g.children node with
    | [child] => if negate then cloneNegated g child else (.ok child, g)
    | children =>
        (.error ⟨"Invalid number of children for reduce not nop: " ++
          toString children.length⟩, g)

/-- The first data frame identifier among the children that is not `0`, the mark of a
constant. -/
def childrenCommonDf (g : OpGraph) : List ℤ → ℤ
  | [] => 0
  | child :: rest =>
      if (g.operation child).df ≠ 0 then (g.operation child).df else childrenCommonDf g rest

/-- Copy a node into the data frame of its children. -/
def pullDfApply (g : OpGraph) (node : ℤ) : RuleResult :=
  let nodeDf := (g.operation node).df
  if nodeDf = 0 then (.error ⟨"Invalid df for pull df: " ++ toString nodeDf⟩, g)
  else
    let (newNodeIdx, g) := cloneNode g node
    let df := childrenCommonDf g (g.children newNodeIdx)
    (.ok newNodeIdx, g.modifyOperation newNodeIdx fun o => { o with df := df })

inductive LogicRule
  | demorgan | mergeCummutativeLogic | reduceNotNop
  deriving DecidableEq, Repr

def LogicRule.apply : LogicRule → OpGraph → ℤ → RuleResult
  | .demorgan => demorganApply
  | .mergeCummutativeLogic => mergeCummutativeLogicApply
  | .reduceNotNop => reduceNotNopApply

/-- A rule applied to a valid node, as a step on graphs. The graph is kept also
when the rule throws. -/
def ruleStep (g : OpGraph) (application : LogicRule × ℤ) : Option OpGraph :=
  if g.Valid application.2 then
    some (application.1.apply g application.2).2
  else none

end Query

end DistStorage
