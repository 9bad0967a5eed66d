import DistStorage.Parse.CompiledGraph

/-!
# The number of children of a compiled node

Every operation that the visitor appends has the number of children that it takes, with
`IS NULL` over no child at all. `Fits g` says so of a graph, and `Lays m q` is the
specification of an action that keeps it and returns a value with `q`. So a graph without
a gap is well formed, and the rewrite rules apply to it.
-/

namespace DistStorage

namespace Parse

open Cpp Query QueryGraph

/-- The numbers of children that the visitor gives an operation. -/
def takes : ColumnOperation → ℕ → Bool
  | .CONST, n | .NULL_, n | .TRUE, n | .FALSE, n | .COLUMN, n => n = 0
  | .IS_NULL, n | .IS_NOT_NULL, n => n = 0
  | .NOT, n | .DESC, n => n = 1
  | .ADD, n | .SUB, n | .MUL, n | .DIV, n => n = 2
  | .EQ, n | .NEQ, n | .GT, n | .LT, n | .GTE, n | .LTE, n => n = 2
  | .LIKE, n | .NOT_LIKE, n | .ILIKE, n | .NOT_ILIKE, n => n = 2
  | .NAND, n | .FILTER, n => n = 2
  | .RANGE, n => n = 3
  | .AND, n | .OR, n | .XOR, n | .GROUP, n | .SORT, n | .UNION, n => 2 ≤ n
  | .TABLE, _ | .DF, _ => true
  | _, _ => false

/-- Every node has a number of children that its operation takes. -/
def Fits (g : OpGraph) : Prop :=
  List.Forall₂ (fun op args => takes op args.length = true) (g.operations.map Operation.op)
    g.graphMapping

theorem Fits.append {g : OpGraph} (h : Fits g) {new : List (Operation × List ℤ)}
    (hnew : ∀ node ∈ new, takes node.1.op node.2.length = true) : Fits (g.append new) := by
  rw [Fits, OpGraph.append, List.map_append]
  refine List.rel_append h ?_
  rw [List.map_map, List.forall₂_map_left_iff, List.forall₂_map_right_iff, List.forall₂_same]
  exact hnew

theorem Fits.setNodeName {g g' : QueryGraph} {nodeId : ℤ} {name : Bytes} (h : Fits g.toOpGraph)
    (hset : g.setNodeName nodeId name = some g') : Fits g'.toOpGraph := by
  obtain ⟨o, -, rfl⟩ := Option.map_eq_some_iff.mp hset
  have hops : (Cpp.modify g.operations nodeId fun o =>
      { o with name := (g.names.length : ℤ) }).map Operation.op = g.operations.map Operation.op :=
    map_modify fun _ => rfl
  change List.Forall₂ _ ((Cpp.modify g.operations nodeId _).map Operation.op) g.graphMapping
  rw [hops]
  exact h

/-- The specification of an action that appends nodes with the children they take. -/
def Lays {α : Type} (m : Visit α) (q : α → Prop) : Prop :=
  Action.Triple (fun s => Fits s.outGraph.toOpGraph) m
    (fun a s => Fits s.outGraph.toOpGraph ∧ q a) (fun _ s => Fits s.outGraph.toOpGraph)

abbrev Fitting {α : Type} (m : Visit α) : Prop := Lays m fun _ => True

namespace Lays

variable {α β : Type} {m : Visit α} {q q' : α → Prop} {r : β → Prop} {f : α → Visit β}

protected theorem pure {a : α} (h : q a) : Lays (pure a) q :=
  Action.Triple.pure a fun _ hs => ⟨hs, h⟩

protected theorem throw (e : Exception) : Lays (Action.throw e : Visit α) q :=
  Action.Triple.throw e fun _ hs => hs

protected theorem bind (hm : Lays m q) (hf : ∀ a, q a → Lays (f a) r) : Lays (m >>= f) r :=
  Action.Triple.bind hm fun a s hs => hf a hs.2 s hs.1

/-- A sequence whose first value does not matter. -/
theorem seq (hm : Lays m q) (hf : ∀ a, Lays (f a) r) : Lays (m >>= f) r :=
  hm.bind fun a _ => hf a

theorem get_bind {f : VisitorState → Visit β} (h : ∀ s, Lays (f s) r) :
    Lays (Action.get >>= f) r :=
  Action.Triple.get_bind fun s hs => by
    rintro t rfl
    exact h t t hs

theorem ofOption_bind {o : Option α} (h : ∀ a, o = some a → Lays (f a) r) :
    Lays (Action.ofOption o >>= f) r :=
  Action.Triple.ofOption_bind fun a ha => h a ha

theorem modify {φ : VisitorState → VisitorState} (hgraph : ∀ s, (φ s).outGraph = s.outGraph) :
    Fitting (Action.modify φ) := by
  refine Action.Triple.modify fun s hs => ⟨?_, trivial⟩
  rw [hgraph]
  exact hs

theorem build {f : QueryGraph → ℤ × QueryGraph}
    (hf : ∀ g, ∃ new, (f g).2.toOpGraph = g.toOpGraph.append new ∧
      ∀ node ∈ new, takes node.1.op node.2.length = true) : Fitting (build f) := by
  intro s hs
  obtain ⟨new, hgraph, hnew⟩ := hf s.outGraph
  refine ⟨?_, trivial⟩
  change Fits (f s.outGraph).2.toOpGraph
  rw [hgraph]
  exact hs.append hnew

theorem buildOne {f : QueryGraph → ℤ × QueryGraph}
    (hf : ∀ g, ∃ node : Operation × List ℤ, (f g).2.toOpGraph = g.toOpGraph.append [node] ∧
      takes node.1.op node.2.length = true) : Fitting (Parse.build f) := by
  refine build fun g => ?_
  obtain ⟨node, hgraph, hnode⟩ := hf g
  exact ⟨[node], hgraph, List.forall_mem_singleton.mpr hnode⟩

theorem appendNode {op : ColumnOperation} {args : List ℤ} (h : takes op args.length = true)
    (df : ℤ) (type : ValueType) :
    Fitting (Parse.build fun g => g.appendNode df op type args) :=
  buildOne fun _ => ⟨_, rfl, h⟩

protected theorem castNode {m : Visit Any} (h : Fitting m) : Fitting (castNode m) := by
  refine h.seq fun a => ?_
  cases a with
  | none => exact .throw _
  | some i => exact .pure trivial

protected theorem toAny {m : Visit ℤ} (h : Fitting m) : Fitting (toAny m) :=
  h.seq fun _ => .pure trivial

protected theorem ofExcept (e : Except Exception α) : Fitting (ofExcept e) := by
  cases e with
  | ok a => exact .pure trivial
  | error e => exact .throw e

theorem inScope {enter : VisitorState → VisitorState}
    {leave : VisitorState → VisitorState → VisitorState} (h : Lays m q)
    (henter : ∀ s, (enter s).outGraph = s.outGraph)
    (hleave : ∀ old s, (leave old s).outGraph = s.outGraph) :
    Lays (inScope enter leave m) q := by
  refine get_bind fun old => ?_
  refine (modify henter).seq fun _ => ?_
  refine Lays.bind (q := q) (Action.Triple.tryCatch h fun e => ?_) fun a ha => ?_
  · exact (modify (hleave old)).seq fun _ => .throw e
  · exact (modify (hleave old)).seq fun _ => .pure ha

end Lays

/-- The text stands for an operation that takes the number of children, or for none. -/
def TextTakes (text : Bytes) (n : ℕ) : Prop :=
  ((opMap.lookup text).all fun op => takes op n) = true

instance (text : Bytes) (n : ℕ) : Decidable (TextTakes text n) :=
  inferInstanceAs (Decidable (_ = true))

theorem takes_of_lookup {text : Bytes} {n : ℕ} (h : TextTakes text n) {op : ColumnOperation}
    (hop : opMap.lookup text = some op) : takes op n = true := by
  rw [TextTakes, hop] at h
  exact h

theorem NotOp.takes_one (op : NotOp) : TextTakes (normalizeOp op.text) 1 := by
  cases op <;> decide +kernel

theorem MulDivOp.takes_two (op : MulDivOp) : TextTakes (normalizeOp op.text) 2 := by
  cases op <;> decide +kernel

theorem AddSubOp.takes_two (op : AddSubOp) : TextTakes (normalizeOp op.text) 2 := by
  cases op <;> decide +kernel

theorem CmpOp.takes_two (op : CmpOp) : TextTakes op.text 2 := by
  cases op <;> decide +kernel

theorem IsNullOp.takes_none (op : IsNullOp) : TextTakes (normalizeOp op.text) 0 := by
  obtain ⟨_ | _⟩ := op <;> decide +kernel

theorem LikeOp.takes_two (op : LikeOp) : TextTakes (normalizeOp op.text) 2 := by
  obtain ⟨_ | _, _ | _⟩ := op <;> decide +kernel

section Clauses

theorem setName_lays (nodeId : ℤ) (name : Bytes) : Fitting (setName nodeId name) := by
  refine Action.Triple.get_bind fun s hs => Action.Triple.ofOption_bind fun g hg => ?_
  exact Action.Triple.modify fun t _ => ⟨hs.setNodeName hg, trivial⟩

theorem appendOperation_lays {op : Bytes} {nodeArgs : List ℤ}
    (h : TextTakes (normalizeOp op) nodeArgs.length) : Fitting (appendOperation op nodeArgs) := by
  unfold appendOperation
  split
  · rename_i opValue hop
    exact .appendNode (takes_of_lookup h hop) _ _
  · exact .throw _

theorem appendComparison_lays (op : CmpOp) (l r : ℤ) : Fitting (appendComparison op l r) := by
  unfold appendComparison
  split
  · rename_i opValue hop
    exact .appendNode (takes_of_lookup op.takes_two hop) _ _
  · exact .throw _

/-- Over no child or several there is a node of its own. -/
theorem appendUnlessSingle_lays {op : ColumnOperation} (hop : ∀ n, 2 ≤ n → takes op n = true)
    {nodeIds : List ℤ} (hids : nodeIds ≠ []) : Fitting (appendUnlessSingle op nodeIds) := by
  unfold appendUnlessSingle
  split
  · exact .pure trivial
  · rename_i hne
    refine .appendNode (hop _ ?_) _ _
    match nodeIds, hids with
    | [i], _ => exact absurd rfl (hne i)
    | _ :: _ :: _, _ => simp

theorem appendBetween_lays (notOp : Bool) (lower middle upper : ℤ) :
    Fitting (appendBetween notOp lower middle upper) := by
  refine (Lays.appendNode rfl _ _).seq fun cmp1Id => ?_
  refine (Lays.appendNode rfl _ _).seq fun cmp2Id => ?_
  exact .appendNode (by cases notOp <;> rfl) _ _

theorem visitLiteralExpr_lays (env : Environment) (literal : Literal) :
    Fitting (visitLiteralExpr env literal) := by
  cases literal with
  | string token =>
      refine (Lays.ofExcept _).seq fun str => ?_
      exact (Lays.buildOne fun _ => ⟨(_, []), rfl, rfl⟩).toAny
  | int minus token =>
      refine (Lays.ofExcept _).seq fun num => ?_
      exact (Lays.buildOne fun _ => ⟨(_, []), rfl, rfl⟩).toAny
  | float minus token =>
      refine (Lays.ofExcept _).seq fun num => ?_
      exact (Lays.buildOne fun _ => ⟨(_, []), rfl, rfl⟩).toAny
  | nullKw | trueKw | falseKw => exact (Lays.appendNode rfl _ _).toAny

theorem visitColumnExpr_lays (tableName : Option Bytes) (columnName : Bytes) :
    Fitting (visitColumnExpr tableName columnName) := by
  refine .get_bind fun s => ?_
  dsimp only
  split_ifs
  · exact .throw _
  · exact .pure trivial

theorem appendColumns_lays (columns : List Proto.ColumnSchema) :
    Fitting (appendColumns columns) := by
  induction columns with
  | nil => exact .pure trivial
  | cons col rest ih =>
      refine (Lays.buildOne fun _ => ⟨(_, []), rfl, rfl⟩).seq fun _ => ?_
      exact ih.seq fun _ => .pure trivial

theorem insertTableColumnNodes_lays (schema : Proto.TableSchema) :
    Fitting (insertTableColumnNodes schema) := by
  refine (appendColumns_lays _).seq fun colNodeIds => ?_
  exact .buildOne fun _ => ⟨(_, colNodeIds), rfl, rfl⟩

theorem findOrInsertTable_lays (env : Environment) (name : Bytes) :
    Fitting (findOrInsertTable env name) := by
  refine .get_bind fun s => ?_
  dsimp only
  split
  · refine .ofOption_bind fun o _ => ?_
    split
    · exact .pure trivial
    · exact .throw _
  · split
    · refine (insertTableColumnNodes_lays _).seq fun tableNodeId => ?_
      exact (Lays.modify (by intro _; rfl)).seq fun _ => .pure trivial
    · exact .throw _

theorem nameRelation_lays (tableNodeId : ℤ) (aliasName : Option Bytes) :
    Fitting (nameRelation tableNodeId aliasName) := by
  refine .get_bind fun s => .ofOption_bind fun exprName _ => ?_
  dsimp only
  split_ifs
  · exact (setName_lays _ _).seq fun _ => .pure trivial
  · exact .pure trivial

theorem enterTable_lays (tableNodeId : ℤ) (aliasName : Option Bytes) :
    Fitting (enterTable tableNodeId aliasName) := by
  refine .get_bind fun s => .ofOption_bind fun tableAlias _ => .ofOption_bind fun ctx _ => ?_
  refine (Lays.modify (by intro _; rfl)).seq fun _ => ?_
  split_ifs
  · exact .modify fun _ => rfl
  · exact .pure trivial

theorem appendFilter_lays (dfNodeId : ℤ) (filters : List ℤ) :
    Fitting (appendFilter dfNodeId filters) := by
  unfold appendFilter
  split
  · exact .pure trivial
  · exact .appendNode rfl _ _
  · rename_i hnil hone
    refine (Lays.appendNode ?_ _ _).seq fun _ => .appendNode rfl _ _
    match filters with
    | [] => exact absurd rfl hnil
    | [i] => exact absurd rfl (hone i)
    | _ :: _ :: rest => exact decide_eq_true (Nat.le_add_left 2 rest.length)

theorem appendKeys_lays {op : ColumnOperation} (hop : ∀ n, 2 ≤ n → takes op n = true)
    (dfNodeId : ℤ) (keyNodeIds : List ℤ) : Fitting (appendKeys op dfNodeId keyNodeIds) := by
  unfold appendKeys
  split_ifs with hkeys
  · exact .pure trivial
  · have hpos := List.length_pos_of_ne_nil hkeys
    exact .appendNode (by exact hop _ (Nat.succ_le_succ hpos)) _ _

theorem appendRange_lays (dfNodeId offsetNodeId limitNodeId : ℤ) :
    Fitting (appendRange dfNodeId offsetNodeId limitNodeId) := by
  have hzero : Fitting (build fun g => g.appendInt64Constant 0) :=
    .buildOne fun _ => ⟨(_, []), rfl, rfl⟩
  have hsum : ∀ i j, Fitting (build fun g => g.appendNode nodeNone .ADD .Int64 [i, j]) :=
    fun _ _ => .appendNode rfl _ _
  have hrange : ∀ i j, Fitting (build fun g =>
      g.appendNode nodeNone .RANGE .Any [dfNodeId, i, j]) :=
    fun _ _ => .appendNode rfl _ _
  have hpure : ∀ i, Fitting (pure i : Visit ℤ) := fun _ => .pure trivial
  unfold appendRange
  split_ifs
  · exact hzero.seq fun _ => (hsum _ _).seq fun _ => hrange _ _
  · exact (hpure _).seq fun _ => (hsum _ _).seq fun _ => hrange _ _
  · exact hzero.seq fun _ => (hpure _).seq fun _ => hrange _ _
  · exact (hpure _).seq fun _ => (hpure _).seq fun _ => hrange _ _
  · exact hpure _

theorem constructSelect_lays (tableNodeIds columnNodeIds filters groupNodeIds orderNodeIds : List ℤ)
    (offsetNodeId limitNodeId : ℤ) : Fitting (constructSelect tableNodeIds columnNodeIds filters
      groupNodeIds orderNodeIds offsetNodeId limitNodeId) := by
  refine (Lays.appendNode rfl _ _).seq fun _ => ?_
  refine (appendFilter_lays _ _).seq fun _ => ?_
  refine (appendKeys_lays (fun _ hn => by exact decide_eq_true hn) _ _).seq fun _ => ?_
  refine (appendKeys_lays (fun _ hn => by exact decide_eq_true hn) _ _).seq fun _ => ?_
  exact appendRange_lays _ _ _

end Clauses

section Recursion

variable (env : Environment)

-- One case for each constructor, as in the recursion of the visitor.
mutual

theorem visitQueryExpression_lays : (x : QueryExpression) → Fitting (visitQueryExpression env x)
  | .mk selectStatement rest => by
      rw [visitQueryExpression]
      refine (visitSelectStatement_lays selectStatement).castNode.seq fun first => ?_
      refine (visitSelectStatements_lays rest).seq fun ids => ?_
      exact (appendUnlessSingle_lays (fun _ hn => by exact decide_eq_true hn) (by simp)).toAny

theorem visitSelectStatements_lays : (l : List SelectStatement) →
    Fitting (visitSelectStatements env l)
  | [] => by
      rw [visitSelectStatements]
      exact .pure trivial
  | selectStatement :: rest => by
      rw [visitSelectStatements]
      refine (visitSelectStatement_lays selectStatement).castNode.seq fun _ => ?_
      exact (visitSelectStatements_lays rest).seq fun _ => .pure trivial

theorem visitSelectStatement_lays : (x : SelectStatement) → Fitting (visitSelectStatement env x)
  | .mk selectElement rest fromClause whereExpr groupByExprs sortItems limitExpr offsetExpr => by
      rw [visitSelectStatement]
      refine (Lays.inScope ?_ (by intro _; rfl) (by intro _ _; rfl)).toAny
      refine (visitFrom_lays fromClause).seq fun _ => ?_
      refine (visitSelectElement_lays selectElement).seq fun _ => ?_
      refine (visitSelectElements_lays rest).seq fun _ => ?_
      refine (visitOptional_lays whereExpr).seq fun _ => ?_
      refine (visitExpressions_lays groupByExprs).seq fun _ => ?_
      refine (visitSortItems_lays sortItems).seq fun _ => ?_
      refine (visitOptional_lays offsetExpr).seq fun _ => ?_
      refine (visitOptional_lays limitExpr).seq fun _ => ?_
      exact constructSelect_lays _ _ _ _ _ _ _

theorem visitOptional_lays : (x : Option Expression) → Fitting (visitOptional env x)
  | none => by
      rw [visitOptional]
      exact .pure trivial
  | some expression => by
      rw [visitOptional]
      exact (visitExpression_lays expression).castNode.seq fun _ => .pure trivial

theorem visitFrom_lays : (x : Option FromClause) → Fitting (visitFrom env x)
  | none => by
      rw [visitFrom]
      exact .pure trivial
  | some fromClause => by
      rw [visitFrom]
      exact visitFromClause_lays fromClause

theorem visitFromClause_lays : (x : FromClause) → Fitting (visitFromClause env x)
  | .mk baseTable joins => by
      rw [visitFromClause]
      refine (visitRelation_lays baseTable).castNode.seq fun tableNodeId => ?_
      refine (enterTable_lays tableNodeId _).seq fun _ => ?_
      exact (visitJoins_lays joins).seq fun _ => .pure trivial

theorem visitJoins_lays : (l : List JoinClause) → Fitting (visitJoins env l)
  | [] => by
      rw [visitJoins]
      exact .pure trivial
  | joinClause :: rest => by
      rw [visitJoins]
      refine (visitJoinClause_lays joinClause).seq fun _ => ?_
      exact (visitJoins_lays rest).seq fun _ => .pure trivial

theorem visitJoinClause_lays : (x : JoinClause) → Fitting (visitJoinClause env x)
  | .mk relation onExpr => by
      rw [visitJoinClause]
      refine (visitRelation_lays relation).seq fun _ => ?_
      refine (visitRelation_lays relation).castNode.seq fun tableNodeId => ?_
      refine (enterTable_lays tableNodeId _).seq fun _ => ?_
      exact (visitExpression_lays onExpr).castNode.seq fun _ => .pure trivial

theorem visitRelation_lays : (x : Relation) → Fitting (visitRelation env x)
  | .table name aliasName => by
      rw [visitRelation]
      exact (findOrInsertTable_lays env name).seq fun tableNodeId =>
        nameRelation_lays tableNodeId aliasName
  | .subquery queryExpression aliasName => by
      rw [visitRelation]
      exact (visitQueryExpression_lays queryExpression).castNode.seq fun tableNodeId =>
        nameRelation_lays tableNodeId aliasName

theorem visitSelectElement_lays : (x : SelectElement) → Fitting (visitSelectElement env x)
  | .globalStar => by
      rw [visitSelectElement]
      exact .get_bind fun _ => .pure trivial
  | .tableStar _ => by
      rw [visitSelectElement]
      exact .pure trivial
  | .expression expression none => by
      rw [visitSelectElement]
      exact (visitExpression_lays expression).castNode.seq fun _ => .pure trivial
  | .expression expression (some aliasName) => by
      rw [visitSelectElement]
      refine (visitExpression_lays expression).castNode.seq fun elementNodeId => ?_
      exact (setName_lays elementNodeId aliasName).seq fun _ => .pure trivial

theorem visitSelectElements_lays : (l : List SelectElement) → Fitting (visitSelectElements env l)
  | [] => by
      rw [visitSelectElements]
      exact .pure trivial
  | selectElement :: rest => by
      rw [visitSelectElements]
      refine (visitSelectElement_lays selectElement).seq fun _ => ?_
      exact (visitSelectElements_lays rest).seq fun _ => .pure trivial

theorem visitSortItem_lays : (x : SortItem) → Fitting (visitSortItem env x)
  | .mk expression desc => by
      rw [visitSortItem]
      refine (visitExpression_lays expression).castNode.seq fun itemNodeId => ?_
      split_ifs
      · exact .appendNode rfl _ _
      · exact .pure trivial

theorem visitSortItems_lays : (l : List SortItem) → Fitting (visitSortItems env l)
  | [] => by
      rw [visitSortItems]
      exact .pure trivial
  | sortItem :: rest => by
      rw [visitSortItems]
      refine (visitSortItem_lays sortItem).seq fun _ => ?_
      exact (visitSortItems_lays rest).seq fun _ => .pure trivial

theorem visitExpressions_lays : (l : List Expression) → Fitting (visitExpressions env l)
  | [] => by
      rw [visitExpressions]
      exact .pure trivial
  | expression :: rest => by
      rw [visitExpressions]
      refine (visitExpression_lays expression).castNode.seq fun _ => ?_
      exact (visitExpressions_lays rest).seq fun _ => .pure trivial

theorem visitExpression_lays : (x : Expression) → Fitting (visitExpression env x)
  | .mk orExpr => by
      rw [visitExpression]
      exact (visitOrExpr_lays orExpr).castNode.toAny

theorem visitOrExpr_lays : (x : OrExpr) → Fitting (visitOrExpr env x)
  | .mk firstArg args => by
      rw [visitOrExpr]
      refine (visitXorExpr_lays firstArg).castNode.seq fun first => ?_
      refine (visitXorExprs_lays args).seq fun ids => ?_
      exact (appendUnlessSingle_lays (fun _ hn => by exact decide_eq_true hn) (by simp)).toAny

theorem visitXorExprs_lays : (l : List XorExpr) → Fitting (visitXorExprs env l)
  | [] => by
      rw [visitXorExprs]
      exact .pure trivial
  | arg :: rest => by
      rw [visitXorExprs]
      refine (visitXorExpr_lays arg).castNode.seq fun _ => ?_
      exact (visitXorExprs_lays rest).seq fun _ => .pure trivial

theorem visitXorExpr_lays : (x : XorExpr) → Fitting (visitXorExpr env x)
  | .mk firstArg args => by
      rw [visitXorExpr]
      refine (visitAndExpr_lays firstArg).castNode.seq fun first => ?_
      refine (visitAndExprs_lays args).seq fun ids => ?_
      exact (appendUnlessSingle_lays (fun _ hn => by exact decide_eq_true hn) (by simp)).toAny

theorem visitAndExprs_lays : (l : List AndExpr) → Fitting (visitAndExprs env l)
  | [] => by
      rw [visitAndExprs]
      exact .pure trivial
  | arg :: rest => by
      rw [visitAndExprs]
      refine (visitAndExpr_lays arg).castNode.seq fun _ => ?_
      exact (visitAndExprs_lays rest).seq fun _ => .pure trivial

theorem visitAndExpr_lays : (x : AndExpr) → Fitting (visitAndExpr env x)
  | .mk firstArg args => by
      rw [visitAndExpr]
      refine (visitNotExpr_lays firstArg).castNode.seq fun first => ?_
      refine (visitNotExprs_lays args).seq fun ids => ?_
      exact (appendUnlessSingle_lays (fun _ hn => by exact decide_eq_true hn) (by simp)).toAny

theorem visitNotExprs_lays : (l : List NotExpr) → Fitting (visitNotExprs env l)
  | [] => by
      rw [visitNotExprs]
      exact .pure trivial
  | arg :: rest => by
      rw [visitNotExprs]
      refine (visitNotExpr_lays arg).castNode.seq fun _ => ?_
      exact (visitNotExprs_lays rest).seq fun _ => .pure trivial

theorem visitNotExpr_lays : (x : NotExpr) → Fitting (visitNotExpr env x)
  | .not op exprNot => by
      rw [visitNotExpr]
      refine (visitNotExpr_lays exprNot).castNode.seq fun nodeId => ?_
      exact (appendOperation_lays op.takes_one).toAny
  | .pass exprPass => by
      rw [visitNotExpr]
      exact (visitCmpExpr_lays exprPass).castNode.toAny

theorem visitCmpExpr_lays : (x : CmpExpr) → Fitting (visitCmpExpr env x)
  | .comparisonExpr left tail => by
      rw [visitCmpExpr]
      refine (visitMathExpr_lays left).castNode.seq fun leftNodeId => ?_
      refine (visitCmpTail_lays leftNodeId tail).bind fun ids hids => ?_
      exact (appendUnlessSingle_lays (fun _ hn => by exact decide_eq_true hn) hids).toAny
  | .isNullExpr _ op => by
      rw [visitCmpExpr]
      exact (appendOperation_lays op.takes_none).toAny
  | .inExpr left right => by
      rw [visitCmpExpr]
      exact (visitMathExpr_lays left).seq fun _ => visitArrayExpression_lays right
  | .likeExpr left op right => by
      rw [visitCmpExpr]
      refine (visitMathExpr_lays left).castNode.seq fun _ => ?_
      refine (visitMathExpr_lays right).castNode.seq fun _ => ?_
      exact (appendOperation_lays op.takes_two).toAny
  | .betweenExpr left notOp lower upper => by
      rw [visitCmpExpr]
      refine (visitMathExpr_lays lower).castNode.seq fun _ => ?_
      refine (visitMathExpr_lays left).castNode.seq fun _ => ?_
      refine (visitMathExpr_lays upper).castNode.seq fun _ => ?_
      exact (appendBetween_lays _ _ _ _).toAny
  | .mathFallthrough mathExpr => by
      rw [visitCmpExpr]
      exact visitMathExpr_lays mathExpr

-- A chain has at least one comparison, so there is no `AND` over nothing.
theorem visitCmpTail_lays (leftNodeId : ℤ) : (x : CmpTail) →
    Lays (visitCmpTail env leftNodeId x) fun ids => ids ≠ []
  | .last op right => by
      rw [visitCmpTail]
      refine (visitMathExpr_lays right).castNode.seq fun _ => ?_
      exact (appendComparison_lays op _ _).seq fun _ => .pure (by simp)
  | .cons op right rest => by
      rw [visitCmpTail]
      refine (visitMathExpr_lays right).castNode.seq fun rightNodeId => ?_
      refine (appendComparison_lays op _ _).seq fun _ => ?_
      exact (visitCmpTail_lays rightNodeId rest).seq fun _ => .pure (by simp)

theorem visitMathExpr_lays : (x : MathExpr) → Fitting (visitMathExpr env x)
  | .primaryBase primaryExpr => by
      rw [visitMathExpr]
      exact visitPrimaryExpr_lays primaryExpr
  | .castExpr left => by
      rw [visitMathExpr]
      exact (visitMathExpr_lays left).seq fun _ => .pure trivial
  | .mulDivExpr left op right => by
      rw [visitMathExpr]
      refine (visitMathExpr_lays left).castNode.seq fun _ => ?_
      refine (visitMathExpr_lays right).castNode.seq fun _ => ?_
      exact (appendOperation_lays op.takes_two).toAny
  | .addSubExpr left op right => by
      rw [visitMathExpr]
      refine (visitMathExpr_lays left).castNode.seq fun _ => ?_
      refine (visitMathExpr_lays right).castNode.seq fun _ => ?_
      exact (appendOperation_lays op.takes_two).toAny

theorem visitPrimaryExpr_lays : (x : PrimaryExpr) → Fitting (visitPrimaryExpr env x)
  | .parenthesizedExpr inside => by
      rw [visitPrimaryExpr]
      exact (visitExpression_lays inside).castNode.toAny
  | .subqueryExpr queryExpression => by
      rw [visitPrimaryExpr]
      exact (visitQueryExpression_lays queryExpression).seq fun _ => .pure trivial
  | .functionExpr functionCall => by
      rw [visitPrimaryExpr]
      exact visitFunctionCall_lays functionCall
  | .columnExpr tableName columnName => by
      rw [visitPrimaryExpr]
      exact visitColumnExpr_lays tableName columnName
  | .literalExpr literal => by
      rw [visitPrimaryExpr]
      exact visitLiteralExpr_lays env literal

theorem visitArrayExpression_lays : (x : ArrayExpression) → Fitting (visitArrayExpression env x)
  | .query queryExpression => by
      rw [visitArrayExpression]
      exact (visitQueryExpression_lays queryExpression).seq fun _ => .pure trivial
  | .list first rest => by
      rw [visitArrayExpression]
      exact (visitExpression_lays first).seq fun _ => visitArrayElements_lays rest

theorem visitArrayElements_lays : (l : List Expression) → Fitting (visitArrayElements env l)
  | [] => by
      rw [visitArrayElements]
      exact .pure trivial
  | expression :: rest => by
      rw [visitArrayElements]
      exact (visitExpression_lays expression).seq fun _ => visitArrayElements_lays rest

theorem visitFunctionCall_lays : (x : FunctionCall) → Fitting (visitFunctionCall env x)
  | .standardFunction expression => by
      rw [visitFunctionCall]
      exact (visitExpression_lays expression).seq fun _ => .pure trivial
  | .countStar => by
      rw [visitFunctionCall]
      exact .pure trivial
  | .countFunction expression => by
      rw [visitFunctionCall]
      exact (visitExpression_lays expression).seq fun _ => .pure trivial

end

end Recursion

section Graphs

variable {g : QueryGraph}

theorem Fits.lengths {g : OpGraph} (h : Fits g) : g.graphMapping.length = g.operations.length := by
  rw [← h.length_eq, List.length_map]

theorem Fits.takes {g : OpGraph} (h : Fits g) {i : ℕ} (hi : i < g.size) :
    takes (g.operation i).op (g.children i).length = true := by
  have hoperations : i < g.operations.length := hi
  have hmapping : i < g.graphMapping.length := h.lengths.symm ▸ hi
  have hnode := (List.forall₂_iff_get.mp h).2 i (by simpa using hoperations) hmapping
  simpa [OpGraph.operation, OpGraph.children, hoperations, hmapping] using hnode

/-- A `NOT` has one child, and there is no `NOP`. -/
theorem Fits.unaryNegations {g : OpGraph} (h : Fits g) : g.UnaryNegations := by
  intro i hi hop
  have htakes := h.takes hi
  rcases hop with hop | hop
  · rw [hop] at htakes
    exact of_decide_eq_true htakes
  · rw [hop] at htakes
    cases htakes

theorem Fits.wellFormed_iff (h : Fits g.toOpGraph) (hcoherent : g.Coherent) :
    g.toOpGraph.WellFormed ↔ ¬g.HasGap := by
  constructor
  · rintro hwf ⟨args, hargs, hgap⟩
    obtain ⟨i, hi, rfl⟩ := List.mem_iff_getElem.mp hargs
    have hchild : nodeNone ∈ g.children i := by simpa [OpGraph.children, hi] using hgap
    exact ne_nodeNone_of_valid (hwf.valid_children i nodeNone hchild) rfl
  · intro hgap
    have hbuilt := hcoherent.wellBuilt_iff.mpr hgap
    exact OpGraph.wellFormed_of_childrenFirst hbuilt.lengths hbuilt.childrenFirst
      h.unaryNegations

end Graphs

section Queries

variable (env : Environment)

theorem visitCtes_lays (ctes : List Cte) : Fitting (visitCtes env ctes) := by
  induction ctes with
  | nil => exact .pure trivial
  | cons cte rest ih =>
      refine (visitQueryExpression_lays env cte.expr).castNode.seq fun nodeId => ?_
      exact (Lays.modify (by intro _; rfl)).seq fun _ => ih

theorem visitQuery_lays (ctx : QueryContext) : Fitting (visitQuery env ctx) := by
  refine (Lays.inScope ?_ (by intro _; rfl) (by intro _ _; rfl)).toAny
  refine (visitCtes_lays env ctx.cte).seq fun _ => Lays.castNode ?_
  cases ctx.statement with
  | selectStmt queryExpression => exact visitQueryExpression_lays env queryExpression
  | updateStmt => exact .throw _
  | deleteStmt => exact .throw _

/-- In the graph of a query that compiles every node has the children its operation takes,
and the rewrite rules may be applied to the graph exactly if no select statement that makes
a table has `OFFSET` without `LIMIT`. -/
theorem visitQuery_wellFormed_iff (ctx : QueryContext) {a : Any} {s : VisitorState}
    (h : visitQuery env ctx {} = .returned a s) :
    (∀ i < s.outGraph.size,
      takes (s.outGraph.operation i).op (s.outGraph.children i).length = true) ∧
    (s.outGraph.toOpGraph.WellFormed ↔ ctx.offsetWithoutLimit = false) := by
  have hstart : Building [] False ({} : VisitorState) :=
    ⟨VisitorState.sound_start, iff_false_intro not_hasGap_empty⟩
  obtain ⟨hsound, hgap⟩ :=
    (visitQuery_appends env ctx [] False (List.nil_subset _)).returned hstart h
  have hempty : Fits ({} : VisitorState).outGraph.toOpGraph := List.Forall₂.nil
  obtain ⟨hfits, -⟩ := (visitQuery_lays env ctx).returned hempty h
  refine ⟨fun i hi => hfits.takes hi, ?_⟩
  rw [hfits.wellFormed_iff hsound.coherent, hgap, false_or, Bool.not_eq_true]

end Queries

theorem visitQuery_wellFormed_iff_sample :
    ∃ a s, visitQuery sampleEnvironment pagedQuery {} = .returned a s ∧
      (s.outGraph.toOpGraph.WellFormed ↔ pagedQuery.offsetWithoutLimit = false) := by
  have hrun : (visitQuery sampleEnvironment pagedQuery {}).returns fun _ _ => true := by
    decide +kernel
  obtain ⟨a, s, h, -⟩ := Outcome.exists_of_returns hrun
  exact ⟨a, s, h, (visitQuery_wellFormed_iff sampleEnvironment pagedQuery h).2⟩

end Parse

end DistStorage
