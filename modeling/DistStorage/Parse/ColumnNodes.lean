import DistStorage.Parse.QueryErrors
import DistStorage.Query.NodeNames

/-!
# Which expressions are columns

The node of an expression is either a node that the expression made, or the node
of a column it refers to, and it is the latter when nothing but parentheses
stand around the reference, of which `Expression.varName` is the name.

An expression changes no variable and no name. A `Setting` has what does not
change, and the number of nodes at its start: `K.After m q` says of an action
that the setting still holds when it returns and that `q` holds of what it
returns, and `K.Denotes name i` tells where the node `i` comes from.
-/

namespace DistStorage

namespace Parse

open Cpp Query QueryGraph

theorem visitColumnExpr_eq_returned {tableName : Option Bytes} {columnName : Bytes} {i : ℤ}
    {s t : VisitorState} : visitColumnExpr tableName columnName s = .returned (some i) t ↔
      (s.exprVarContext.find (columnKey tableName columnName) = some i ∧ i ≠ nodeNone) ∧
        s = t := by
  have hvisit : visitColumnExpr tableName columnName s =
      (if findIdent (columnKey tableName columnName) [s.exprVarContext] = nodeNone then
        Action.throw (.sqlCompileError
          (bytes "Unknown identifier: " ++ columnKey tableName columnName))
      else pure (some (findIdent (columnKey tableName columnName) [s.exprVarContext])) :
        Visit Any) s := by
    cases tableName with
    | none => rfl
    | some tableName => rfl
  rw [hvisit]
  rcases hfind : s.exprVarContext.find (columnKey tableName columnName) with _ | j
  · rw [findIdent, hfind, findIdent, if_pos rfl]
    exact iff_of_false (fun h => by cases h) (by simp)
  · simp only [findIdent, hfind, Option.some.injEq]
    split_ifs with hnone
    · exact iff_of_false (fun h => by cases h) (by grind)
    · rw [Action.pure_eq_returned, Option.some.injEq]
      grind

/-- What the visit of an expression does not change, and where it starts. -/
structure Setting where
  vars : Context
  names : ℤ → Option Bytes
  base : ℕ
  lengths : Prop

def Setting.of (s : VisitorState) : Setting where
  vars := s.exprVarContext
  names := s.outGraph.nameOf
  base := s.outGraph.size
  lengths := s.outGraph.graphMapping.length = s.outGraph.operations.length

namespace Setting

/-- A state within the setting. -/
structure Holds (K : Setting) (s : VisitorState) : Prop where
  vars_eq : s.exprVarContext = K.vars
  names_eq : s.outGraph.nameOf = K.names
  base_le : K.base ≤ s.outGraph.size
  lengths_of : K.lengths → s.outGraph.graphMapping.length = s.outGraph.operations.length

def Denotes (K : Setting) (varName : Option Bytes) (i : ℤ) : Prop :=
  match varName with
  | some varName => K.vars.find varName = some i
  | none => (K.base : ℤ) ≤ i

/-- The specification of an action that keeps the setting. -/
def After {α : Type} (K : Setting) (m : Visit α) (q : α → Prop) : Prop :=
  ∀ s a t, K.Holds s → m s = .returned a t → K.Holds t ∧ q a

/-- The specification of a visit that keeps the setting if it returns a node. -/
def AfterNode (K : Setting) (m : Visit Any) (q : ℤ → Prop) : Prop :=
  ∀ s i t, K.Holds s → m s = .returned (some i) t → K.Holds t ∧ q i

theorem holds_of (s : VisitorState) : (Setting.of s).Holds s :=
  ⟨rfl, rfl, le_rfl, id⟩

section Rules

variable {K : Setting} {α β : Type} {m : Visit α} {f : α → Visit β} {q : α → Prop} {r : β → Prop}

protected theorem After.pure {a : α} (h : q a) : K.After (pure a) q := by
  intro s b t hs hm
  obtain ⟨rfl, rfl⟩ := Action.pure_eq_returned.mp hm
  exact ⟨hs, h⟩

protected theorem After.throw (e : Exception) : K.After (Action.throw e : Visit α) q := by
  intro s a t _ hm
  cases hm

protected theorem After.bind (hm : K.After m q) (hf : ∀ a, q a → K.After (f a) r) :
    K.After (m >>= f) r := by
  intro s b u hs hrun
  obtain ⟨a, t, hms, hrun⟩ := Action.bind_eq_returned.mp hrun
  obtain ⟨ht, ha⟩ := hm s a t hs hms
  exact hf a ha t b u ht hrun

/-- A sequence whose first value does not matter. -/
theorem After.seq (hm : K.After m q) (hf : ∀ a, K.After (f a) r) : K.After (m >>= f) r :=
  hm.bind fun a _ => hf a

theorem After.toAny {m : Visit ℤ} {q : ℤ → Prop} (hm : K.After m q) :
    K.AfterNode (toAny m) q := by
  intro s i u hs hrun
  obtain ⟨j, t, hms, hrun⟩ := Action.bind_eq_returned.mp hrun
  obtain ⟨hj, rfl⟩ := Action.pure_eq_returned.mp hrun
  obtain rfl := Option.some.inj hj
  exact hm s j t hs hms

theorem AfterNode.castNode {m : Visit Any} {q : ℤ → Prop} (hm : K.AfterNode m q) :
    K.After (castNode m) q := by
  intro s i u hs hrun
  obtain ⟨a, t, hms, hrun⟩ := Action.bind_eq_returned.mp hrun
  cases a with
  | none => cases hrun
  | some j =>
      obtain ⟨rfl, rfl⟩ := Action.pure_eq_returned.mp hrun
      exact hm s j t hs hms

theorem After.bindNode {f : α → Visit Any} {r : ℤ → Prop} (hm : K.After m q)
    (hf : ∀ a, q a → K.AfterNode (f a) r) : K.AfterNode (m >>= f) r := by
  intro s i u hs hrun
  obtain ⟨a, t, hms, hrun⟩ := Action.bind_eq_returned.mp hrun
  obtain ⟨ht, ha⟩ := hm s a t hs hms
  exact hf a ha t i u ht hrun

/-- A sequence whose first value does not matter, ending in a visit. -/
theorem After.seqNode {f : α → Visit Any} {r : ℤ → Prop} (hm : K.After m q)
    (hf : ∀ a, K.AfterNode (f a) r) : K.AfterNode (m >>= f) r :=
  hm.bindNode fun a _ => hf a

theorem After.ofExcept_bindNode {e : Except Exception α} {f : α → Visit Any} {r : ℤ → Prop}
    (hf : ∀ a, K.AfterNode (f a) r) : K.AfterNode (ofExcept e >>= f) r := by
  cases e with
  | ok a => exact (After.pure (q := fun _ => True) trivial).seqNode hf
  | error e => exact (After.throw (q := fun _ => True) e).seqNode hf

theorem AfterNode.of_answers {m : Visit Any} {q : ℤ → Prop} (h : Answers false m) :
    K.AfterNode m q := by
  intro s i t _ hm
  exact absurd (h s (some i) t hm) (by simp)

protected theorem After.build {f : QueryGraph → ℤ × QueryGraph}
    (hf : ∀ g, AddsUnnamed g (f g)) : K.After (build f) (K.Denotes none) := by
  intro s i t hs hm
  obtain ⟨g, u, hread, hm⟩ := Action.bind_eq_returned.mp hm
  cases hread
  cases hm
  obtain ⟨hnode, hsize, hnames, hlengths⟩ := hf s.outGraph
  have hbase := hs.base_le
  refine ⟨⟨hs.vars_eq, hnames.trans hs.names_eq, ?_, fun hl => hlengths (hs.lengths_of hl)⟩, ?_⟩
  · change K.base ≤ (f s.outGraph).2.size
    omega
  · change (K.base : ℤ) ≤ (f s.outGraph).1
    omega

end Rules

section Nodes

variable {K : Setting}

theorem appendNode_after (df : ℤ) (op : ColumnOperation) (type : ValueType) (args : List ℤ) :
    K.After (build fun g => g.appendNode df op type args) (K.Denotes none) :=
  After.build fun g => appendNode_addsUnnamed g df op type args

theorem appendOperation_after (op : Bytes) (nodeArgs : List ℤ) :
    K.After (appendOperation op nodeArgs) (K.Denotes none) := by
  unfold appendOperation
  split
  · exact appendNode_after _ _ _ _
  · exact After.throw _

theorem appendComparison_after (op : CmpOp) (l r : ℤ) :
    K.After (appendComparison op l r) (K.Denotes none) := by
  unfold appendComparison
  split
  · exact appendNode_after _ _ _ _
  · exact After.throw _

/-- The node over several nodes is new. -/
theorem appendUnlessSingle_after {op : ColumnOperation} {nodeIds : List ℤ}
    (h : ∀ i, nodeIds = [i] → K.Denotes none i) :
    K.After (appendUnlessSingle op nodeIds) (K.Denotes none) := by
  unfold appendUnlessSingle
  split
  · exact After.pure (h _ rfl)
  · exact appendNode_after _ _ _ _

theorem appendBetween_after (notOp : Bool) (lower middle upper : ℤ) :
    K.After (appendBetween notOp lower middle upper) (K.Denotes none) := by
  unfold appendBetween
  exact (appendNode_after _ _ _ _).seq fun _ => (appendNode_after _ _ _ _).seq fun _ =>
    appendNode_after _ _ _ _

theorem visitLiteralExpr_after (env : Environment) (literal : Literal) :
    K.AfterNode (visitLiteralExpr env literal) (K.Denotes none) := by
  cases literal with
  | string token =>
      refine After.ofExcept_bindNode fun str => After.toAny ?_
      exact After.build fun g => appendStringConstant_addsUnnamed g _
  | int minus token =>
      refine After.ofExcept_bindNode fun num => After.toAny ?_
      exact After.build fun g => appendInt64Constant_addsUnnamed g num
  | float minus token =>
      refine After.ofExcept_bindNode fun num => After.toAny ?_
      exact After.build fun g => appendFloat64Constant_addsUnnamed g num
  | nullKw => exact (appendNode_after _ _ _ _).toAny
  | trueKw => exact (appendNode_after _ _ _ _).toAny
  | falseKw => exact (appendNode_after _ _ _ _).toAny

theorem visitColumnExpr_after (tableName : Option Bytes) (columnName : Bytes) :
    K.AfterNode (visitColumnExpr tableName columnName)
      (K.Denotes (some (columnKey tableName columnName))) := by
  intro s i t hs hm
  obtain ⟨hfind, rfl⟩ := visitColumnExpr_eq_returned.mp hm
  refine ⟨hs, ?_⟩
  rw [Setting.Denotes, ← hs.vars_eq]
  exact hfind.1

/-- The node over the arguments of a connective is that of a single argument. -/
theorem connective_after (op : ColumnOperation) {first : Visit Any} {others : Visit (List ℤ)}
    {varName : Option Bytes} {n : ℕ} (hfirst : K.AfterNode first (K.Denotes varName))
    (hothers : K.After others fun nodeIds => nodeIds.length = n) :
    K.AfterNode (do
      let nodeId ← castNode first
      let nodeIds ← others
      toAny (appendUnlessSingle op (nodeId :: nodeIds)))
      (K.Denotes (if n = 0 then varName else none)) := by
  refine hfirst.castNode.bindNode fun nodeId hnode => hothers.bindNode fun nodeIds hlength => ?_
  refine After.toAny ?_
  subst hlength
  cases nodeIds with
  | nil => exact After.pure hnode
  | cons i rest => exact appendUnlessSingle_after (by simp)

end Nodes

end Setting

section Recursion

variable (env : Environment) {K : Setting}

open Setting

-- One case for each constructor: the operands keep the setting, and the node over
-- them is new.
mutual

theorem visitExpression_after : (x : Expression) →
    K.AfterNode (visitExpression env x) (K.Denotes x.varName)
  | .mk orExpr => by
      rw [visitExpression, Expression.varName]
      exact (visitOrExpr_after orExpr).castNode.toAny

theorem visitOrExpr_after : (x : OrExpr) →
    K.AfterNode (visitOrExpr env x) (K.Denotes x.varName)
  | .mk firstArg args => by
      have hafter := connective_after .OR (visitXorExpr_after firstArg)
        (visitXorExprs_after args)
      rw [visitOrExpr]
      cases args with
      | nil => exact hafter
      | cons arg rest => exact hafter

theorem visitXorExprs_after : (l : List XorExpr) →
    K.After (visitXorExprs env l) fun nodeIds => nodeIds.length = l.length
  | [] => by
      rw [visitXorExprs]
      exact After.pure rfl
  | arg :: rest => by
      rw [visitXorExprs]
      refine (visitXorExpr_after arg).castNode.seq fun nodeId => ?_
      exact (visitXorExprs_after rest).bind fun _ hlength => After.pure (congrArg _ hlength)

theorem visitXorExpr_after : (x : XorExpr) →
    K.AfterNode (visitXorExpr env x) (K.Denotes x.varName)
  | .mk firstArg args => by
      have hafter := connective_after .XOR (visitAndExpr_after firstArg)
        (visitAndExprs_after args)
      rw [visitXorExpr]
      cases args with
      | nil => exact hafter
      | cons arg rest => exact hafter

theorem visitAndExprs_after : (l : List AndExpr) →
    K.After (visitAndExprs env l) fun nodeIds => nodeIds.length = l.length
  | [] => by
      rw [visitAndExprs]
      exact After.pure rfl
  | arg :: rest => by
      rw [visitAndExprs]
      refine (visitAndExpr_after arg).castNode.seq fun nodeId => ?_
      exact (visitAndExprs_after rest).bind fun _ hlength => After.pure (congrArg _ hlength)

theorem visitAndExpr_after : (x : AndExpr) →
    K.AfterNode (visitAndExpr env x) (K.Denotes x.varName)
  | .mk firstArg args => by
      have hafter := connective_after .AND (visitNotExpr_after firstArg)
        (visitNotExprs_after args)
      rw [visitAndExpr]
      cases args with
      | nil => exact hafter
      | cons arg rest => exact hafter

theorem visitNotExprs_after : (l : List NotExpr) →
    K.After (visitNotExprs env l) fun nodeIds => nodeIds.length = l.length
  | [] => by
      rw [visitNotExprs]
      exact After.pure rfl
  | arg :: rest => by
      rw [visitNotExprs]
      refine (visitNotExpr_after arg).castNode.seq fun nodeId => ?_
      exact (visitNotExprs_after rest).bind fun _ hlength => After.pure (congrArg _ hlength)

theorem visitNotExpr_after : (x : NotExpr) →
    K.AfterNode (visitNotExpr env x) (K.Denotes x.varName)
  | .not op exprNot => by
      rw [visitNotExpr, NotExpr.varName]
      refine (visitNotExpr_after exprNot).castNode.seqNode fun nodeId => ?_
      exact (appendOperation_after op.text [nodeId]).toAny
  | .pass exprPass => by
      rw [visitNotExpr, NotExpr.varName]
      exact (visitCmpExpr_after exprPass).castNode.toAny

theorem visitCmpExpr_after : (x : CmpExpr) →
    K.AfterNode (visitCmpExpr env x) (K.Denotes x.varName)
  | .comparisonExpr left tail => by
      rw [visitCmpExpr, CmpExpr.varName]
      refine (visitMathExpr_after left).castNode.seqNode fun leftNodeId => ?_
      refine (visitCmpTail_after leftNodeId tail).bindNode fun ids hids => ?_
      exact (appendUnlessSingle_after fun i hi => hids i (by simp [hi])).toAny
  | .isNullExpr _ op => by
      rw [visitCmpExpr, CmpExpr.varName]
      exact (appendOperation_after op.text []).toAny
  | .inExpr left right => by
      exact AfterNode.of_answers (visitCmpExpr_answers env (.inExpr left right))
  | .likeExpr left op right => by
      rw [visitCmpExpr, CmpExpr.varName]
      refine (visitMathExpr_after left).castNode.seqNode fun leftNodeId => ?_
      refine (visitMathExpr_after right).castNode.seqNode fun rightNodeId => ?_
      exact (appendOperation_after op.text _).toAny
  | .betweenExpr left notOp lower upper => by
      rw [visitCmpExpr, CmpExpr.varName]
      refine (visitMathExpr_after lower).castNode.seqNode fun lowerNodeId => ?_
      refine (visitMathExpr_after left).castNode.seqNode fun middleNodeId => ?_
      refine (visitMathExpr_after upper).castNode.seqNode fun upperNodeId => ?_
      exact (appendBetween_after notOp _ _ _).toAny
  | .mathFallthrough mathExpr => by
      rw [visitCmpExpr, CmpExpr.varName]
      exact visitMathExpr_after mathExpr

theorem visitCmpTail_after (leftNodeId : ℤ) : (x : CmpTail) →
    K.After (visitCmpTail env leftNodeId x) fun ids => ∀ i ∈ ids, K.Denotes none i
  | .last op right => by
      rw [visitCmpTail]
      refine (visitMathExpr_after right).castNode.seq fun rightNodeId => ?_
      refine (appendComparison_after op leftNodeId rightNodeId).bind fun cmpNodeId hcmp => ?_
      exact After.pure (by simpa using hcmp)
  | .cons op right rest => by
      rw [visitCmpTail]
      refine (visitMathExpr_after right).castNode.seq fun rightNodeId => ?_
      refine (appendComparison_after op leftNodeId rightNodeId).bind fun cmpNodeId hcmp => ?_
      refine (visitCmpTail_after rightNodeId rest).bind fun ids hids => ?_
      exact After.pure (List.forall_mem_cons.mpr ⟨hcmp, hids⟩)

theorem visitMathExpr_after : (x : MathExpr) →
    K.AfterNode (visitMathExpr env x) (K.Denotes x.varName)
  | .primaryBase primaryExpr => by
      rw [visitMathExpr, MathExpr.varName]
      exact visitPrimaryExpr_after primaryExpr
  | .castExpr left => by
      exact AfterNode.of_answers (visitMathExpr_answers env (.castExpr left))
  | .mulDivExpr left op right => by
      rw [visitMathExpr, MathExpr.varName]
      refine (visitMathExpr_after left).castNode.seqNode fun leftNodeId => ?_
      refine (visitMathExpr_after right).castNode.seqNode fun rightNodeId => ?_
      exact (appendOperation_after op.text _).toAny
  | .addSubExpr left op right => by
      rw [visitMathExpr, MathExpr.varName]
      refine (visitMathExpr_after left).castNode.seqNode fun leftNodeId => ?_
      refine (visitMathExpr_after right).castNode.seqNode fun rightNodeId => ?_
      exact (appendOperation_after op.text _).toAny

theorem visitPrimaryExpr_after : (x : PrimaryExpr) →
    K.AfterNode (visitPrimaryExpr env x) (K.Denotes x.varName)
  | .parenthesizedExpr inside => by
      rw [visitPrimaryExpr, PrimaryExpr.varName]
      exact (visitExpression_after inside).castNode.toAny
  | .subqueryExpr queryExpression =>
      AfterNode.of_answers (visitPrimaryExpr_answers env (.subqueryExpr queryExpression))
  | .functionExpr functionCall =>
      AfterNode.of_answers (visitPrimaryExpr_answers env (.functionExpr functionCall))
  | .columnExpr tableName columnName => by
      rw [visitPrimaryExpr, PrimaryExpr.varName]
      exact visitColumnExpr_after tableName columnName
  | .literalExpr literal => by
      rw [visitPrimaryExpr, PrimaryExpr.varName]
      exact visitLiteralExpr_after env literal

end

end Recursion

end Parse

end DistStorage
