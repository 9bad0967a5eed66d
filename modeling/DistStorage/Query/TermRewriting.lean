import DistStorage.Query.NodeHashes
import DistStorage.Query.NumericValue
import DistStorage.Query.PulledFrames

/-!
# The rules as term rewriting

A node of a graph without cycles stands for the expression it unfolds to, and a rule
stands for a partial function on expressions. The rule returns a node exactly when that
function is defined, the returned node unfolds to the rewritten expression, and every
node that was there unfolds to what it did before, also when the rule throws.

On expressions it can be said what repeated rules do. The De Morgan rule undoes itself
unless a `NOT` was negated, which leaves a `NOP` that has no negation. A merge rule takes
one level out of a nest of one operation, so `k` merges leave the operands of the nest,
in their order, once the nest is at most `k` deep.
-/

namespace DistStorage

namespace Query

open OpGraph

namespace Expression

def operation : Expression → Operation
  | .node o _ => o

def args : Expression → List Expression
  | .node _ args => args

def negate : Expression → Option Expression
  | .node o args =>
      if getNegatedOperation o.op = .INVALID then none
      else some (.node { o with op := getNegatedOperation o.op } args)

/-- The dual operation over the negated arguments. -/
def demorgan : Expression → Option Expression
  | .node o args =>
      match demorganOp o.op, args.mapM negate with
      | some op, some negated => some (.node { o with op := op } negated)
      | _, _ => none

def absorbed (op : ColumnOperation) (e : Expression) : List Expression :=
  if e.operation.op = op then e.args else [e]

/-- The expression with the arguments of the nested `op`. -/
def merge (op : ColumnOperation) : Expression → Expression
  | .node o args => .node o (args.flatMap (absorbed op))

/-- The argument of a `NOP`, or the negated argument of a `NOT`. -/
def reduceNotNop : Expression → Option Expression
  | .node o [arg] =>
      match o.op with
      | .NOT => arg.negate
      | .NOP => some arg
      | _ => none
  | .node _ _ => none

/-- The first data frame of the arguments. -/
def commonDf : List Expression → ℤ
  | [] => 0
  | arg :: rest => if arg.operation.df ≠ 0 then arg.operation.df else commonDf rest

def pullDf : Expression → Option Expression
  | .node o args => if o.df = 0 then none else some (.node { o with df := commonDf args } args)

/-- How deep `op` is nested from the root on. -/
def nestDepth (op : ColumnOperation) : Expression → ℕ
  | .node o args => if o.op = op then (args.map (nestDepth op)).foldr max 0 + 1 else 0

/-- The operands of the nest of `op` at the root, from left to right. -/
def operands (op : ColumnOperation) : Expression → List Expression
  | .node o args => if o.op = op then args.flatMap (operands op) else [.node o args]

def depthBelow (op : ColumnOperation) (args : List Expression) : ℕ :=
  (args.map (nestDepth op)).foldr max 0

end Expression

inductive RewriteRule
  | demorgan | mergeCummutativeNumeric | mergeCummutativeLogic | reduceNotNop | pullDf
  deriving DecidableEq, Repr

namespace RewriteRule

def apply : RewriteRule → OpGraph → ℤ → RuleResult
  | .demorgan, g, node => demorganApply g node
  | .mergeCummutativeNumeric, g, node => Prod.map .ok id (mergeCummutativeNumericApply g node)
  | .mergeCummutativeLogic, g, node => mergeCummutativeLogicApply g node
  | .reduceNotNop, g, node => reduceNotNopApply g node
  | .pullDf, g, node => pullDfApply g node

/-- The operation whose nested occurrences a merge rule absorbs. -/
def mergedOp : RewriteRule → ColumnOperation → Option ColumnOperation
  | .mergeCummutativeNumeric, op => some op
  | .mergeCummutativeLogic, op => mergedLogicOp op
  | _, _ => none

def rewrite : RewriteRule → Expression → Option Expression
  | .demorgan, e => e.demorgan
  | .reduceNotNop, e => e.reduceNotNop
  | .pullDf, e => e.pullDf
  | .mergeCummutativeNumeric, e => some (e.merge e.operation.op)
  | .mergeCummutativeLogic, e => (mergedLogicOp e.operation.op).map e.merge

end RewriteRule

/-- Apply the rules one after the other, each to the node that the last one returned. -/
def applyAll : List RewriteRule → OpGraph → ℤ → RuleResult
  | [], g, node => (.ok node, g)
  | rule :: rules, g, node =>
      match rule.apply g node with
      | (.error e, g) => (.error e, g)
      | (.ok newNode, g) => applyAll rules g newNode

def rewriteAll (rules : List RewriteRule) (e : Expression) : Option Expression :=
  rules.foldlM (fun e rule => rule.rewrite e) e

/-- An outcome refines what was to become of an expression: the graph has no cycles and
its nodes unfold to what they did, a returned node unfolds to the expression, and an
exception means that there is none. -/
structure Refines (g : OpGraph) (expected : Option Expression) (outcome : RuleResult) :
    Prop where
  dag : outcome.2.Dag
  keeps : ∀ i, g.Valid i → outcome.2.Valid i ∧ outcome.2.expression i = g.expression i
  returns : ∀ r, outcome.1 = .ok r →
    outcome.2.Valid r ∧ expected = some (outcome.2.expression r)
  throws : ∀ e, outcome.1 = .error e → expected = none

section Lists

variable {α β : Type*} {f : α → Option β}

theorem mapM_eq_some_iff {l : List α} {r : List β} :
    l.mapM f = some r ↔ List.Forall₂ (fun a b => f a = some b) l r := by
  induction l generalizing r with
  | nil => cases r <;> simp
  | cons a l ih =>
      cases r with
      | nil => cases ha : f a <;> cases hl : l.mapM f <;> simp [ha, hl]
      | cons b r =>
          rw [List.forall₂_cons, ← ih]
          cases ha : f a <;> cases hl : l.mapM f <;> simp [ha, hl]

theorem mapM_eq_none {l : List α} (h : ∃ a ∈ l, f a = none) : l.mapM f = none := by
  obtain ⟨a, ha, hnone⟩ := h
  induction ha with
  | head l => simp [hnone]
  | tail b _ ih => cases hb : f b <;> simp [hb, ih]

end Lists

namespace Expression

theorem negate_of_negate {e e' : Expression} (h : e.negate = some e') :
    e'.negate = if e.operation.op = .NOT then none else some e := by
  obtain ⟨⟨op, name, constId, df, type, sequence⟩, args⟩ := e
  rw [negate] at h
  split_ifs at h with hinvalid
  obtain rfl := (Option.some.inj h).symm
  cases op <;> first | rfl | exact absurd rfl hinvalid

theorem mapM_negate_of_negate {l r : List Expression} (h : l.mapM negate = some r) :
    r.mapM negate = if ∀ e ∈ l, e.operation.op ≠ .NOT then some l else none := by
  rw [mapM_eq_some_iff] at h
  split_ifs with hall
  · rw [mapM_eq_some_iff]
    induction h with
    | nil => exact .nil
    | cons hfirst _ ih =>
        obtain ⟨hne, hrest⟩ := List.forall_mem_cons.mp hall
        exact .cons (by rw [negate_of_negate hfirst, if_neg hne]) (ih hrest)
  · refine mapM_eq_none ?_
    induction h with
    | nil => exact absurd (by simp) hall
    | @cons e e' l r hfirst hrest ih =>
        by_cases hop : e.operation.op = .NOT
        · exact ⟨e', List.mem_cons_self, by rw [negate_of_negate hfirst, if_pos hop]⟩
        · obtain ⟨a, ha, hnone⟩ := ih fun hl => hall (List.forall_mem_cons.mpr ⟨hop, hl⟩)
          exact ⟨a, List.mem_cons_of_mem _ ha, hnone⟩

theorem demorgan_of_demorgan {e e' : Expression} (h : e.demorgan = some e') :
    e'.demorgan = if ∀ arg ∈ e.args, arg.operation.op ≠ .NOT then some e else none := by
  obtain ⟨⟨op, name, constId, df, type, sequence⟩, args⟩ := e
  rw [demorgan] at h
  split at h
  · next dual negated hop hnegated =>
      obtain rfl := (Option.some.inj h).symm
      have hback : demorganOp dual = some op := by
        cases op <;> simp [demorganOp] at hop <;> subst hop <;> rfl
      rw [demorgan, hback, mapM_negate_of_negate hnegated, Expression.args]
      split_ifs <;> rfl
  · cases h

/-- Absorbing takes one level out of a nest. -/
theorem depthBelow_absorbed (op : ColumnOperation) (e : Expression) :
    depthBelow op (e.absorbed op) = e.nestDepth op - 1 := by
  obtain ⟨o, args⟩ := e
  rw [absorbed, nestDepth, operation, Expression.args]
  split_ifs with hop
  · rfl
  · simp [depthBelow, nestDepth, hop]

theorem depthBelow_append (op : ColumnOperation) (l r : List Expression) :
    depthBelow op (l ++ r) = max (depthBelow op l) (depthBelow op r) := by
  induction l with
  | nil => simp [depthBelow]
  | cons e l ih =>
      rw [List.cons_append, depthBelow, List.map_cons, List.foldr_cons, ← depthBelow, ih,
        ← max_assoc]
      rfl

theorem depthBelow_merge (op : ColumnOperation) (e : Expression) :
    depthBelow op (e.merge op).args = depthBelow op e.args - 1 := by
  obtain ⟨o, args⟩ := e
  rw [merge, Expression.args, Expression.args]
  induction args with
  | nil => rfl
  | cons arg args ih =>
      rw [List.flatMap_cons, depthBelow_append, ih, depthBelow_absorbed]
      exact Nat.sub_max_sub_right _ _ 1

theorem operands_absorbed (op : ColumnOperation) (e : Expression) :
    (e.absorbed op).flatMap (operands op) = e.operands op := by
  obtain ⟨o, args⟩ := e
  rw [absorbed, operands, operation, Expression.args]
  split_ifs with hop
  · rfl
  · simp [operands, hop]

theorem operands_merge (op : ColumnOperation) (e : Expression) :
    (e.merge op).args.flatMap (operands op) = e.args.flatMap (operands op) := by
  obtain ⟨o, args⟩ := e
  rw [merge, Expression.args, Expression.args, List.flatMap_assoc]
  congr 1
  funext arg
  exact operands_absorbed op arg

theorem operation_merge (op : ColumnOperation) (e : Expression) :
    (e.merge op).operation = e.operation := by
  obtain ⟨o, args⟩ := e
  rfl

theorem nestDepth_eq_zero_iff {op : ColumnOperation} {e : Expression} :
    e.nestDepth op = 0 ↔ e.operation.op ≠ op := by
  obtain ⟨o, args⟩ := e
  rw [nestDepth, operation]
  split_ifs with hop
  · simp [hop]
  · simp [hop]

theorem depthBelow_eq_zero_iff {op : ColumnOperation} {args : List Expression} :
    depthBelow op args = 0 ↔ ∀ arg ∈ args, arg.operation.op ≠ op := by
  induction args with
  | nil => simp [depthBelow]
  | cons arg args ih =>
      rw [depthBelow, List.map_cons, List.foldr_cons, ← depthBelow, List.forall_mem_cons, ← ih,
        ← nestDepth_eq_zero_iff]
      omega

/-- Arguments that are not `op` are the operands. -/
theorem flatMap_operands_of_flat {op : ColumnOperation} {args : List Expression}
    (h : ∀ arg ∈ args, arg.operation.op ≠ op) : args.flatMap (operands op) = args := by
  have hsingle : ∀ arg ∈ args, operands op arg = [arg] := fun arg harg => by
    obtain ⟨o, rest⟩ := arg
    have hne : o.op ≠ op := h _ harg
    rw [operands, if_neg hne]
  rw [List.flatMap_congr hsingle, List.flatMap_singleton']

theorem iterate_merge (op : ColumnOperation) (k : ℕ) (e : Expression) :
    ((merge op)^[k] e).operation = e.operation ∧
      depthBelow op ((merge op)^[k] e).args = depthBelow op e.args - k ∧
      ((merge op)^[k] e).args.flatMap (operands op) = e.args.flatMap (operands op) := by
  induction k generalizing e with
  | zero => exact ⟨rfl, rfl, rfl⟩
  | succ k ih =>
      obtain ⟨hoperation, hdepth, hoperands⟩ := ih (e.merge op)
      rw [Function.iterate_succ_apply]
      refine ⟨hoperation.trans (operation_merge op e), ?_, hoperands.trans (operands_merge op e)⟩
      rw [hdepth, depthBelow_merge]
      omega

end Expression

theorem rewriteAll_replicate {rule : RewriteRule} {op : ColumnOperation} (k : ℕ) {e : Expression}
    (h : rule.mergedOp e.operation.op = some op) :
    rewriteAll (List.replicate k rule) e = some ((Expression.merge op)^[k] e) := by
  induction k generalizing e with
  | zero => rfl
  | succ k ih =>
      have hrewrite : rule.rewrite e = some (e.merge op) := by
        cases rule <;> simp_all [RewriteRule.mergedOp, RewriteRule.rewrite]
      have hrest := ih (e := e.merge op) (by rwa [Expression.operation_merge])
      rw [rewriteAll] at hrest ⊢
      rw [List.replicate_succ, List.foldlM_cons, hrewrite, Function.iterate_succ_apply]
      exact hrest

section Unfolding

variable {g : OpGraph} {nodes : List (Operation × List ℤ)}

theorem expression_eq (h : g.Dag) (i : ℤ) :
    g.expression i = .node (g.operation i) ((g.children i).map g.expression) :=
  OpGraph.eval_eq _ _ h i

theorem operation_expression (h : g.Dag) (i : ℤ) :
    (g.expression i).operation = g.operation i := by
  rw [expression_eq h, Expression.operation]

theorem args_expression (h : g.Dag) (i : ℤ) :
    (g.expression i).args = (g.children i).map g.expression := by
  rw [expression_eq h, Expression.args]

theorem expression_append (h : g.Dag) {i : ℤ} (hi : g.Valid i) :
    (g.append nodes).expression i = g.expression i :=
  OpGraph.eval_append _ _ h hi

theorem expression_append_fresh (h : g.Dag) (h' : (g.append nodes).Dag) {k : ℕ}
    {o : Operation} {cs : List ℤ} (hk : nodes[k]? = some (o, cs)) (hcs : ∀ c ∈ cs, g.Valid c) :
    (g.append nodes).expression ((g.size : ℤ) + k) = .node o (cs.map g.expression) :=
  OpGraph.eval_append_fresh _ _ h h' hk hcs

theorem Refines.thrown (h : g.Dag) (h' : (g.append nodes).Dag) {e : InvalidArgument}
    {expected : Option Expression} (hnone : expected = none) :
    Refines g expected (.error e, g.append nodes) where
  dag := h'
  keeps i hi := ⟨hi.append nodes, expression_append h hi⟩
  returns r hr := by cases hr
  throws _ _ := hnone

theorem Refines.unchanged (h : g.Dag) {outcome : Except InvalidArgument ℤ}
    {expected : Option Expression}
    (hreturns : ∀ r, outcome = .ok r → g.Valid r ∧ expected = some (g.expression r))
    (hthrows : ∀ e, outcome = .error e → expected = none) :
    Refines g expected (outcome, g) where
  dag := h
  keeps _ hi := ⟨hi, rfl⟩
  returns := hreturns
  throws := hthrows

theorem Refines.fresh (h : g.Dag) {o : Operation} {cs : List ℤ} (hcs : ∀ c ∈ cs, g.Valid c) :
    Refines g (some (.node o (cs.map g.expression))) (.ok g.size, g.append [(o, cs)]) := by
  have h' : (g.append [(o, cs)]).Dag := h.append_flat _ (by simpa using hcs)
  have hfresh := expression_append_fresh h h' (k := 0) rfl hcs
  rw [Nat.cast_zero, add_zero] at hfresh
  refine ⟨h', fun i hi => ⟨hi.append _, expression_append h hi⟩, fun r hr => ?_,
    fun e he => by cases he⟩
  obtain rfl : (g.size : ℤ) = r := Except.ok.inj hr
  exact ⟨valid_append_size g _ _, by rw [hfresh]⟩

theorem dag_append_dual (h : g.Dag) (o : Operation) (copied : List ℤ)
    {tail : List (Operation × List ℤ)} (htail : ∀ node ∈ tail, ∀ c ∈ node.2, g.Valid c) :
    (g.append (dualNodes g o copied ++ tail)).Dag := by
  refine h.append _ (fun k => if k = 0 then 1 else 0) fun k o' cs hk c hc => ?_
  cases k with
  | zero =>
      obtain ⟨rfl, rfl⟩ : o = o' ∧ copyIds g copied.length = cs := by
        simpa [dualNodes] using hk
      obtain ⟨j, hj, rfl⟩ := List.mem_map.mp hc
      have hlt : j < copied.length := by simpa using hj
      exact .inr ⟨j + 1, by simp [dualNodes]; omega, rfl, by simp⟩
  | succ k =>
      have hmem : (o', cs) ∈ copied.map (negatedCopy g) ++ tail := by
        apply List.mem_of_getElem? (i := k)
        simpa [dualNodes] using hk
      rcases List.mem_append.mp hmem with hcopy | hlast
      · obtain ⟨i, -, hi⟩ := List.mem_map.mp hcopy
        have hchildren : g.children i = cs := congrArg Prod.snd hi
        exact .inl (h.valid_children i c (hchildren ▸ hc))
      · exact .inl (htail _ hlast c hc)

end Unfolding

section Rules

variable {g : OpGraph}

theorem negate_expression (h : g.Dag) (c : ℤ) :
    (g.expression c).negate =
      if getNegatedOperation (g.operation c).op = .INVALID then none
      else some (.node (negatedCopy g c).1 ((negatedCopy g c).2.map g.expression)) := by
  rw [expression_eq h, Expression.negate]
  rfl

theorem absorbed_expression (h : g.Dag) (op : ColumnOperation) (c : ℤ) :
    (g.expression c).absorbed op = (absorb g op c).map g.expression := by
  rw [Expression.absorbed, operation_expression h, args_expression h, absorb]
  split <;> rfl

theorem merge_expression (h : g.Dag) (op : ColumnOperation) (node : ℤ) :
    (g.expression node).merge op =
      .node (g.operation node) (((g.children node).flatMap (absorb g op)).map g.expression) := by
  rw [expression_eq h node, Expression.merge, List.map_flatMap, List.flatMap_map]
  congr 2
  funext c
  exact absorbed_expression h op c

theorem reduceNotNop_of_not_single {o : Operation} {cs : List ℤ}
    (h : ∀ child, cs ≠ [child]) :
    Expression.reduceNotNop (.node o (cs.map g.expression)) = none := by
  rcases cs with _ | ⟨c, _ | ⟨d, cs⟩⟩
  · rfl
  · exact absurd rfl (h c)
  · rfl

theorem reduceNotNop_of_op {o : Operation} {args : List Expression} (hnot : o.op ≠ .NOT)
    (hnop : o.op ≠ .NOP) : Expression.reduceNotNop (.node o args) = none := by
  rcases args with _ | ⟨e, _ | ⟨d, args⟩⟩
  · rfl
  · rw [Expression.reduceNotNop]
    split <;> first | contradiction | rfl
  · rfl

theorem commonDf_expression (h : g.Dag) (children : List ℤ) :
    Expression.commonDf (children.map g.expression) = childrenCommonDf g children := by
  induction children with
  | nil => rfl
  | cons child rest ih =>
      rw [List.map_cons, Expression.commonDf, childrenCommonDf, operation_expression h, ih]

theorem cloneNegated_refines (h : g.Dag) (child : ℤ) :
    Refines g (g.expression child).negate (cloneNegated g child) := by
  have hvalid := h.valid_children child
  rw [cloneNegated_eq, negate_expression h]
  by_cases hneg : getNegatedOperation (g.operation child).op = .INVALID
  · rw [if_pos hneg, if_pos hneg]
    exact Refines.thrown h (h.append_flat _ (by simpa using hvalid)) rfl
  · rw [if_neg hneg, if_neg hneg]
    exact Refines.fresh h hvalid

theorem reduceNotNop_refines (h : g.Dag) (node : ℤ) :
    Refines g (g.expression node).reduceNotNop (reduceNotNopApply g node) := by
  have hthrown : ∀ e expected, expected = none → Refines g expected (.error e, g) :=
    fun e _ hnone => Refines.unchanged h (fun r hr => by cases hr) fun _ _ => hnone
  rw [expression_eq h, reduceNotNopApply]
  split
  · next hop =>
      rw [reduceNotNopApply.reduceUnary]
      split
      · next child hchildren =>
          rw [if_pos rfl, hchildren]
          simp only [List.map_cons, List.map_nil, Expression.reduceNotNop, hop]
          exact cloneNegated_refines h child
      · next hchildren => exact hthrown _ _ (reduceNotNop_of_not_single hchildren)
  · next hop =>
      rw [reduceNotNopApply.reduceUnary]
      split
      · next child hchildren =>
          rw [if_neg (by simp), hchildren]
          simp only [List.map_cons, List.map_nil, Expression.reduceNotNop, hop]
          refine Refines.unchanged h (fun r hr => ?_) fun e he => by cases he
          obtain rfl : child = r := Except.ok.inj hr
          exact ⟨h.valid_children node child (by simp [hchildren]), rfl⟩
      · next hchildren => exact hthrown _ _ (reduceNotNop_of_not_single hchildren)
  · next hnot hnop => exact hthrown _ _ (reduceNotNop_of_op hnot hnop)

theorem mergeLogic_refines (h : g.Dag) {node : ℤ} (hnode : g.Valid node) :
    Refines g (RewriteRule.mergeCummutativeLogic.rewrite (g.expression node))
      (mergeCummutativeLogicApply g node) := by
  have hvalid := h.valid_children node
  rw [RewriteRule.rewrite, operation_expression h, mergeCummutativeLogicApply, cloneNode_eq]
  simp only [operation_append hnode]
  cases mergedLogicOp (g.operation node).op with
  | none => exact Refines.thrown h (h.append_flat _ (by simpa using hvalid)) rfl
  | some op =>
      simp only [mergeChildren_clone_eq h.lengths op _ hvalid, Option.map_some,
        merge_expression h]
      exact Refines.fresh h (valid_of_mem_absorb h.valid_children op hvalid)

theorem mergeNumeric_refines (h : g.Dag) {node : ℤ} (hnode : g.Valid node) :
    Refines g (RewriteRule.mergeCummutativeNumeric.rewrite (g.expression node))
      (RewriteRule.mergeCummutativeNumeric.apply g node) := by
  rw [RewriteRule.rewrite, operation_expression h, merge_expression h, RewriteRule.apply,
    mergeCummutativeNumericApply_eq h hnode]
  exact Refines.fresh h (valid_of_mem_absorb h.valid_children _ (h.valid_children node))

theorem pullDf_refines (h : g.Dag) (node : ℤ) :
    Refines g (g.expression node).pullDf (pullDfApply g node) := by
  rw [expression_eq h, Expression.pullDf, commonDf_expression h]
  by_cases hdf : (g.operation node).df = 0
  · rw [if_pos hdf, pullDfApply, if_pos hdf]
    exact Refines.unchanged h (fun r hr => by cases hr) fun _ _ => rfl
  · rw [if_neg hdf, pullDfApply_eq h.lengths (h.valid_children node) hdf]
    exact Refines.fresh h (h.valid_children node)

theorem negated_copies (h : g.Dag) {o : Operation} {cs : List ℤ}
    (hneg : ∀ c ∈ cs, getNegatedOperation (g.operation c).op ≠ .INVALID)
    (h' : (g.append (dualNodes g o cs)).Dag) :
    (cs.map g.expression).mapM Expression.negate =
      some ((copyIds g cs.length).map (g.append (dualNodes g o cs)).expression) := by
  rw [mapM_eq_some_iff, List.forall₂_iff_get]
  refine ⟨by simp [copyIds], fun k hk _ => ?_⟩
  have hk : k < cs.length := by simpa using hk
  have hget : (dualNodes g o cs)[k + 1]? = some (negatedCopy g cs[k]) := by
    simp [dualNodes, hk]
  have hcopy : (g.append (dualNodes g o cs)).expression ((g.size : ℤ) + (k + 1 : ℕ)) =
      .node (negatedCopy g cs[k]).1 ((negatedCopy g cs[k]).2.map g.expression) :=
    expression_append_fresh h h' hget (h.valid_children cs[k])
  have hsome := negate_expression h cs[k]
  rw [if_neg (hneg _ (List.getElem_mem hk)), ← hcopy] at hsome
  simpa [copyIds] using hsome

theorem demorgan_refines (h : g.Dag) {node : ℤ} (hnode : g.Valid node) :
    Refines g (g.expression node).demorgan (demorganApply g node) := by
  have hvalid := h.valid_children node
  rw [expression_eq h, Expression.demorgan, demorganApply, cloneNode_eq]
  simp only [operation_clone]
  cases hop : demorganOp (g.operation node).op with
  | none => exact Refines.thrown h (h.append_flat _ (by simpa using hvalid)) rfl
  | some op =>
      have hstart : ((g.append [(g.operation node, g.children node)]).setOp g.size
          op).modifyChildren g.size (fun _ => []) =
          g.append (dualNodes g { g.operation node with op := op } []) := by
        rw [setOp_append, modifyChildren_append h.lengths]
        rfl
      have hold : ((g.append [(g.operation node, g.children node)]).setOp g.size
          op).children node = g.children node := by
        rw [setOp_append, children_append h.lengths hnode]
      simp only [hstart, hold]
      rcases demorganChildren_outcome h.lengths { g.operation node with op := op }
          (g.children node) [] hvalid with ⟨hok, hneg⟩ | ⟨e, copied, c, herr, -, hc, hnone⟩
      · rw [hok, List.nil_append]
        have htail : ∀ n ∈ ([] : List (Operation × List ℤ)), ∀ c ∈ n.2, g.Valid c := by simp
        have h' := dag_append_dual h { g.operation node with op := op } (g.children node) htail
        rw [List.append_nil] at h'
        rw [negated_copies h hneg h']
        refine ⟨h', fun i hi => ⟨hi.append _, expression_append h hi⟩, fun r hr => ?_,
          fun e he => by cases he⟩
        obtain rfl : (g.size : ℤ) = r := Except.ok.inj hr
        refine ⟨valid_append_size g _ _, ?_⟩
        rw [expression_eq h', dualNodes, operation_clone, children_clone h.lengths]
      · rw [herr]
        refine Refines.thrown h (dag_append_dual h _ copied (by simpa using h.valid_children c)) ?_
        rw [mapM_eq_none ⟨g.expression c, List.mem_map_of_mem hc, by
          rw [negate_expression h, if_pos hnone]⟩]

theorem RewriteRule.refines (h : g.Dag) {node : ℤ} (hnode : g.Valid node) (rule : RewriteRule) :
    Refines g (rule.rewrite (g.expression node)) (rule.apply g node) := by
  cases rule with
  | demorgan => exact demorgan_refines h hnode
  | mergeCummutativeNumeric => exact mergeNumeric_refines h hnode
  | mergeCummutativeLogic => exact mergeLogic_refines h hnode
  | reduceNotNop => exact reduceNotNop_refines h node
  | pullDf => exact pullDf_refines h node

/-- A nest of conjunctions of tests of one column. -/
def nestedTests : OpGraph where
  operations := [{ op := .COLUMN }, { op := .IS_NULL }, { op := .LT }, { op := .AND },
    { op := .AND }, { op := .NAND }]
  graphMapping := [[], [0], [0, 0], [1, 2], [3, 1], [4, 2]]

theorem nestedTests_dag : nestedTests.Dag :=
  dag_of_childrenFirst rfl (by decide)

/-- Rules applied one after the other do to the expression of a node what they do to
expressions. -/
theorem applyAll_refines (h : g.Dag) {node : ℤ} (hnode : g.Valid node)
    (rules : List RewriteRule) :
    Refines g (rewriteAll rules (g.expression node)) (applyAll rules g node) := by
  induction rules generalizing g node with
  | nil =>
      refine Refines.unchanged h (fun r hr => ?_) fun e he => by cases he
      obtain rfl : node = r := Except.ok.inj hr
      exact ⟨hnode, rfl⟩
  | cons rule rules ih =>
      have hrule := rule.refines h hnode
      rw [applyAll]
      rcases happly : rule.apply g node with ⟨e | newNode, g'⟩
      · rw [happly] at hrule
        refine ⟨hrule.dag, hrule.keeps, fun r hr => (by cases hr), fun _ _ => ?_⟩
        rw [rewriteAll, List.foldlM_cons, hrule.throws e rfl]
        rfl
      · rw [happly] at hrule
        obtain ⟨hvalid, hrewrite⟩ := hrule.returns newNode rfl
        have hrest := ih hrule.dag hvalid
        have hall : rewriteAll (rule :: rules) (g.expression node) =
            rewriteAll rules (g'.expression newNode) := by
          rw [rewriteAll, List.foldlM_cons, hrewrite]
          rfl
        rw [hall]
        refine ⟨hrest.dag, fun i hi => ?_, hrest.returns, hrest.throws⟩
        obtain ⟨hkept, hsame⟩ := hrule.keeps i hi
        obtain ⟨hlast, hagain⟩ := hrest.keeps i hkept
        exact ⟨hlast, hagain.trans hsame⟩

theorem applyAll_refines_nestedTests :
    Refines nestedTests
      (rewriteAll [.mergeCummutativeLogic, .demorgan, .reduceNotNop] (nestedTests.expression 5))
      (applyAll [.mergeCummutativeLogic, .demorgan, .reduceNotNop] nestedTests 5) :=
  applyAll_refines nestedTests_dag (by decide) _

/-- The De Morgan rule at the node that it returned gives back the expression, unless a
child of the old node was a `NOT`: then it throws. -/
theorem demorgan_twice (h : g.Dag) {node r : ℤ} {g' : OpGraph} (hnode : g.Valid node)
    (hfirst : demorganApply g node = (.ok r, g')) :
    (∀ r' g'', demorganApply g' r = (.ok r', g'') → g''.expression r' = g.expression node) ∧
      ((∃ r' g'', demorganApply g' r = (.ok r', g'')) ↔
        ∀ c ∈ g.children node, (g.operation c).op ≠ .NOT) := by
  have hrule := demorgan_refines h hnode
  rw [hfirst] at hrule
  obtain ⟨hr, hrewrite⟩ := hrule.returns r rfl
  have hagain := Expression.demorgan_of_demorgan hrewrite
  have hsecond := demorgan_refines hrule.dag hr
  have hnots : (∀ arg ∈ (g.expression node).args, arg.operation.op ≠ .NOT) ↔
      ∀ c ∈ g.children node, (g.operation c).op ≠ .NOT := by
    simp only [args_expression h, List.forall_mem_map, operation_expression h]
  rw [hagain] at hsecond
  constructor
  · intro r' g'' hok
    rw [hok] at hsecond
    have hreturned := (hsecond.returns r' rfl).2
    split at hreturned
    · exact (Option.some.inj hreturned).symm
    · cases hreturned
  · rw [← hnots]
    constructor
    · rintro ⟨r', g'', hok⟩
      rw [hok] at hsecond
      by_contra hnone
      have hreturned := (hsecond.returns r' rfl).2
      rw [if_neg hnone] at hreturned
      cases hreturned
    · intro hall
      rcases hok : demorganApply g' r with ⟨e | r', g''⟩
      · rw [hok] at hsecond
        have hthrown := hsecond.throws e rfl
        rw [if_pos hall] at hthrown
        cases hthrown
      · exact ⟨r', g'', rfl⟩

theorem demorgan_twice_nestedTests :
    let g' := (demorganApply nestedTests 5).2
    (∀ r' g'', demorganApply g' 6 = (.ok r', g'') →
        g''.expression r' = nestedTests.expression 5) ∧
      ((∃ r' g'', demorganApply g' 6 = (.ok r', g'')) ↔
        ∀ c ∈ nestedTests.children 5, (nestedTests.operation c).op ≠ .NOT) :=
  demorgan_twice nestedTests_dag (by decide) rfl

/-- After `k` applications of a merge rule nothing is nested any more exactly when the nest
was at most `k` deep. The children are then the operands of the nest, in their order. -/
theorem merged_operands (h : g.Dag) {node : ℤ} (hnode : g.Valid node) {rule : RewriteRule}
    {op : ColumnOperation} (hop : rule.mergedOp (g.operation node).op = some op) (k : ℕ) :
    ∃ r g', applyAll (List.replicate k rule) g node = (.ok r, g') ∧
      ((∀ c ∈ g'.children r, (g'.operation c).op ≠ op) ↔
        Expression.depthBelow op (g.expression node).args ≤ k) ∧
      (Expression.depthBelow op (g.expression node).args ≤ k →
        g'.expression r = .node (g.operation node)
          ((g.expression node).args.flatMap (Expression.operands op))) := by
  have hall := applyAll_refines h hnode (List.replicate k rule)
  rw [rewriteAll_replicate k (by rwa [operation_expression h])] at hall
  rcases happly : applyAll (List.replicate k rule) g node with ⟨e | r, g'⟩
  · rw [happly] at hall
    cases hall.throws e rfl
  · rw [happly] at hall
    have hexpression : (Expression.merge op)^[k] (g.expression node) = g'.expression r :=
      Option.some.inj (hall.returns r rfl).2
    obtain ⟨hoperation, hdepth, hoperands⟩ := Expression.iterate_merge op k (g.expression node)
    rw [hexpression] at hoperation hdepth hoperands
    have hflat : (∀ c ∈ g'.children r, (g'.operation c).op ≠ op) ↔
        Expression.depthBelow op (g'.expression r).args = 0 := by
      simp only [Expression.depthBelow_eq_zero_iff, args_expression hall.dag,
        List.forall_mem_map, operation_expression hall.dag]
    refine ⟨r, g', rfl, ?_, fun hle => ?_⟩
    · rw [hflat, hdepth, Nat.sub_eq_zero_iff_le]
    · have hzero : Expression.depthBelow op (g'.expression r).args = 0 := by omega
      rw [Expression.flatMap_operands_of_flat
        (Expression.depthBelow_eq_zero_iff.mp hzero)] at hoperands
      rw [← hoperands, ← operation_expression h, ← hoperation]
      rfl

theorem merged_operands_nestedTests :
    ∃ r g', applyAll (List.replicate 2 .mergeCummutativeLogic) nestedTests 5 = (.ok r, g') ∧
      ((∀ c ∈ g'.children r, (g'.operation c).op ≠ .AND) ↔
        Expression.depthBelow .AND (nestedTests.expression 5).args ≤ 2) ∧
      (Expression.depthBelow .AND (nestedTests.expression 5).args ≤ 2 →
        g'.expression r = .node (nestedTests.operation 5)
          ((nestedTests.expression 5).args.flatMap (Expression.operands .AND))) :=
  merged_operands nestedTests_dag (by decide) rfl 2

end Rules

end Query

end DistStorage
