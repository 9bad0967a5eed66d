import DistStorage.Parse.QueryErrors
import DistStorage.Parse.Traced

/-!
# Expressions without events

A select statement in an expression leaves no node behind, and neither does
anything around it up to the next cast, which throws. So an expression whose
visit returns a node has visited no select statement, and there was no event.
-/

namespace DistStorage

namespace Parse

open Cpp Cpp.Action Query QueryGraph

def Silent {α : Type} (m : Visit α) (p : VisitorState → List Event) : Prop :=
  ∀ s a t, m s = .returned a t → p s = []

/-- There was no event when the visit returns a node. -/
def SilentNode (m : Visit Any) (p : VisitorState → List Event) : Prop :=
  ∀ s i t, m s = .returned (some i) t → p s = []

section Rules

variable {α β : Type} {m : Visit α} {p : VisitorState → List Event}
  {q : α → VisitorState → List Event}

namespace Silent

theorem nil (m : Visit α) : Silent m fun _ => [] :=
  fun _ _ _ _ => rfl

protected theorem bind {f : α → Visit β} (hm : Silent m p) (hf : ∀ a, Silent (f a) (q a)) :
    Silent (m >>= f) (eventsThen p m q) := by
  intro s b u h
  obtain ⟨a, t, hms, h⟩ := bind_eq_returned.mp h
  rw [eventsThen_of_returned hms, hm s a t hms, hf a t b u h, List.append_nil]

theorem last {f : α → Visit β} (hm : Silent m p) : Silent (m >>= f) p := by
  intro s b u h
  obtain ⟨a, t, hms, -⟩ := bind_eq_returned.mp h
  exact hm s a t hms

theorem bindNode {f : α → Visit Any} (hm : Silent m p) (hf : ∀ a, SilentNode (f a) (q a)) :
    SilentNode (m >>= f) (eventsThen p m q) := by
  intro s b u h
  obtain ⟨a, t, hms, h⟩ := bind_eq_returned.mp h
  rw [eventsThen_of_returned hms, hm s a t hms, hf a t b u h, List.append_nil]

theorem lastNode {f : α → Visit Any} (hm : Silent m p) : SilentNode (m >>= f) p :=
  fun s b u h => hm.last s (some b) u h

end Silent

namespace SilentNode

protected theorem castNode {m : Visit Any} (h : SilentNode m p) : Silent (castNode m) p := by
  intro s i u hrun
  obtain ⟨a, t, hms, hrun⟩ := bind_eq_returned.mp hrun
  cases a with
  | none => cases hrun
  | some j => exact h s j t hms

theorem of_answers {m : Visit Any} (h : Answers false m) : SilentNode m p := by
  intro s i t hm
  exact absurd (h s (some i) t hm) (by simp)

end SilentNode

end Rules

section Recursion

variable (env : Environment)

-- One case for each constructor that can return a node.
mutual

theorem visitExpression_silent : (x : Expression) →
    SilentNode (visitExpression env x) (x.events env)
  | .mk orExpr => by
      rw [visitExpression, Expression.events]
      exact (visitOrExpr_silent orExpr).castNode.lastNode

theorem visitOrExpr_silent : (x : OrExpr) → SilentNode (visitOrExpr env x) (x.events env)
  | .mk firstArg args => by
      rw [visitOrExpr, OrExpr.events]
      exact (visitXorExpr_silent firstArg).castNode.bindNode fun _ =>
        (visitXorExprs_silent args).lastNode

theorem visitXorExprs_silent : (l : List XorExpr) →
    Silent (visitXorExprs env l) (xorExprsEvents env l)
  | [] => by
      rw [xorExprsEvents]
      exact Silent.nil _
  | arg :: rest => by
      rw [visitXorExprs, xorExprsEvents]
      exact (visitXorExpr_silent arg).castNode.bind fun _ => (visitXorExprs_silent rest).last

theorem visitXorExpr_silent : (x : XorExpr) → SilentNode (visitXorExpr env x) (x.events env)
  | .mk firstArg args => by
      rw [visitXorExpr, XorExpr.events]
      exact (visitAndExpr_silent firstArg).castNode.bindNode fun _ =>
        (visitAndExprs_silent args).lastNode

theorem visitAndExprs_silent : (l : List AndExpr) →
    Silent (visitAndExprs env l) (andExprsEvents env l)
  | [] => by
      rw [andExprsEvents]
      exact Silent.nil _
  | arg :: rest => by
      rw [visitAndExprs, andExprsEvents]
      exact (visitAndExpr_silent arg).castNode.bind fun _ => (visitAndExprs_silent rest).last

theorem visitAndExpr_silent : (x : AndExpr) → SilentNode (visitAndExpr env x) (x.events env)
  | .mk firstArg args => by
      rw [visitAndExpr, AndExpr.events]
      exact (visitNotExpr_silent firstArg).castNode.bindNode fun _ =>
        (visitNotExprs_silent args).lastNode

theorem visitNotExprs_silent : (l : List NotExpr) →
    Silent (visitNotExprs env l) (notExprsEvents env l)
  | [] => by
      rw [notExprsEvents]
      exact Silent.nil _
  | arg :: rest => by
      rw [visitNotExprs, notExprsEvents]
      exact (visitNotExpr_silent arg).castNode.bind fun _ => (visitNotExprs_silent rest).last

theorem visitNotExpr_silent : (x : NotExpr) → SilentNode (visitNotExpr env x) (x.events env)
  | .not op exprNot => by
      rw [visitNotExpr, NotExpr.events]
      exact (visitNotExpr_silent exprNot).castNode.lastNode
  | .pass exprPass => by
      rw [visitNotExpr, NotExpr.events]
      exact (visitCmpExpr_silent exprPass).castNode.lastNode

theorem visitCmpExpr_silent : (x : CmpExpr) → SilentNode (visitCmpExpr env x) (x.events env)
  | .comparisonExpr left tail => by
      rw [visitCmpExpr, CmpExpr.events]
      exact (visitMathExpr_silent left).castNode.bindNode fun leftNodeId =>
        (visitCmpTail_silent leftNodeId tail).lastNode
  | .isNullExpr _ _ => by
      rw [CmpExpr.events]
      exact fun _ _ _ _ => rfl
  | .inExpr left right => SilentNode.of_answers (visitCmpExpr_answers env (.inExpr left right))
  | .likeExpr left op right => by
      rw [visitCmpExpr, CmpExpr.events]
      exact (visitMathExpr_silent left).castNode.bindNode fun _ =>
        (visitMathExpr_silent right).castNode.lastNode
  | .betweenExpr left notOp lower upper => by
      rw [visitCmpExpr, CmpExpr.events]
      refine (visitMathExpr_silent lower).castNode.bindNode fun _ => ?_
      exact (visitMathExpr_silent left).castNode.bindNode fun _ =>
        (visitMathExpr_silent upper).castNode.lastNode
  | .mathFallthrough mathExpr => by
      rw [visitCmpExpr, CmpExpr.events]
      exact visitMathExpr_silent mathExpr

theorem visitCmpTail_silent (leftNodeId : ℤ) : (x : CmpTail) →
    Silent (visitCmpTail env leftNodeId x) (x.events env leftNodeId)
  | .last op right => by
      rw [visitCmpTail, CmpTail.events]
      exact (visitMathExpr_silent right).castNode.last
  | .cons op right rest => by
      rw [visitCmpTail, CmpTail.events]
      refine (visitMathExpr_silent right).castNode.bind fun rightNodeId => ?_
      exact (Silent.nil _).bind fun _ => (visitCmpTail_silent rightNodeId rest).last

theorem visitMathExpr_silent : (x : MathExpr) → SilentNode (visitMathExpr env x) (x.events env)
  | .primaryBase primaryExpr => by
      rw [visitMathExpr, MathExpr.events]
      exact visitPrimaryExpr_silent primaryExpr
  | .castExpr left => SilentNode.of_answers (visitMathExpr_answers env (.castExpr left))
  | .mulDivExpr left op right => by
      rw [visitMathExpr, MathExpr.events]
      exact (visitMathExpr_silent left).castNode.bindNode fun _ =>
        (visitMathExpr_silent right).castNode.lastNode
  | .addSubExpr left op right => by
      rw [visitMathExpr, MathExpr.events]
      exact (visitMathExpr_silent left).castNode.bindNode fun _ =>
        (visitMathExpr_silent right).castNode.lastNode

theorem visitPrimaryExpr_silent : (x : PrimaryExpr) →
    SilentNode (visitPrimaryExpr env x) (x.events env)
  | .parenthesizedExpr inside => by
      rw [visitPrimaryExpr, PrimaryExpr.events]
      exact (visitExpression_silent inside).castNode.lastNode
  | .subqueryExpr queryExpression =>
      SilentNode.of_answers (visitPrimaryExpr_answers env (.subqueryExpr queryExpression))
  | .functionExpr functionCall =>
      SilentNode.of_answers (visitPrimaryExpr_answers env (.functionExpr functionCall))
  | .columnExpr _ _ => by
      rw [PrimaryExpr.events]
      exact fun _ _ _ _ => rfl
  | .literalExpr _ => by
      rw [PrimaryExpr.events]
      exact fun _ _ _ _ => rfl

end

end Recursion

section Clauses

variable (env : Environment)

theorem visitOptional_silent (x : Option Expression) :
    Silent (visitOptional env x) (optionalEvents env x) := by
  cases x with
  | none =>
      rw [optionalEvents]
      exact Silent.nil _
  | some expression =>
      rw [visitOptional, optionalEvents]
      exact (visitExpression_silent env expression).castNode.last

theorem visitExpressions_silent (l : List Expression) :
    Silent (visitExpressions env l) (expressionsEvents env l) := by
  induction l with
  | nil =>
      rw [expressionsEvents]
      exact Silent.nil _
  | cons expression rest ih =>
      rw [visitExpressions, expressionsEvents]
      exact (visitExpression_silent env expression).castNode.bind fun _ => ih.last

theorem visitSortItem_silent (x : SortItem) : Silent (visitSortItem env x) (x.events env) := by
  cases x with
  | mk expression desc =>
      rw [visitSortItem, SortItem.events]
      exact (visitExpression_silent env expression).castNode.last

theorem visitSortItems_silent (l : List SortItem) :
    Silent (visitSortItems env l) (sortItemsEvents env l) := by
  induction l with
  | nil =>
      rw [sortItemsEvents]
      exact Silent.nil _
  | cons sortItem rest ih =>
      rw [visitSortItems, sortItemsEvents]
      exact (visitSortItem_silent env sortItem).bind fun _ => ih.last

end Clauses

/-- Where nothing happens, only nodes of expressions are appended. -/
theorem grown_traced (env : Environment) :
    Traced env (fun s es t => es = [] → Grown Operation.Plain s [] t) Unbound where
  refl s _ := Grown.compositional.refl s
  trans h h' hnil := by
    obtain ⟨rfl, rfl⟩ := List.append_eq_nil_iff.mp hnil
    exact Grown.compositional.trans (h rfl) (h' rfl)
  grow s es t h _ := h
  construct s node new g _ _ _ _ h := by cases h
  unite s es t _ h := by cases h
  lookup s name t _ h := by cases h
  enter s es u relation tableNodeId t _ _ _ h := by
    cases (List.append_eq_nil_iff.mp h).2
  name s es u origin nodeId name t _ _ _ h := by
    cases (List.append_eq_nil_iff.mp h).2
  select s es t _ h := by cases h

section Grown

variable {env : Environment} {s t : VisitorState}

/-- An expression that returns a node has appended nodes of expressions, and
nothing else has changed. -/
theorem visitExpression_grown {x : Expression} {i : ℤ}
    (h : castNode (visitExpression env x) s = .returned i t) :
    Grown Operation.Plain s [] t := by
  have hT := grown_traced env
  exact (hT.castNode (visitExpression_follows hT x) s).leaves t (.returned i h)
    ((visitExpression_silent env x).castNode s i t h)

theorem visitOptional_grown {x : Option Expression} {a : Option ℤ}
    (h : visitOptional env x s = .returned a t) : Grown Operation.Plain s [] t :=
  (visitOptional_follows (grown_traced env) x s).leaves t (.returned a h)
    (visitOptional_silent env x s a t h)

theorem visitExpressions_grown {l : List Expression} {a : List ℤ}
    (h : visitExpressions env l s = .returned a t) : Grown Operation.Plain s [] t :=
  (visitExpressions_follows (grown_traced env) l s).leaves t (.returned a h)
    (visitExpressions_silent env l s a t h)

theorem visitSortItems_grown {l : List SortItem} {a : List ℤ}
    (h : visitSortItems env l s = .returned a t) : Grown Operation.Plain s [] t :=
  (visitSortItems_follows (grown_traced env) l s).leaves t (.returned a h)
    (visitSortItems_silent env l s a t h)

end Grown

end Parse

end DistStorage
