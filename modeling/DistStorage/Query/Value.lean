import DistStorage.Query.Append
import DistStorage.Logic.Kleene

/-!
# The value of a query node

A node of a query graph stands for an expression. Its value is a member of a
totally ordered domain or null, written `Option V`; `truth` reads a member of
the domain as a truth value and `ofBool` writes one, so the three-valued
reading of a node is `truthOf` of its value.

Logic operations are the `n`-ary Kleene connectives of the readings of their
arguments. Comparisons and the `IN` and `LIKE` tests are null when an argument
is, and the negated form of each is the complement of the plain form. `IS_NULL`
never is null. The remaining operations are not interpreted: without arguments
they are leaves and take their value from an assignment, with arguments they
are an arbitrary function of the argument values.
-/

namespace DistStorage

namespace Query

/-- What the semantics of the logic operations is relative to. -/
structure Interpretation (V : Type*) where
  truth : V → Bool
  ofBool : Bool → V
  truth_ofBool : ∀ b, truth (ofBool b) = b
  isIn : List V → Bool
  like : List V → Bool
  ilike : List V → Bool
  other : Operation → List (Option V) → Option V

namespace Interpretation

def truthOf {V : Type*} (I : Interpretation V) (v : Option V) : Option Bool :=
  v.map I.truth

def ofTruth {V : Type*} (I : Interpretation V) (t : Option Bool) : Option V :=
  t.map I.ofBool

@[simp] theorem truthOf_ofTruth {V : Type*} (I : Interpretation V) (t : Option Bool) :
    I.truthOf (I.ofTruth t) = t := by
  cases t <;> simp [truthOf, ofTruth, I.truth_ofBool]

end Interpretation

/-- A test on arguments none of which may be null. -/
def strictTest {V : Type*} (p : List V → Bool) (args : List (Option V)) : Option Bool :=
  (args.mapM id).map p

def compareTest {V : Type*} (r : V → V → Bool) : List (Option V) → Option Bool
  | [some a, some b] => some (r a b)
  | _ => none

/-- The value of a node from the values of its children; `leaf` is the value
assigned to it in case it is a leaf. -/
def opValue {V : Type*} [LinearOrder V] (I : Interpretation V) (leaf : Option V)
    (o : Operation) (args : List (Option V)) : Option V :=
  match o.op with
  | .NOT => I.ofTruth (Kleene.not (I.truthOf (args.headD none)))
  | .NOP => args.headD none
  | .NULL_ => none
  | .AND => I.ofTruth (Kleene.all (args.map I.truthOf))
  | .OR => I.ofTruth (Kleene.any (args.map I.truthOf))
  | .XOR => I.ofTruth (Kleene.parity (args.map I.truthOf))
  | .NAND => I.ofTruth (Kleene.not (Kleene.all (args.map I.truthOf)))
  | .NOR => I.ofTruth (Kleene.not (Kleene.any (args.map I.truthOf)))
  | .XNOR => I.ofTruth (Kleene.not (Kleene.parity (args.map I.truthOf)))
  | .EQ => I.ofTruth (compareTest (fun a b => decide (a = b)) args)
  | .NEQ => I.ofTruth (compareTest (fun a b => decide (a ≠ b)) args)
  | .GT => I.ofTruth (compareTest (fun a b => decide (a > b)) args)
  | .LT => I.ofTruth (compareTest (fun a b => decide (a < b)) args)
  | .GTE => I.ofTruth (compareTest (fun a b => decide (a ≥ b)) args)
  | .LTE => I.ofTruth (compareTest (fun a b => decide (a ≤ b)) args)
  | .IN => I.ofTruth (strictTest I.isIn args)
  | .NOT_IN => I.ofTruth (strictTest (fun l => !I.isIn l) args)
  | .LIKE => I.ofTruth (strictTest I.like args)
  | .NOT_LIKE => I.ofTruth (strictTest (fun l => !I.like l) args)
  | .ILIKE => I.ofTruth (strictTest I.ilike args)
  | .NOT_ILIKE => I.ofTruth (strictTest (fun l => !I.ilike l) args)
  | .IS_NULL => I.ofTruth (some (args.any Option.isNone))
  | .IS_NOT_NULL => I.ofTruth (some (!args.any Option.isNone))
  | _ => if args.isEmpty then leaf else I.other o args

/-- Evaluate a node from the values of its children. The recursion is cut off at a
depth no path of an acyclic graph reaches. -/
def OpGraph.eval {β : Type*} (g : OpGraph) (layer : ℤ → Operation → List β → β) (base : β)
    (i : ℤ) : β :=
  Digraph.evalFuel g.children (fun i => layer i (g.operation i)) base (g.size + 1) i

/-- The value of a node under an assignment of values to the leaves. The
recursion is cut off at a depth no path of an acyclic graph reaches. -/
def value {V : Type*} [LinearOrder V] (I : Interpretation V) (g : OpGraph)
    (leaf : ℤ → Option V) (i : ℤ) : Option V :=
  Digraph.evalFuel g.children (fun i => opValue I (leaf i) (g.operation i)) none
    (g.size + 1) i

theorem strictTest_not {V : Type*} (p : List V → Bool) (args : List (Option V)) :
    strictTest (fun l => !p l) args = Kleene.not (strictTest p args) := by
  simp only [strictTest, Kleene.not, Option.map_map]
  rfl

theorem compareTest_not {V : Type*} {r s : V → V → Bool} (h : ∀ a b, s a b = !r a b)
    (args : List (Option V)) :
    compareTest s args = Kleene.not (compareTest r args) := by
  rcases args with _ | ⟨_ | a, _ | ⟨_ | b, _ | ⟨c, l⟩⟩⟩ <;>
    simp [compareTest, h]

/-- The negation table negates the three-valued reading, whatever the
arguments. -/
theorem truthOf_negated {V : Type*} [LinearOrder V] (I : Interpretation V)
    (leaf leaf' : Option V) (o : Operation) (args : List (Option V))
    (h : getNegatedOperation o.op ≠ .INVALID) :
    I.truthOf (opValue I leaf { o with op := getNegatedOperation o.op } args) =
      Kleene.not (I.truthOf (opValue I leaf' o args)) := by
  obtain ⟨op, name, constId, df, type, sequence⟩ := o
  cases op
  case NOT => simp [opValue, getNegatedOperation]
  case NULL_ => rfl
  case AND | OR | XOR | NAND | NOR | XNOR | IS_NULL | IS_NOT_NULL =>
    simp [opValue, getNegatedOperation]
  case EQ | NEQ | GT | LT | GTE | LTE =>
    simp only [opValue, getNegatedOperation, Interpretation.truthOf_ofTruth]
    apply compareTest_not
    intro a b
    simp only [gt_iff_lt, ge_iff_le, ne_eq, ← decide_not, not_lt, not_le, not_not]
  case IN | LIKE | ILIKE =>
    simp [opValue, getNegatedOperation, strictTest_not]
  case NOT_IN | NOT_LIKE | NOT_ILIKE =>
    simp [opValue, getNegatedOperation, strictTest_not]
  all_goals exact absurd rfl h

section Eval

variable {β : Type*} (layer : ℤ → Operation → List β → β) (base : β) {g : OpGraph}
  {nodes : List (Operation × List ℤ)}

/-- In an acyclic graph a node is evaluated from the values of its children. -/
theorem OpGraph.eval_eq (h : g.Dag) (i : ℤ) :
    g.eval layer base i = layer i (g.operation i) ((g.children i).map (g.eval layer base)) := by
  obtain ⟨rank, hrank, hle⟩ := h.exists_rank
  exact Digraph.evalFuel_eq_layer hrank (Nat.lt_succ_of_le (hle i))

theorem OpGraph.eval_append (h : g.Dag) {i : ℤ} (hi : g.Valid i) :
    (g.append nodes).eval layer base i = g.eval layer base i := by
  obtain ⟨rank, hrank, hle⟩ := h.exists_rank
  have hcongr : (g.append nodes).eval layer base i =
      Digraph.evalFuel g.children (fun i => layer i (g.operation i)) base
        ((g.append nodes).size + 1) i :=
    Digraph.evalFuel_congr (s := g.Valid) (fun a _ c hc => h.valid_children a c hc)
      (fun a ha => OpGraph.children_append h.lengths ha nodes)
      (fun a ha => by simp only [OpGraph.operation_append ha]) hi
  have hi_rank := hle i
  rw [hcongr]
  apply Digraph.evalFuel_eq_of_rank hrank
  · rw [OpGraph.size_append]
    omega
  · omega

theorem OpGraph.eval_append_fresh (h : g.Dag) (h' : (g.append nodes).Dag) {k : ℕ}
    {o : Operation} {cs : List ℤ} (hk : nodes[k]? = some (o, cs))
    (hcs : ∀ c ∈ cs, g.Valid c) :
    (g.append nodes).eval layer base ((g.size : ℤ) + k) =
      layer ((g.size : ℤ) + k) o (cs.map (g.eval layer base)) := by
  rw [OpGraph.eval_eq layer base h', OpGraph.operation_append_fresh g hk,
    OpGraph.children_append_fresh h.lengths hk]
  congr 1
  exact List.map_congr_left fun c hc => OpGraph.eval_append layer base h (hcs c hc)

end Eval

theorem value_eq {V : Type*} [LinearOrder V] (I : Interpretation V) {g : OpGraph}
    (h : g.WellFormed) (leaf : ℤ → Option V) (i : ℤ) :
    value I g leaf i =
      opValue I (leaf i) (g.operation i) ((g.children i).map (value I g leaf)) :=
  OpGraph.eval_eq (fun i => opValue I (leaf i)) none h.dag i

theorem value_append {V : Type*} [LinearOrder V] (I : Interpretation V) {g : OpGraph}
    {nodes : List (Operation × List ℤ)} (h : g.WellFormed) (leaf : ℤ → Option V)
    {i : ℤ} (hi : g.Valid i) :
    value I (g.append nodes) leaf i = value I g leaf i :=
  OpGraph.eval_append (fun i => opValue I (leaf i)) none h.dag hi

theorem value_append_fresh {V : Type*} [LinearOrder V] (I : Interpretation V)
    {g : OpGraph} {nodes : List (Operation × List ℤ)} (h : g.WellFormed)
    (h' : (g.append nodes).WellFormed) (leaf : ℤ → Option V) {k : ℕ} {o : Operation}
    {cs : List ℤ} (hk : nodes[k]? = some (o, cs)) (hcs : ∀ c ∈ cs, g.Valid c) :
    value I (g.append nodes) leaf ((g.size : ℤ) + k) =
      opValue I (leaf ((g.size : ℤ) + k)) o (cs.map (value I g leaf)) :=
  OpGraph.eval_append_fresh (fun i => opValue I (leaf i)) none h.dag h'.dag hk hcs

end Query

end DistStorage
