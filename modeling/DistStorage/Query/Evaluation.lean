import DistStorage.Query.Coherent
import DistStorage.Query.Value

/-!
# The value of a node in a graph under construction

A node of a `QueryGraph` has a value once its columns have: constants take
theirs from the tables of the graph, and arithmetic and the tests on strings are
those of a domain of SQL values. Coherence is enough for the value of a node to
be that of its layer, since only the mark of an absent node may stand among the
children where no node is.

`g.Extends g'` says that `g'` has the nodes and constants of `g` and maybe
more. It keeps the value of every node.
-/

namespace DistStorage

namespace Query

/-- A domain of SQL values. -/
structure SqlValues (V : Type*) where
  truth : V → Bool
  ofBool : Bool → V
  truth_ofBool : ∀ b, truth (ofBool b) = b
  add : Option V → Option V → Option V
  sub : Option V → Option V → Option V
  mul : Option V → Option V → Option V
  div : Option V → Option V → Option V
  like : V → V → Bool
  ilike : V → V → Bool
  int64 : ℤ → V
  float64 : Double → V
  string : Bytes → V

namespace SqlValues

/-- The operations of a graph over the domain. -/
def interpretation {V : Type*} (J : SqlValues V) : Interpretation V where
  truth := J.truth
  ofBool := J.ofBool
  truth_ofBool := J.truth_ofBool
  isIn _ := false
  like args :=
    match args with
    | [a, b] => J.like a b
    | _ => false
  ilike args :=
    match args with
    | [a, b] => J.ilike a b
    | _ => false
  other o args :=
    match o.op, args with
    | .ADD, [a, b] => J.add a b
    | .SUB, [a, b] => J.sub a b
    | .MUL, [a, b] => J.mul a b
    | .DIV, [a, b] => J.div a b
    | _, _ => none

/-- The constant of a `CONST` operation. An array is no value. -/
def constantValue {V : Type*} (J : SqlValues V) (g : QueryGraph) (o : Operation) : Option V :=
  match o.type, o.sequence with
  | _, .ARRAY => none
  | .Int64, _ => (Cpp.index g.int64Constants o.constId).map J.int64
  | .Float64, _ => (Cpp.index g.float64Constants o.constId).map J.float64
  | .String, _ => (Cpp.index g.stringConstants o.constId).map J.string
  | _, _ => none

/-- The value of an operation without arguments, if it were a column of the given
value. -/
def ownValue {V : Type*} (J : SqlValues V) (g : QueryGraph) (assigned : Option V)
    (o : Operation) : Option V :=
  match o.op with
  | .CONST => J.constantValue g o
  | .TRUE => some (J.ofBool true)
  | .FALSE => some (J.ofBool false)
  | .COLUMN => assigned
  | _ => none

/-- The value of a node under an assignment of values to the columns. -/
def evaluate {V : Type*} [LinearOrder V] (J : SqlValues V) (g : QueryGraph)
    (column : ℤ → Option V) (i : ℤ) : Option V :=
  value J.interpretation g.toOpGraph (fun i => J.ownValue g (column i) (g.operation i)) i

end SqlValues

namespace QueryGraph

structure Extends (g g' : QueryGraph) : Prop where
  operations : g.operations <+: g'.operations
  graphMapping : g.graphMapping <+: g'.graphMapping
  int64Constants : g.int64Constants <+: g'.int64Constants
  float64Constants : g.float64Constants <+: g'.float64Constants
  stringConstants : g.stringConstants <+: g'.stringConstants

theorem index_eq_of_isPrefix {α : Type*} {l l' : List α} (h : l <+: l') {i : ℤ}
    (hi : i < l.length) : Cpp.index l' i = Cpp.index l i := by
  obtain ⟨r, rfl⟩ := h
  exact Cpp.index_append_left l r hi

namespace Extends

variable {g g' g'' : QueryGraph}

protected theorem refl (g : QueryGraph) : g.Extends g := by
  constructor <;> exact List.prefix_rfl

protected theorem trans (h : g.Extends g') (h' : g'.Extends g'') : g.Extends g'' where
  operations := h.operations.trans h'.operations
  graphMapping := h.graphMapping.trans h'.graphMapping
  int64Constants := h.int64Constants.trans h'.int64Constants
  float64Constants := h.float64Constants.trans h'.float64Constants
  stringConstants := h.stringConstants.trans h'.stringConstants

theorem push (h : g.Extends g') (o : Operation) (args : List ℤ) :
    g.Extends (g'.push o args).2 where
  operations := h.operations.trans (List.prefix_append _ _)
  graphMapping := h.graphMapping.trans (List.prefix_append _ _)
  int64Constants := h.int64Constants
  float64Constants := h.float64Constants
  stringConstants := h.stringConstants

theorem valid (h : g.Extends g') {i : ℤ} (hi : g.Valid i) : g'.Valid i :=
  ⟨hi.1, hi.2.trans_le (by exact_mod_cast h.operations.length_le)⟩

theorem operation_eq (h : g.Extends g') {i : ℤ} (hi : g.Valid i) :
    g'.operation i = g.operation i := by
  unfold OpGraph.operation
  rw [index_eq_of_isPrefix h.operations hi.2]

theorem children_eq (h : g.Extends g') (hg : g.Coherent) {i : ℤ} (hi : g.Valid i) :
    g'.children i = g.children i := by
  unfold OpGraph.children
  rw [index_eq_of_isPrefix h.graphMapping (by rw [hg.lengths]; exact hi.2)]

end Extends

/-- Where nodes stand for the evaluation: the mark of an absent node counts
below all of them. -/
def height (g : QueryGraph) (i : ℤ) : ℕ := if g.Valid i then i.toNat + 1 else 0

theorem height_le (g : QueryGraph) (i : ℤ) : g.height i ≤ g.size := by
  unfold height
  split_ifs with hi
  · have h0 := hi.1
    have hlt := hi.2
    omega
  · exact Nat.zero_le _

theorem Coherent.isRank {g : QueryGraph} (h : g.Coherent) :
    Digraph.IsRank g.children g.height := by
  intro i c hc
  obtain ⟨hi, rfl | ⟨hvalid, hlt⟩⟩ := h.child hc
  · have hnone : ¬g.Valid nodeNone := fun hv => absurd hv.1 (by decide)
    rw [height, height, if_neg hnone, if_pos hi]
    exact Nat.succ_pos _
  · rw [height, height, if_pos hvalid, if_pos hi]
    have h0 := hvalid.1
    omega

end QueryGraph

namespace SqlValues

open QueryGraph

variable {V : Type*} (J : SqlValues V)

theorem evaluate_eq [LinearOrder V] {g : QueryGraph} (h : g.Coherent) (column : ℤ → Option V)
    (i : ℤ) :
    J.evaluate g column i =
      opValue J.interpretation (J.ownValue g (column i) (g.operation i)) (g.operation i)
        ((g.children i).map (J.evaluate g column)) :=
  Digraph.evalFuel_eq_layer h.isRank (Nat.lt_succ_of_le (g.height_le i))

theorem constantValue_extends {g g' : QueryGraph} (hext : g.Extends g') (h : g.Coherent)
    {o : Operation} (ho : o ∈ g.operations) (hop : o.op = .CONST) :
    J.constantValue g' o = J.constantValue g o := by
  obtain ⟨-, hlt⟩ := h.constants o ho hop
  obtain ⟨op, name, constId, df, type, sequence⟩ := o
  cases sequence <;> cases type <;> simp only [constantValue, constantCount] at hlt ⊢
  all_goals first
    | rw [index_eq_of_isPrefix hext.int64Constants hlt]
    | rw [index_eq_of_isPrefix hext.float64Constants hlt]
    | rw [index_eq_of_isPrefix hext.stringConstants hlt]

theorem operation_mem {g : QueryGraph} {i : ℤ} (hi : g.Valid i) :
    g.operation i ∈ g.operations := by
  obtain ⟨k, rfl⟩ := Int.eq_ofNat_of_zero_le hi.1
  have hk : k < g.operations.length := by exact_mod_cast hi.2
  simp [OpGraph.operation, hk]

theorem ownValue_extends {g g' : QueryGraph} (hext : g.Extends g') (h : g.Coherent)
    (assigned : Option V) {i : ℤ} (hi : g.Valid i) :
    J.ownValue g' assigned (g.operation i) = J.ownValue g assigned (g.operation i) := by
  unfold ownValue
  split
  · rename_i hop
    exact J.constantValue_extends hext h (operation_mem hi) hop
  all_goals rfl

theorem evaluate_extends [LinearOrder V] {g g' : QueryGraph} (hext : g.Extends g') (h : g.Coherent)
    (h' : g'.Coherent) (column : ℤ → Option V) {i : ℤ} (hi : g.Valid i) :
    J.evaluate g' column i = J.evaluate g column i := by
  have hnone : ∀ {g₁ : QueryGraph}, ¬g₁.Valid nodeNone := fun hv => absurd hv.1 (by decide)
  have hcongr : J.evaluate g' column i = Digraph.evalFuel g.children
      (fun i => opValue J.interpretation (J.ownValue g (column i) (g.operation i))
        (g.operation i)) none
      (g'.size + 1) i := by
    apply Digraph.evalFuel_congr (s := fun i => i = nodeNone ∨ g.Valid i) _ _ _ (.inr hi)
    · intro a _ c hc
      exact (h.child hc).2.imp_right And.left
    · rintro a (rfl | ha)
      · rw [OpGraph.children_of_not_valid h'.lengths hnone,
          OpGraph.children_of_not_valid h.lengths hnone]
      · exact hext.children_eq h ha
    · rintro a (rfl | ha)
      · rfl
      · simp only [hext.operation_eq ha, J.ownValue_extends hext h (column a) ha]
  rw [hcongr]
  apply Digraph.evalFuel_eq_of_rank h.isRank
  · exact Nat.lt_succ_of_le ((g.height_le i).trans hext.operations.length_le)
  · exact Nat.lt_succ_of_le (g.height_le i)

end SqlValues

end Query

end DistStorage
