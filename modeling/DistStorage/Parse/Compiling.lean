import DistStorage.Parse.Clauses
import DistStorage.Parse.SqlExpr

/-!
# Reasoning about compiled expressions

While an expression is visited the graph only grows. `Compiles need texts m
gives` is the specification of an action in such a visit: from a graph that
meets `need`, and goes on to meet it as it grows, a returned value comes with a
larger graph that meets `gives` from then on, an exception means that one of the
floating point numbers `texts` cannot be read, and nothing is undefined.

`IsNode e i g` is what holds of the node `i` of an expression `e`.
-/

namespace DistStorage

namespace Parse

open Cpp Query QueryGraph

/-- What stays true while the graph grows. -/
def Lasting (p : QueryGraph → Prop) (g : QueryGraph) : Prop :=
  ∀ g', g.Extends g' → g'.Coherent → p g'

/-- The floating point numbers that can be read. -/
def Reads (env : Environment) (texts : List Bytes) : Prop :=
  ∀ text ∈ texts, ∃ d, env.stod text = .ok d

theorem reads_append {env : Environment} {l r : List Bytes} :
    Reads env (l ++ r) ↔ Reads env l ∧ Reads env r :=
  List.forall_mem_append

/-- The node `i` is an operation over the nodes `args`. -/
structure IsOperation (op : ColumnOperation) (args : List ℤ) (i : ℤ) (g : QueryGraph) : Prop where
  valid : g.Valid i
  op_eq : (g.operation i).op = op
  children_eq : g.children i = args

/-- The node `i` is a leaf with a value of its own. -/
structure IsLeaf (v : ∀ V : Type, SqlValues V → Option V) (i : ℤ) (g : QueryGraph) : Prop where
  valid : g.Valid i
  children_eq : g.children i = []
  value_eq : ∀ (V : Type) [LinearOrder V] (J : SqlValues V) (column : ℤ → Option V),
    J.evaluate g column i = v V J

def ArithOp.operation : ArithOp → ColumnOperation
  | .add => .ADD
  | .sub => .SUB
  | .mul => .MUL
  | .div => .DIV

def Connective.operation : Connective → ColumnOperation
  | .and => .AND
  | .or => .OR
  | .xor => .XOR

def CmpOp.operation : CmpOp → ColumnOperation
  | .equal => .EQ
  | .doubleEqual => .EQ
  | .less => .LT
  | .greater => .GT
  | .lessEqual => .LTE
  | .greaterEqual => .GTE
  | .notEqual => .NEQ
  | .lessGreater => .NEQ

def LikeOp.operation (op : LikeOp) : ColumnOperation :=
  match op.notKw, op.kw with
  | false, .like => .LIKE
  | false, .ilike => .ILIKE
  | true, .like => .NOT_LIKE
  | true, .ilike => .NOT_ILIKE

theorem testValues_not {V : Type*} (p : V → V → Bool) (a b : Option V) :
    testValues (fun x y => !p x y) a b = Kleene.not (testValues p a b) := by
  cases a <;> cases b <;> rfl

theorem compareTest_pair {V : Type*} (p : V → V → Bool) (a b : Option V) :
    compareTest p [a, b] = testValues p a b := by
  cases a <;> cases b <;> rfl

theorem strictTest_pair {V : Type*} (p : List V → Bool) (a b : Option V) :
    strictTest p [a, b] = testValues (fun x y => p [x, y]) a b := by
  cases a <;> cases b <;> rfl

/-- A returned node and what holds of it. -/
def Given (q : ℤ → QueryGraph → Prop) (a : Any) (g : QueryGraph) : Prop :=
  ∃ i, a = some i ∧ q i g

/-- A visit of an expression that began with the graph `g₀` and the variables
`names`. -/
structure Expanding (g₀ : QueryGraph) (names : Context) (s : VisitorState) : Prop where
  start_coherent : g₀.Coherent
  names_valid : ∀ i ∈ names.values, g₀.Valid i
  coherent : s.outGraph.Coherent
  grows : g₀.Extends s.outGraph
  names_eq : s.exprVarContext = names

theorem push_last {g : QueryGraph} (h : g.graphMapping.length = g.operations.length)
    (o : Operation) (args : List ℤ) :
    (g.push o args).2.operation (g.push o args).1 = o ∧
      (g.push o args).2.children (g.push o args).1 = args := by
  have hnode : [(o, args)][0]? = some (o, args) := rfl
  have hoperation := OpGraph.operation_append_fresh g.toOpGraph hnode
  have hchildren := OpGraph.children_append_fresh h hnode
  rw [Nat.cast_zero, add_zero] at hoperation hchildren
  exact ⟨hoperation, hchildren⟩

section Rules

variable (env : Environment) (g₀ : QueryGraph) (names : Context)

/-- The specification of an action in the visit of an expression. -/
def Compiles {α : Type} (need : QueryGraph → Prop) (texts : List Bytes) (m : Visit α)
    (gives : α → QueryGraph → Prop) : Prop :=
  ∀ s, Expanding g₀ names s → Lasting need s.outGraph →
    match m s with
    | .returned a t =>
        Expanding g₀ names t ∧ s.outGraph.Extends t.outGraph ∧ Lasting (gives a) t.outGraph
    | .thrown _ _ => ¬Reads env texts
    | .undefined => False

/-- What holds of the nodes of the comparisons of a chain. -/
structure IsChain (leftId : ℤ) (ops : List CmpOp) (es : List SqlExpr) (is : List ℤ)
    (g : QueryGraph) : Prop where
  valid : ∀ c ∈ is, g.Valid c
  length_eq : is.length = ops.length
  inPlace_iff : ∀ j, chainInPlace g.toOpGraph es j is ↔ j = leftId ∧ anyTestsNull es = false
  value_eq : anyTestsNull es = false → ∀ (V : Type) [LinearOrder V] (J : SqlValues V)
    (column : ℤ → Option V), is.map (J.evaluate g column) =
      (compareValues (J.evaluate g column leftId) ops
        (valuesOf env J (J.evaluate g₀ column) es)).map J.interpretation.ofTruth

/-- What holds of the node of an expression. -/
structure IsNode (e : SqlExpr) (i : ℤ) (g : QueryGraph) : Prop where
  valid : g.Valid i
  inPlace_iff : e.InPlace g.toOpGraph i ↔ e.testsNull = false
  value_eq : e.testsNull = false → ∀ (V : Type) [LinearOrder V] (J : SqlValues V)
    (column : ℤ → Option V), J.evaluate g column i = e.value env J (J.evaluate g₀ column)

variable {env g₀ names} {α β : Type} {need need' : QueryGraph → Prop} {texts texts' : List Bytes}
  {m : Visit α} {f : α → Visit β} {q q' : α → QueryGraph → Prop} {r : β → QueryGraph → Prop}

theorem Lasting.grow {p : QueryGraph → Prop} {g g' : QueryGraph} (h : Lasting p g)
    (hext : g.Extends g') : Lasting p g' :=
  fun g'' hext' hcoherent => h g'' (hext.trans hext') hcoherent

namespace Compiles

protected theorem pure {a : α} (h : ∀ g, g.Coherent → need g → q a g) :
    Compiles env g₀ names need [] (pure a) q := by
  intro s hs hneed
  exact ⟨hs, .refl _, fun g hext hcoherent => h g hcoherent (hneed g hext hcoherent)⟩

protected theorem bind (hm : Compiles env g₀ names need texts m q)
    (hf : ∀ a, Compiles env g₀ names (fun g => need g ∧ q a g) texts' (f a) r) :
    Compiles env g₀ names need (texts ++ texts') (m >>= f) r := by
  intro s hs hneed
  have h := hm s hs hneed
  cases hms : m s with
  | returned a t =>
      rw [hms] at h
      obtain ⟨ht, hext, hq⟩ := h
      have h' := hf a t ht fun g hg hcoherent =>
        ⟨hneed.grow hext g hg hcoherent, hq g hg hcoherent⟩
      rw [Action.bind_of_returned hms]
      cases hft : f a t with
      | returned b u =>
          rw [hft] at h'
          exact ⟨h'.1, hext.trans h'.2.1, h'.2.2⟩
      | thrown e u =>
          rw [hft] at h'
          exact fun hreads => h' (reads_append.mp hreads).2
      | undefined =>
          rw [hft] at h'
          exact h'
  | thrown e t =>
      rw [hms] at h
      rw [Action.bind_of_thrown hms]
      exact fun hreads => h (reads_append.mp hreads).1
  | undefined =>
      rw [hms] at h
      exact h.elim

/-- A first step that visits no literal. -/
theorem step (hm : Compiles env g₀ names need [] m q)
    (hf : ∀ a, Compiles env g₀ names (fun g => need g ∧ q a g) texts (f a) r) :
    Compiles env g₀ names need texts (m >>= f) r :=
  hm.bind hf

/-- A weaker statement, which may use what was needed. -/
theorem conseq (h : Compiles env g₀ names need' texts m q)
    (hneed : ∀ g, g.Coherent → need g → need' g)
    (hq : ∀ a g, g.Coherent → need g → q a g → q' a g) :
    Compiles env g₀ names need texts m q' := by
  intro s hs hlasting
  have hm := h s hs fun g hext hcoherent => hneed g hcoherent (hlasting g hext hcoherent)
  cases hms : m s with
  | returned a t =>
      rw [hms] at hm
      obtain ⟨ht, hext, hgives⟩ := hm
      refine ⟨ht, hext, fun g hg hcoherent => ?_⟩
      exact hq a g hcoherent (hlasting.grow hext g hg hcoherent) (hgives g hg hcoherent)
  | thrown e t =>
      rw [hms] at hm
      exact hm
  | undefined =>
      rw [hms] at hm
      exact hm

theorem of_true (h : Compiles env g₀ names (fun _ => True) texts m q) :
    Compiles env g₀ names need texts m q :=
  h.conseq (fun _ _ _ => trivial) fun _ _ _ _ hq => hq

theorem build {f : QueryGraph → ℤ × QueryGraph} {q : ℤ → QueryGraph → Prop}
    (h : ∀ g : QueryGraph, g.Coherent → Lasting need g →
      (f g).2.Coherent ∧ g.Extends (f g).2 ∧ Lasting (q (f g).1) (f g).2) :
    Compiles env g₀ names need [] (build f) q := by
  intro s hs hneed
  obtain ⟨hcoherent, hext, hq⟩ := h s.outGraph hs.coherent hneed
  exact ⟨⟨hs.start_coherent, hs.names_valid, hcoherent, hs.grows.trans hext, hs.names_eq⟩,
    hext, hq⟩

theorem appendNode {op : ColumnOperation} (hop : op ≠ .CONST) (df : ℤ) (type : ValueType)
    {args : List ℤ} (hargs : ∀ g, g.Coherent → need g → ∀ c ∈ args, g.Valid c) :
    Compiles env g₀ names need [] (Parse.build fun g => g.appendNode df op type args)
      (IsOperation op args) := by
  refine build fun g hg hneed => ?_
  have hvalid := hargs g hg (hneed g (.refl g) hg)
  have hadds := appendNode_adds hg df hop type fun c hc => .inr (hvalid c hc)
  obtain ⟨hoperation, hchildren⟩ := push_last hg.lengths
    { op := op, df := df, type := type, sequence := .SINGLE } args
  refine ⟨hadds.coherent, (Extends.refl g).push _ _, fun g' hext _ => ?_⟩
  refine ⟨hext.valid hadds.valid, ?_, ?_⟩
  · rw [hext.operation_eq hadds.valid]
    exact congrArg Operation.op hoperation
  · rw [hext.children_eq hadds.coherent hadds.valid]
    exact hchildren

/-- A leaf after tables have grown. -/
theorem leaf {φ : QueryGraph → ℤ × QueryGraph} (grown : QueryGraph → QueryGraph)
    {o : QueryGraph → Operation} {v : ∀ V : Type, SqlValues V → Option V}
    (hφ : ∀ g : QueryGraph, φ g = (grown g).push (o g) [])
    (hgrown : ∀ g : QueryGraph, g.Extends (grown g) ∧ (grown g).toOpGraph = g.toOpGraph)
    (hadds : ∀ g : QueryGraph, g.Coherent → g.Adds False (φ g))
    (hvalue : ∀ (g : QueryGraph) (V : Type) [LinearOrder V] (J : SqlValues V)
      (assigned : Option V),
      opValue J.interpretation (J.ownValue (grown g) assigned (o g)) (o g) [] = v V J) :
    Compiles env g₀ names need [] (Parse.build φ) (IsLeaf v) := by
  refine build fun g hg _ => ?_
  have hadd := hadds g hg
  obtain ⟨hext₁, hgraph⟩ := hgrown g
  rw [hφ g] at hadd ⊢
  obtain ⟨hoperation, hchildren⟩ := push_last (g := grown g) (by rw [hgraph]; exact hg.lengths)
    (o g) []
  refine ⟨hadd.coherent, hext₁.push _ _, fun g' hext hcoherent => ⟨hext.valid hadd.valid, ?_, ?_⟩⟩
  · rw [hext.children_eq hadd.coherent hadd.valid]
    exact hchildren
  · intro V _ J column
    rw [J.evaluate_extends hext hadd.coherent hcoherent column hadd.valid,
      J.evaluate_eq hadd.coherent, hoperation, hchildren, List.map_nil]
    exact hvalue g V J (column _)

/-- More literals than those that are read. -/
theorem more_texts (h : Compiles env g₀ names need texts m q) (hsub : texts ⊆ texts') :
    Compiles env g₀ names need texts' m q := by
  intro s hs hneed
  have hm := h s hs hneed
  cases hms : m s with
  | returned a t =>
      rw [hms] at hm
      exact hm
  | thrown e t =>
      rw [hms] at hm
      exact fun hreads => hm fun text htext => hreads text (hsub htext)
  | undefined =>
      rw [hms] at hm
      exact hm

protected theorem throw (e : Exception) (h : ¬Reads env texts) :
    Compiles env g₀ names need texts (Action.throw e) q :=
  fun _ _ _ => h

/-- A last step that visits no literal. -/
theorem finish (hm : Compiles env g₀ names need texts m q)
    (hf : ∀ a, Compiles env g₀ names (fun g => need g ∧ q a g) [] (f a) r) :
    Compiles env g₀ names need texts (m >>= f) r := by
  have h := hm.bind hf
  rwa [List.append_nil] at h

theorem toAny {m : Visit ℤ} {q : ℤ → QueryGraph → Prop}
    (h : Compiles env g₀ names need texts m q) :
    Compiles env g₀ names need texts (toAny m) (Given q) :=
  h.finish fun i => Compiles.pure fun _ _ hg => ⟨i, rfl, hg.2⟩

theorem castNode {m : Visit Any} {q : ℤ → QueryGraph → Prop}
    (h : Compiles env g₀ names need texts m (Given q)) :
    Compiles env g₀ names need texts (castNode m) q := by
  intro s hs hneed
  have hm := h s hs hneed
  unfold Parse.castNode
  cases hms : m s with
  | returned a t =>
      rw [hms] at hm
      obtain ⟨ht, hext, hgives⟩ := hm
      obtain ⟨i, rfl, -⟩ := hgives t.outGraph (.refl _) ht.coherent
      rw [Action.bind_of_returned hms]
      refine ⟨ht, hext, fun g hg hcoherent => ?_⟩
      obtain ⟨j, hj, hq⟩ := hgives g hg hcoherent
      obtain rfl := Option.some.inj hj
      exact hq
  | thrown e t =>
      rw [hms] at hm
      rw [Action.bind_of_thrown hms]
      exact hm
  | undefined =>
      rw [hms] at hm
      exact hm.elim

/-- A sequence of two visits whose literals are those of both. -/
theorem seq (hm : Compiles env g₀ names (fun _ => True) texts m q)
    (hf : ∀ a, Compiles env g₀ names (fun g => need g ∧ q a g) texts' (f a) r) :
    Compiles env g₀ names need (texts ++ texts') (m >>= f) r :=
  hm.of_true.bind hf

theorem last (hm : Compiles env g₀ names (fun _ => True) texts m q)
    (hf : ∀ a, Compiles env g₀ names (fun g => need g ∧ q a g) [] (f a) r) :
    Compiles env g₀ names need texts (m >>= f) r :=
  hm.of_true.finish hf

end Compiles

theorem isNode_of_isLeaf {e : SqlExpr} {v : ∀ V : Type, SqlValues V → Option V} {i : ℤ}
    {g : QueryGraph} (h : IsLeaf v i g)
    (hplace : e.InPlace g.toOpGraph i ↔ g.children i = []) (htests : e.testsNull = false)
    (hvalue : ∀ (V : Type) [LinearOrder V] (J : SqlValues V) (column : ℤ → Option V),
      e.value env J column = v V J) : IsNode env g₀ e i g where
  valid := h.valid
  inPlace_iff := by simp [hplace, h.children_eq, htests]
  value_eq := by
    intro _ V _ J column
    rw [h.value_eq, hvalue]

theorem evaluate_operation {op : ColumnOperation} {args : List ℤ} {i : ℤ} {g : QueryGraph}
    (hg : g.Coherent) (h : IsOperation op args i g) {V : Type} [LinearOrder V] (J : SqlValues V)
    (column : ℤ → Option V) :
    J.evaluate g column i =
      opValue J.interpretation (J.ownValue g (column i) (g.operation i)) (g.operation i)
        (args.map (J.evaluate g column)) := by
  rw [J.evaluate_eq hg, h.children_eq]

theorem isNode_arith {op : ArithOp} {left right : SqlExpr} {i j k : ℤ} {g : QueryGraph}
    (hg : g.Coherent) (h : IsOperation op.operation [j, k] i g) (hj : IsNode env g₀ left j g)
    (hk : IsNode env g₀ right k g) : IsNode env g₀ (.arith op left right) i g where
  valid := h.valid
  inPlace_iff := by
    simp [SqlExpr.InPlace, SqlExpr.testsNull, h.children_eq, hj.inPlace_iff, hk.inPlace_iff]
  value_eq := by
    intro htests V _ J column
    rw [SqlExpr.testsNull, Bool.or_eq_false_iff] at htests
    rw [evaluate_operation hg h, SqlExpr.value, ← hj.value_eq htests.1 V J column,
      ← hk.value_eq htests.2 V J column]
    cases op <;> simp [opValue, h.op_eq, ArithOp.operation, ArithOp.apply, SqlValues.interpretation]

theorem isNode_not {operand : SqlExpr} {i j : ℤ} {g : QueryGraph} (hg : g.Coherent)
    (h : IsOperation .NOT [j] i g) (hj : IsNode env g₀ operand j g) :
    IsNode env g₀ (.not operand) i g where
  valid := h.valid
  inPlace_iff := by
    simp [SqlExpr.InPlace, SqlExpr.testsNull, h.children_eq, hj.inPlace_iff]
  value_eq := by
    intro htests V _ J column
    rw [SqlExpr.testsNull] at htests
    rw [evaluate_operation hg h, SqlExpr.value, ← hj.value_eq htests V J column]
    simp [opValue, h.op_eq]

theorem isNode_like {op : LikeOp} {left right : SqlExpr} {i j k : ℤ} {g : QueryGraph}
    (hg : g.Coherent) (h : IsOperation op.operation [j, k] i g) (hj : IsNode env g₀ left j g)
    (hk : IsNode env g₀ right k g) : IsNode env g₀ (.like op left right) i g where
  valid := h.valid
  inPlace_iff := by
    simp [SqlExpr.InPlace, SqlExpr.testsNull, h.children_eq, hj.inPlace_iff, hk.inPlace_iff]
  value_eq := by
    intro htests V _ J column
    rw [SqlExpr.testsNull, Bool.or_eq_false_iff] at htests
    rw [evaluate_operation hg h, SqlExpr.value, ← hj.value_eq htests.1 V J column,
      ← hk.value_eq htests.2 V J column]
    obtain ⟨notKw, kw⟩ := op
    cases notKw <;> cases kw <;>
      simp [opValue, h.op_eq, LikeOp.operation, LikeOp.test, negateIf, strictTest_pair,
        testValues_not, SqlValues.interpretation]

theorem valid_of_isNodes {es : List SqlExpr} {is : List ℤ} {g : QueryGraph}
    (h : List.Forall₂ (fun e i => IsNode env g₀ e i g) es is) : ∀ i ∈ is, g.Valid i := by
  induction h with
  | nil => simp
  | cons hi _ ih => exact List.forall_mem_cons.mpr ⟨hi.valid, ih⟩

theorem allInPlace_iff {es : List SqlExpr} {is : List ℤ} {g : QueryGraph}
    (h : List.Forall₂ (fun e i => IsNode env g₀ e i g) es is) :
    allInPlace g.toOpGraph es is ↔ anyTestsNull es = false := by
  induction h with
  | nil => simp [allInPlace, anyTestsNull]
  | cons hi _ ih => simp [allInPlace, anyTestsNull, hi.inPlace_iff, ih]

theorem valuesOf_eq {es : List SqlExpr} {is : List ℤ} {g : QueryGraph}
    (h : List.Forall₂ (fun e i => IsNode env g₀ e i g) es is) (htests : anyTestsNull es = false)
    {V : Type} [LinearOrder V] (J : SqlValues V) (column : ℤ → Option V) :
    is.map (J.evaluate g column) = valuesOf env J (J.evaluate g₀ column) es := by
  induction h with
  | nil => rfl
  | cons hi _ ih =>
      rw [anyTestsNull, Bool.or_eq_false_iff] at htests
      rw [List.map_cons, valuesOf, hi.value_eq htests.1 V J column, ih htests.2]

theorem isNode_connective {c : Connective} {es : List SqlExpr} {is : List ℤ} {i : ℤ}
    {g : QueryGraph} (hg : g.Coherent) (h : IsOperation c.operation is i g)
    (his : List.Forall₂ (fun e i => IsNode env g₀ e i g) es is) :
    IsNode env g₀ (.connective c es) i g where
  valid := h.valid
  inPlace_iff := by
    rw [SqlExpr.InPlace, SqlExpr.testsNull, h.children_eq]
    exact allInPlace_iff his
  value_eq := by
    intro htests V _ J column
    rw [SqlExpr.testsNull] at htests
    rw [evaluate_operation hg h, SqlExpr.value, ← valuesOf_eq his htests J column]
    cases c <;> simp [opValue, h.op_eq, Connective.operation, Connective.apply]

theorem isNode_between {notOp : Bool} {middle lower upper : SqlExpr} {i c d j k l : ℤ}
    {g : QueryGraph} (hg : g.Coherent)
    (h : IsOperation (if notOp then .NAND else .AND) [c, d] i g)
    (hc : IsOperation .LTE [j, k] c g) (hd : IsOperation .LTE [k, l] d g)
    (hj : IsNode env g₀ lower j g) (hk : IsNode env g₀ middle k g)
    (hl : IsNode env g₀ upper l g) : IsNode env g₀ (.between notOp middle lower upper) i g where
  valid := h.valid
  inPlace_iff := by
    rw [SqlExpr.InPlace, SqlExpr.testsNull, h.children_eq, Bool.or_eq_false_iff,
      Bool.or_eq_false_iff, ← hj.inPlace_iff, ← hk.inPlace_iff, ← hl.inPlace_iff]
    constructor
    · rintro ⟨c', d', j', k', l', hcd, hjk, hkl, hlower, hmiddle, hupper⟩
      obtain ⟨rfl, rfl, -⟩ : c = c' ∧ d = d' ∧ True := by simpa using hcd
      rw [hc.children_eq] at hjk
      rw [hd.children_eq] at hkl
      obtain ⟨rfl, rfl, -⟩ : j = j' ∧ k = k' ∧ True := by simpa using hjk
      obtain ⟨-, rfl, -⟩ : k = k ∧ l = l' ∧ True := by simpa using hkl
      exact ⟨⟨hmiddle, hlower⟩, hupper⟩
    · rintro ⟨⟨hmiddle, hlower⟩, hupper⟩
      exact ⟨c, d, j, k, l, rfl, hc.children_eq, hd.children_eq, hlower, hmiddle, hupper⟩
  value_eq := by
    intro htests V _ J column
    rw [SqlExpr.testsNull, Bool.or_eq_false_iff, Bool.or_eq_false_iff] at htests
    have hcmp : ∀ {x a b : ℤ}, IsOperation .LTE [a, b] x g →
        J.interpretation.truthOf (J.evaluate g column x) =
          testValues (fun x y => decide (x ≤ y)) (J.evaluate g column a)
            (J.evaluate g column b) := by
      intro x a b hx
      rw [evaluate_operation hg hx]
      simp [opValue, hx.op_eq, compareTest_pair]
    rw [evaluate_operation hg h, SqlExpr.value, ← hj.value_eq htests.1.2 V J column,
      ← hk.value_eq htests.1.1 V J column, ← hl.value_eq htests.2 V J column, ← hcmp hc, ← hcmp hd]
    cases notOp <;>
      simp only [opValue, h.op_eq, List.map_cons, List.map_nil, Kleene.all_pair, negateIf, if_true,
        Bool.false_eq_true, if_false]

theorem evaluate_comparison {op : CmpOp} {i j k : ℤ} {g : QueryGraph} (hg : g.Coherent)
    (h : IsOperation op.operation [j, k] i g) {V : Type} [LinearOrder V] (J : SqlValues V)
    (column : ℤ → Option V) :
    J.evaluate g column i = J.interpretation.ofTruth
      (testValues op.test (J.evaluate g column j) (J.evaluate g column k)) := by
  rw [evaluate_operation hg h]
  have hnot : testValues (fun a b : V => decide (a ≠ b)) (J.evaluate g column j)
      (J.evaluate g column k) = testValues (fun a b => !decide (a = b)) (J.evaluate g column j)
        (J.evaluate g column k) := by
    simp only [ne_eq, decide_not]
  cases op <;> simp only [opValue, h.op_eq, CmpOp.operation, List.map_cons,
    List.map_nil, compareTest_pair, hnot] <;> rfl

theorem isChain_last {op : CmpOp} {e : SqlExpr} {leftId c right : ℤ} {g : QueryGraph}
    (hg : g.Coherent) (hc : IsOperation op.operation [leftId, right] c g)
    (hright : IsNode env g₀ e right g) : IsChain env g₀ leftId [op] [e] [c] g where
  valid := by simpa using hc.valid
  length_eq := rfl
  inPlace_iff := by
    intro j
    simp only [chainInPlace, anyTestsNull, Bool.or_false, ← hright.inPlace_iff]
    constructor
    · rintro ⟨c', js, right', hcs, hchildren, hplace, -⟩
      obtain ⟨rfl, -⟩ := List.cons.inj hcs
      rw [hc.children_eq] at hchildren
      obtain ⟨rfl, rfl, -⟩ : leftId = j ∧ right = right' ∧ True := by simpa using hchildren
      exact ⟨rfl, hplace⟩
    · rintro ⟨rfl, hplace⟩
      exact ⟨c, [], right, rfl, hc.children_eq, hplace, rfl⟩
  value_eq := by
    intro htests V _ J column
    rw [anyTestsNull, Bool.or_eq_false_iff] at htests
    simp only [List.map_cons, List.map_nil, valuesOf, compareValues,
      evaluate_comparison hg hc, hright.value_eq htests.1 V J column]

theorem isChain_cons {op : CmpOp} {ops : List CmpOp} {e : SqlExpr} {es : List SqlExpr}
    {leftId c right : ℤ} {cs : List ℤ} {g : QueryGraph} (hg : g.Coherent)
    (hc : IsOperation op.operation [leftId, right] c g) (hright : IsNode env g₀ e right g)
    (hcs : IsChain env g₀ right ops es cs g) :
    IsChain env g₀ leftId (op :: ops) (e :: es) (c :: cs) g where
  valid := by
    intro c' hc'
    rcases List.mem_cons.mp hc' with rfl | hc'
    · exact hc.valid
    · exact hcs.valid c' hc'
  length_eq := congrArg Nat.succ hcs.length_eq
  inPlace_iff := by
    intro j
    simp only [chainInPlace, anyTestsNull, Bool.or_eq_false_iff, ← hright.inPlace_iff]
    constructor
    · rintro ⟨c', js, right', hcons, hchildren, hplace, hrest⟩
      obtain ⟨rfl, rfl⟩ := List.cons.inj hcons
      rw [hc.children_eq] at hchildren
      obtain ⟨rfl, rfl, -⟩ : leftId = j ∧ right = right' ∧ True := by simpa using hchildren
      exact ⟨rfl, hplace, ((hcs.inPlace_iff right).mp hrest).2⟩
    · rintro ⟨rfl, hplace, hrest⟩
      exact ⟨c, cs, right, rfl, hc.children_eq, hplace, (hcs.inPlace_iff right).mpr ⟨rfl, hrest⟩⟩
  value_eq := by
    intro htests V _ J column
    rw [anyTestsNull, Bool.or_eq_false_iff] at htests
    simp only [List.map_cons, valuesOf, compareValues, evaluate_comparison hg hc,
      hcs.value_eq htests.2 V J column, hright.value_eq htests.1 V J column]

/-- The node over a list of nodes, which is left out around a single one. -/
def IsUnlessSingle (op : ColumnOperation) (is : List ℤ) (i : ℤ) (g : QueryGraph) : Prop :=
  is = [i] ∨ is.length ≠ 1 ∧ IsOperation op is i g

theorem isNode_compare {left : SqlExpr} {ops : List CmpOp} {es : List SqlExpr} {leftId i : ℤ}
    {is : List ℤ} {g : QueryGraph} (hg : g.Coherent) (hleft : IsNode env g₀ left leftId g)
    (hchain : IsChain env g₀ leftId ops es is g) (h : IsUnlessSingle .AND is i g) :
    IsNode env g₀ (.compare left ops es) i g := by
  have hchildren : (if ops.length = 1 then [i] else g.children i) = is := by
    rw [← hchain.length_eq]
    rcases h with rfl | ⟨hne, hand⟩
    · rfl
    · rw [if_neg hne, hand.children_eq]
  constructor
  · rcases h with rfl | ⟨-, hand⟩
    · exact hchain.valid i (List.mem_singleton_self i)
    · exact hand.valid
  · rw [SqlExpr.InPlace, SqlExpr.testsNull, hchildren, Bool.or_eq_false_iff, ← hleft.inPlace_iff]
    constructor
    · rintro ⟨j, hj, hrest⟩
      obtain ⟨rfl, hes⟩ := (hchain.inPlace_iff j).mp hrest
      exact ⟨hj, hes⟩
    · rintro ⟨hj, hes⟩
      exact ⟨leftId, hj, (hchain.inPlace_iff leftId).mpr ⟨rfl, hes⟩⟩
  · intro htests V _ J column
    rw [SqlExpr.testsNull, Bool.or_eq_false_iff] at htests
    have hvalues := hchain.value_eq htests.2 V J column
    rw [SqlExpr.value, ← hleft.value_eq htests.1 V J column]
    rcases h with rfl | ⟨-, hand⟩
    · obtain ⟨t, ht, hi⟩ := List.map_eq_singleton_iff.mp hvalues.symm
      rw [ht, Kleene.all_singleton, hi]
    · rw [evaluate_operation hg hand, hvalues]
      simp [opValue, hand.op_eq, List.map_map, Function.comp_def]

theorem isNode_connectiveOf {c : Connective} {es : List SqlExpr} {is : List ℤ} {i : ℤ}
    {g : QueryGraph} (hg : g.Coherent)
    (his : List.Forall₂ (fun e i => IsNode env g₀ e i g) es is)
    (h : IsUnlessSingle c.operation is i g) : IsNode env g₀ (.connectiveOf c es) i g := by
  rcases h with rfl | ⟨hne, hop⟩
  · obtain ⟨e, es, hi, hes, rfl⟩ := List.forall₂_cons_right_iff.mp his
    obtain rfl := List.forall₂_nil_right_iff.mp hes
    exact hi
  · have hconnective : SqlExpr.connectiveOf c es = .connective c es := by
      rw [← his.length_eq] at hne
      match es, hne with
      | [], _ => rfl
      | _ :: _ :: _, _ => rfl
    rw [hconnective]
    exact isNode_connective hg hop his

end Rules

end Parse

end DistStorage
