import DistStorage.Numeration.HornerFold
import DistStorage.Query.NodeHashes

/-!
# What changes the hash of a node

The factors of the hash of the parameters are odd, so every parameter changes it.
The hash of the children of an operation with an order is a sum with odd weights,
and a child that is repeated an even number of times has an even weight there. The
hash of the children of a commutative operation is that of their number: no order
changes it, and no child does.
-/

namespace DistStorage

namespace Query

open Cpp Numeration UInt64.CommRing

/-- The number is one of an `int`. -/
def IsInt (x : ℤ) : Prop := -2 ^ 31 ≤ x ∧ x < 2 ^ 31

instance (x : ℤ) : Decidable (IsInt x) := inferInstanceAs (Decidable (_ ∧ _))

structure Operation.Ints (o : Operation) : Prop where
  name : IsInt o.name
  constId : IsInt o.constId
  df : IsInt o.df

/-- Exactly one parameter is another one. Another operation is commutative when the
first one is. -/
inductive ChangesOne (o : Operation) : Operation → Prop
  | op (op : ColumnOperation) (hne : op ≠ o.op)
      (halike : isCummutative op = isCummutative o.op) : ChangesOne o { o with op := op }
  | name (name : ℤ) (hne : name ≠ o.name) (h : IsInt name) : ChangesOne o { o with name := name }
  | constId (constId : ℤ) (hne : constId ≠ o.constId) (h : IsInt constId) :
      ChangesOne o { o with constId := constId }
  | df (df : ℤ) (hne : df ≠ o.df) (h : IsInt df) : ChangesOne o { o with df := df }
  | type (type : ValueType) (hne : type ≠ o.type) : ChangesOne o { o with type := type }
  | sequence (sequence : SequenceType) (hne : sequence ≠ o.sequence) :
      ChangesOne o { o with sequence := sequence }

namespace OpGraph

/-- The hash that `fillNodeHashes` computes for a node from given hashes. -/
def computedHash (g : OpGraph) (nodeHashes : List NodeHash) (i : ℤ) : Option NodeHash :=
  (fillNodeHashes g.graphMapping g.operations [i] nodeHashes).bind fun filled => index filled i

/-- The order of the children of a commutative operation does not matter. -/
def PermutationKeepsHash (g : OpGraph) (i : ℤ) : Prop :=
  isCummutative (g.operation i).op = true → ∀ nodeHashes, nodeHashes.length = g.size →
    ∀ children, children.Perm (g.children i) →
      (g.modifyChildren i fun _ => children).computedHash nodeHashes i =
        g.computedHash nodeHashes i

def ChildChangesHash (g : OpGraph) (i : ℤ) : Prop :=
  ∀ nodeHashes, nodeHashes.length = g.size → ∀ c ∈ g.children i, ∀ h,
    index nodeHashes c ≠ some h →
      g.computedHash (modify nodeHashes c fun _ => h) i ≠ g.computedHash nodeHashes i

def ParameterChangesHash (g : OpGraph) (i : ℤ) : Prop :=
  ∀ nodeHashes, nodeHashes.length = g.size → ∀ o, ChangesOne (g.operation i) o →
    (g.modifyOperation i fun _ => o).computedHash nodeHashes i ≠ g.computedHash nodeHashes i

end OpGraph

section Parameters

theorem isNilpotent_two : IsNilpotent (2 : NodeHash) := ⟨64, by decide +kernel⟩

theorem uint64_ofInt_inj {x y : ℤ} (hx : IsInt x) (hy : IsInt y) :
    UInt64.ofInt x = UInt64.ofInt y ↔ x = y := by
  refine ⟨fun h => ?_, fun h => by rw [h]⟩
  unfold IsInt at hx hy
  have htoNat := congrArg UInt64.toNat h
  unfold UInt64.ofInt at htoNat
  rw [UInt64.toNat_ofNat', UInt64.toNat_ofNat'] at htoNat
  omega

theorem isInt_number (op : ColumnOperation) : IsInt op.number := by
  have hle : op.number ≤ 500 := by cases op <;> decide
  unfold IsInt
  omega

def ColumnOperation.ofNumber (n : ℕ) : Option ColumnOperation :=
  [.CONST, .ADD, .SUB, .MUL, .DIV, .NEG, .INV, .ABS, .SQRT, .EXP, .POW, .LN, .LOG, .NOT, .AND, .OR,
    .XOR, .NAND, .NOR, .XNOR, .EQ, .NEQ, .GT, .LT, .GTE, .LTE, .IN, .NOT_IN, .LIKE, .NOT_LIKE,
    .ILIKE, .NOT_ILIKE, .IS_NULL, .IS_NOT_NULL, .NULL_, .TRUE, .FALSE, .MIN, .MAX, .SUM, .COUNT,
    .COUNT_DISTINCT, .AVG, .MEDIAN, .STD, .VAR, .COLUMN, .DESC, .TABLE, .DF, .FILTER, .RANGE,
    .GROUP, .SORT, .UNION, .NOP, .INVALID].find? fun op => op.number = n

theorem ColumnOperation.number_injective : Function.Injective ColumnOperation.number := by
  have hinv : ∀ op : ColumnOperation, ofNumber op.number = some op := by
    intro op
    cases op <;> rfl
  intro op op' h
  exact Option.some.inj ((hinv op).symm.trans ((congrArg ofNumber h).trans (hinv op')))

theorem mul_add_inj {m : NodeHash} (hm : Odd m) {a b x : NodeHash} :
    a * m + x = b * m + x ↔ a = b := by
  rw [add_left_inj, mul_right_inj_of_odd isNilpotent_two hm]

theorem hashOperationParams_ne {o o' : Operation} (ho : o.Ints) (h : ChangesOne o o') :
    hashOperationParams o' ≠ hashOperationParams o := by
  have h5 : Odd (5 : NodeHash) := ⟨2, by decide⟩
  have h8763 : Odd (8763 : NodeHash) := ⟨4381, by decide⟩
  have h6357 : Odd (6357 : NodeHash) := ⟨3178, by decide⟩
  have h4567 : Odd (4567 : NodeHash) := ⟨2283, by decide⟩
  have h5453 : Odd (5453 : NodeHash) := ⟨2726, by decide⟩
  intro heq
  cases h with
  | op op hne halike =>
      simp only [hashOperationParams, mul_add_inj h5, mul_add_inj h8763, mul_add_inj h6357,
        mul_add_inj h4567, mul_add_inj h5453, add_right_inj,
        uint64_ofInt_inj (isInt_number _) (isInt_number _)] at heq
      exact hne (ColumnOperation.number_injective (by exact_mod_cast heq))
  | name name hne hint =>
      simp only [hashOperationParams, mul_add_inj h5, mul_add_inj h8763, mul_add_inj h6357,
        mul_add_inj h4567, add_right_inj, uint64_ofInt_inj hint ho.name] at heq
      exact hne heq
  | constId constId hne hint =>
      simp only [hashOperationParams, mul_add_inj h5, mul_add_inj h8763, mul_add_inj h6357,
        add_right_inj, uint64_ofInt_inj hint ho.constId] at heq
      exact hne heq
  | df df hne hint =>
      simp only [hashOperationParams, mul_add_inj h5, mul_add_inj h8763,
        add_right_inj, uint64_ofInt_inj hint ho.df] at heq
      exact hne heq
  | type type hne =>
      simp only [hashOperationParams, mul_add_inj h5, add_right_inj] at heq
      have hnumber : ∀ t t' : ValueType,
          UInt64.ofInt t.number = UInt64.ofInt t'.number → t = t' := by
        intro t t'
        cases t <;> cases t' <;> decide
      exact hne (hnumber _ _ heq)
  | sequence sequence hne =>
      simp only [hashOperationParams, add_right_inj] at heq
      have hnumber : ∀ t t' : SequenceType,
          UInt64.ofInt (t.number * 3) = UInt64.ofInt (t'.number * 3) → t = t' := by
        intro t t'
        cases t <;> cases t' <;> decide
      exact hne (hnumber _ _ heq)

end Parameters

section Children

theorem combineChildHashes_positional {o : Operation} (ho : isCummutative o.op = false)
    {children : List ℤ} (hne : children ≠ []) (v : ℤ → NodeHash) :
    combineChildHashes o (children.map v) =
      hornerFold 4565 82937 v 583747 (hashedChildren children) := by
  rw [combineChildHashes, if_neg (by simpa using hne), ho, if_pos (by rfl), hashedChildren,
    List.length_map, ← List.map_take, List.foldl_map]
  rfl

/-- The hash of the children of a commutative operation depends on their number
only. -/
theorem combineChildHashes_set {o : Operation} (ho : isCummutative o.op = true)
    {hashes hashes' : List NodeHash} (h : hashes.length = hashes'.length) :
    combineChildHashes o hashes = combineChildHashes o hashes' := by
  have hfold : ∀ (l : List NodeHash) (start : NodeHash),
      l.foldl (fun hash _ => hash * (hash + 989673)) start =
        (fun hash : NodeHash => hash * (hash + 989673))^[l.length] start := by
    intro l
    induction l with
    | nil => exact fun _ => rfl
    | cons _ l ih => exact fun start => by rw [List.foldl_cons, ih, List.length_cons,
        Function.iterate_succ_apply]
  have hnil : hashes = [] ↔ hashes' = [] := by
    rw [← List.length_eq_zero_iff, ← List.length_eq_zero_iff, h]
  simp only [combineChildHashes, hnil, ho, Bool.not_true, Bool.false_eq_true, if_false, hfold,
    hashedChildren, List.length_take, h]

end Children

section Node

variable {g : OpGraph} (hlengths : g.graphMapping.length = g.operations.length)
  {i : ℤ} (hi : g.Valid i) (hchildren : ∀ c ∈ g.children i, g.Valid c)

def entry (nodeHashes : List NodeHash) (c : ℤ) : NodeHash := (index nodeHashes c).getD 0

theorem index_eq_entry {nodeHashes : List NodeHash} (hhashes : nodeHashes.length = g.size)
    {c : ℤ} (hc : g.Valid c) : index nodeHashes c = some (entry nodeHashes c) := by
  obtain ⟨h, hh⟩ := Option.isSome_iff_exists.mp
    ((index_isSome_iff nodeHashes c).mpr (by rw [hhashes]; exact hc))
  rw [entry, hh, Option.getD_some]

include hlengths hi hchildren

theorem computedHash_eq {nodeHashes : List NodeHash} (hhashes : nodeHashes.length = g.size) :
    g.computedHash nodeHashes i =
      some (combineHashes (g.operation i) ((g.children i).map (entry nodeHashes))) := by
  have hentries : List.Forall₂ (fun c h => index nodeHashes c = some h) (g.children i)
      ((g.children i).map (entry nodeHashes)) := by
    rw [List.forall₂_map_right_iff, List.forall₂_same]
    exact fun c hc => index_eq_entry hhashes (hchildren c hc)
  have hround := fillNodeHash_eq hlengths hhashes hi hentries
  rw [OpGraph.computedHash, fillNodeHashes, List.foldlM_cons, hround]
  change index (modify nodeHashes i _) i = _
  rw [index_modify, if_pos rfl, index_eq_entry hhashes hi, Option.map_some]

theorem permutationKeepsHash : g.PermutationKeepsHash i := by
  intro hop nodeHashes hhashes children hperm
  have hmodified : (g.modifyChildren i fun _ => children).children i = children := by
    obtain ⟨vec, hvec⟩ := Option.isSome_iff_exists.mp
      ((index_isSome_iff g.graphMapping i).mpr (by rw [hlengths]; exact hi))
    rw [OpGraph.children, OpGraph.modifyChildren, index_modify, if_pos rfl, hvec,
      Option.map_some, Option.getD_some]
  have hcomputed := computedHash_eq (g := g.modifyChildren i fun _ => children)
    (by rw [OpGraph.modifyChildren, length_modify]; exact hlengths) hi
    (fun c hc => hchildren c (hperm.mem_iff.mp (by rwa [hmodified] at hc))) hhashes
  have hset : combineChildHashes (g.operation i) (children.map (entry nodeHashes)) =
      combineChildHashes (g.operation i) ((g.children i).map (entry nodeHashes)) :=
    combineChildHashes_set hop (by rw [List.length_map, List.length_map, hperm.length_eq])
  rw [hcomputed, computedHash_eq hlengths hi hchildren hhashes, hmodified]
  change some (combineHashes (g.operation i) _) = _
  rw [combineHashes, combineHashes, hset]

theorem parameterChangesHash (ho : (g.operation i).Ints) : g.ParameterChangesHash i := by
  intro nodeHashes hhashes o hchange heq
  have hmodified : (g.modifyOperation i fun _ => o).operation i = o := by
    obtain ⟨old, hold⟩ := Option.isSome_iff_exists.mp
      ((index_isSome_iff g.operations i).mpr hi)
    rw [OpGraph.operation, OpGraph.modifyOperation, index_modify, if_pos rfl, hold,
      Option.map_some, Option.getD_some]
  have hsize : (g.modifyOperation i fun _ => o).size = g.size := length_modify _ _ _
  have hvalid : ∀ c, g.Valid c → (g.modifyOperation i fun _ => o).Valid c := by
    intro c hc
    rw [OpGraph.Valid, hsize]
    exact hc
  have hcomputed := computedHash_eq (g := g.modifyOperation i fun _ => o)
    (by rw [OpGraph.modifyOperation, length_modify]; exact hlengths) (hvalid i hi)
    (fun c hc => hvalid c (hchildren c hc)) (hhashes.trans hsize.symm)
  rw [hcomputed, computedHash_eq hlengths hi hchildren hhashes, hmodified, Option.some_inj,
    combineHashes, combineHashes] at heq
  have halike : isCummutative o.op = isCummutative (g.operation i).op := by
    cases hchange with
    | op op hne halike => exact halike
    | name => rfl
    | constId => rfl
    | df => rfl
    | type => rfl
    | sequence => rfl
  rw [combineChildHashes, combineChildHashes, halike] at heq
  exact hashOperationParams_ne ho hchange (add_right_cancel heq)

/-- A change of one entry changes the sum by the weight of the child. -/
theorem computedHash_modify {nodeHashes : List NodeHash} (hhashes : nodeHashes.length = g.size)
    (hop : isCummutative (g.operation i).op = false) {c : ℤ} (hc : c ∈ g.children i)
    (h : NodeHash) :
    g.computedHash (modify nodeHashes c fun _ => h) i = g.computedHash nodeHashes i ↔
      (h - entry nodeHashes c) * hornerWeight 4565 c (hashedChildren (g.children i)) = 0 := by
  have hne : g.children i ≠ [] := List.ne_nil_of_mem hc
  have hentry : entry (modify nodeHashes c fun _ => h) =
      Function.update (entry nodeHashes) c (entry nodeHashes c + (h - entry nodeHashes c)) := by
    funext d
    rw [entry, index_modify]
    by_cases hcd : c = d
    · subst hcd
      rw [if_pos rfl, index_eq_entry hhashes (hchildren c hc), Function.update_self]
      simp
    · rw [if_neg hcd, Function.update_of_ne (Ne.symm hcd)]
      rfl
  have hpositional := combineChildHashes_positional hop hne
  rw [computedHash_eq hlengths hi hchildren (by rwa [length_modify]),
    computedHash_eq hlengths hi hchildren hhashes, Option.some_inj, combineHashes, combineHashes,
    add_right_inj, hpositional, hpositional, hentry]
  exact hornerFold_update_eq_iff 4565 82937 _ c _ 583747 _

/-- Every child of an operation with an order changes the hash when it is repeated
an odd number of times, and not for every change otherwise. -/
theorem childChangesHash_iff (hne : g.children i ≠ []) :
    g.ChildChangesHash i ↔ isCummutative (g.operation i).op = false ∧
      ∀ c ∈ g.children i, Odd ((hashedChildren (g.children i)).count c) := by
  have h4565 : Odd (4565 : NodeHash) := ⟨2282, by decide⟩
  have hzeros : (List.replicate g.size (0 : NodeHash)).length = g.size := List.length_replicate
  have hzero : ∀ {c h}, c ∈ g.children i → h ≠ 0 →
      index (List.replicate g.size (0 : NodeHash)) c ≠ some h := by
    intro c h hc hh heq
    have hmem := mem_of_index heq
    exact hh (List.eq_of_mem_replicate hmem)
  constructor
  · intro hchanges
    have hop : isCummutative (g.operation i).op = false := by
      by_contra hnot
      rw [Bool.not_eq_false] at hnot
      obtain ⟨c, hc⟩ := List.exists_mem_of_ne_nil _ hne
      have hset : ∀ v w : ℤ → NodeHash, combineChildHashes (g.operation i) ((g.children i).map v) =
          combineChildHashes (g.operation i) ((g.children i).map w) := fun v w =>
        combineChildHashes_set hnot (by rw [List.length_map, List.length_map])
      refine hchanges _ hzeros c hc 1 (hzero hc (by decide)) ?_
      rw [computedHash_eq hlengths hi hchildren (by rwa [length_modify]),
        computedHash_eq hlengths hi hchildren hzeros, combineHashes, combineHashes, hset]
    refine ⟨hop, fun c hc => ?_⟩
    by_contra heven
    -- the hash that is half of the range is lost under an even weight
    obtain ⟨k, hk⟩ := (hornerWeight_parity h4565 c _).2 heven
    refine hchanges _ hzeros c hc (2 ^ 63) (hzero hc (by decide +kernel)) ?_
    rw [computedHash_modify hlengths hi hchildren hzeros hop hc]
    have hc0 : entry (List.replicate g.size (0 : NodeHash)) c = 0 := by
      have := mem_of_index (index_eq_entry hzeros (hchildren c hc))
      exact List.eq_of_mem_replicate this
    have hhalf : (2 : NodeHash) ^ 63 * 2 = 0 := by decide +kernel
    calc (2 ^ 63 - entry (List.replicate g.size 0) c) * _
        = 2 ^ 63 * 2 * k := by rw [hc0, hk]; ring
      _ = 0 := by rw [hhalf, zero_mul]
  · rintro ⟨hop, hodd⟩ nodeHashes hhashes c hc h hh heq
    rw [computedHash_modify hlengths hi hchildren hhashes hop hc] at heq
    have hunit := isUnit_of_odd isNilpotent_two ((hornerWeight_parity h4565 c _).1 (hodd c hc))
    rw [hunit.mul_left_eq_zero, sub_eq_zero] at heq
    exact hh (by rw [index_eq_entry hhashes (hchildren c hc), heq])

/-- The order of the children of a commutative operation keeps the hash of the node,
and every parameter changes it. Every child changes it exactly when the operation is
not commutative and no child is repeated an even number of times. -/
theorem nodeHash_changes_iff (hne : g.children i ≠ []) (ho : (g.operation i).Ints) :
    g.PermutationKeepsHash i ∧ g.ParameterChangesHash i ∧
      (g.ChildChangesHash i ↔ isCummutative (g.operation i).op = false ∧
        ∀ c ∈ g.children i, Odd ((hashedChildren (g.children i)).count c)) :=
  ⟨permutationKeepsHash hlengths hi hchildren, parameterChangesHash hlengths hi hchildren ho,
    childChangesHash_iff hlengths hi hchildren hne⟩

end Node

theorem nodeHash_changes_sample :
    differenceGraph.PermutationKeepsHash 3 ∧ differenceGraph.ParameterChangesHash 3 ∧
      differenceGraph.ChildChangesHash 3 := by
  obtain ⟨hkeeps, hparameter, hchild⟩ := @nodeHash_changes_iff differenceGraph rfl 3 (by decide)
    (by decide) (by decide) ⟨by decide, by decide, by decide⟩
  exact ⟨hkeeps, hparameter, hchild.mpr (by decide)⟩

def sumGraph : OpGraph where
  operations := [{ op := .COLUMN }, { op := .COLUMN }, { op := .ADD }]
  graphMapping := [[], [], [0, 1]]

/-- The sum has the same hash for whatever column comes first. -/
theorem sumGraph_not_childChangesHash :
    sumGraph.computedHash [1, 5, 0] 2 = sumGraph.computedHash [0, 5, 0] 2 ∧
      ¬sumGraph.ChildChangesHash 2 := by
  have hsame : sumGraph.computedHash [1, 5, 0] 2 = sumGraph.computedHash [0, 5, 0] 2 := by
    decide +kernel
  exact ⟨hsame, fun h => h [0, 5, 0] rfl 0 (by decide) 1 (by decide) hsame⟩

end Query

end DistStorage
