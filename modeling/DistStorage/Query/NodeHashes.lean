import DistStorage.Cpp.Integer
import DistStorage.Query.Value
import DistStorage.Query.Visited

/-!
# The hashes of nodes

`fillNodeHashes` goes over nodes in an order that puts children first, and stores
for each node a hash of its operation and of the hashes of its children. What it
stores is the hash of the expression that the node unfolds to, whatever the order
was and whatever was stored before. Hashes are numbers modulo `2 ^ 64`.
-/

namespace DistStorage

namespace Query

open Cpp

abbrev NodeHash := UInt64

def ValueType.number : ValueType → ℕ
  | .Bool => 0 | .Int8 => 1 | .UInt8 => 2 | .Int16 => 3 | .UInt16 => 4 | .Int32 => 5
  | .UInt32 => 6 | .Int64 => 7 | .UInt64 => 8 | .Float32 => 9 | .Float64 => 10
  | .String => 11 | .Bytes => 12 | .Any => 13 | .JSON => 14

def SequenceType.number : SequenceType → ℕ
  | .ANY => 0 | .SINGLE => 1 | .ARRAY => 2

/-- The hash of the first `nchildren` children, in their order. -/
def hashChildrenPositional (children : List ℤ) (nchildren : ℤ) (nodeHashes : List NodeHash) :
    Option NodeHash :=
  (children.take nchildren.toNat).foldlM
    (fun hash child => (index nodeHashes child).map fun h => (hash + h + 82937) * 4565) 583747

def hashChildrenSet (children : List ℤ) (nchildren : ℤ) : NodeHash :=
  (children.take nchildren.toNat).foldl (fun hash _ => hash * (hash + 989673)) 583747

def hashOperationParams (o : Operation) : NodeHash :=
  let hash : NodeHash := 45643
  let hash := hash * 5667 + UInt64.ofInt o.op.number
  let hash := hash * 5453 + UInt64.ofInt o.name
  let hash := hash * 4567 + UInt64.ofInt o.constId
  let hash := hash * 6357 + UInt64.ofInt o.df
  let hash := hash * 8763 + UInt64.ofInt o.type.number
  hash * 5 + UInt64.ofInt (o.sequence.number * 3)

def childHash (o : Operation) (vec : List ℤ) (nodeHashes : List NodeHash) : Option NodeHash :=
  if vec = [] then some 0
  else if !isCummutative o.op then
    hashChildrenPositional vec (intOfSize vec.length) nodeHashes
  else some (hashChildrenSet vec (intOfSize vec.length))

/-- One round of `fillNodeHashes`, undefined when a position is out of range. -/
def fillNodeHash (graphMapping : List (List ℤ)) (operations : List Operation)
    (nodeHashes : List NodeHash) (node : ℤ) : Option (List NodeHash) := do
  let vec ← index graphMapping node
  let o ← index operations node
  let childHash ← childHash o vec nodeHashes
  let _ ← index nodeHashes node
  pure (modify nodeHashes node fun _ => hashOperationParams o + childHash)

def fillNodeHashes (graphMapping : List (List ℤ)) (operations : List Operation)
    (nodesOrder : List ℤ) (nodeHashes : List NodeHash) : Option (List NodeHash) :=
  nodesOrder.foldlM (fillNodeHash graphMapping operations) nodeHashes

/-- The children that are hashed: their number is converted to an `int`. -/
def hashedChildren {α : Type} (children : List α) : List α :=
  children.take (intOfSize children.length).toNat

/-- The hash of the children of an operation from their hashes. -/
def combineChildHashes (o : Operation) (childHashes : List NodeHash) : NodeHash :=
  if childHashes = [] then 0
  else if !isCummutative o.op then
    (hashedChildren childHashes).foldl (fun hash h => (hash + h + 82937) * 4565) 583747
  else (hashedChildren childHashes).foldl (fun hash _ => hash * (hash + 989673)) 583747

/-- The hash of an operation over the hashes of its children. -/
def combineHashes (o : Operation) (childHashes : List NodeHash) : NodeHash :=
  hashOperationParams o + combineChildHashes o childHashes

/-- What a node of a graph without cycles unfolds to. -/
inductive Expression
  | node (o : Operation) (args : List Expression)

instance : Inhabited Expression := ⟨.node default []⟩

def Expression.hash : Expression → NodeHash
  | .node o args => combineHashes o (args.map Expression.hash)

def OpGraph.expression (g : OpGraph) : ℤ → Expression :=
  g.eval (fun _ o args => .node o args) default

section Round

variable {nodeHashes : List NodeHash}

theorem hashChildrenPositional_eq {children : List ℤ} {hashes : List NodeHash}
    (h : List.Forall₂ (fun c h => index nodeHashes c = some h) children hashes) :
    hashChildrenPositional children (intOfSize children.length) nodeHashes =
      some ((hashedChildren hashes).foldl (fun hash h => (hash + h + 82937) * 4565) 583747) := by
  have hfold : ∀ {cs : List ℤ} {hs : List NodeHash} (start : NodeHash),
      List.Forall₂ (fun c h => index nodeHashes c = some h) cs hs →
      cs.foldlM (fun hash child => (index nodeHashes child).map fun h =>
          (hash + h + 82937) * 4565) start =
        some (hs.foldl (fun hash h => (hash + h + 82937) * 4565) start) := by
    intro cs hs start hall
    induction hall generalizing start with
    | nil => rfl
    | cons hc _ ih =>
        rw [List.foldlM_cons, hc, Option.map_some, Option.bind_eq_bind, Option.bind_some, ih,
          List.foldl_cons]
  rw [hashChildrenPositional, hashedChildren, ← h.length_eq]
  exact hfold 583747 (List.forall₂_take _ h)

theorem hashChildrenSet_eq {children : List ℤ} {hashes : List NodeHash}
    (h : children.length = hashes.length) :
    hashChildrenSet children (intOfSize children.length) =
      (hashedChildren hashes).foldl (fun hash _ => hash * (hash + 989673)) 583747 := by
  have hfold : ∀ {cs : List ℤ} {hs : List NodeHash} (start : NodeHash),
      cs.length = hs.length →
      cs.foldl (fun hash _ => hash * (hash + 989673)) start =
        hs.foldl (fun hash _ => hash * (hash + 989673)) start := by
    intro cs
    induction cs with
    | nil =>
        intro hs start hlen
        rw [List.eq_nil_of_length_eq_zero hlen.symm]
        rfl
    | cons c cs ih =>
        intro hs start hlen
        obtain ⟨h, hs, rfl⟩ := List.exists_cons_of_length_pos (l := hs) (by simp at hlen; omega)
        rw [List.foldl_cons, List.foldl_cons, ih _ (by simpa using hlen)]
  rw [hashChildrenSet, hashedChildren, ← h]
  exact hfold 583747 (by rw [List.length_take, List.length_take, h])

theorem childHash_eq {o : Operation} {vec : List ℤ} {hashes : List NodeHash}
    (h : List.Forall₂ (fun c h => index nodeHashes c = some h) vec hashes) :
    childHash o vec nodeHashes = some (combineChildHashes o hashes) := by
  have hnil : vec = [] ↔ hashes = [] := by
    rw [← List.length_eq_zero_iff, ← List.length_eq_zero_iff, h.length_eq]
  rw [childHash, combineChildHashes, hashChildrenPositional_eq h,
    hashChildrenSet_eq h.length_eq]
  simp only [hnil]
  split_ifs <;> rfl

theorem fillNodeHash_eq {g : OpGraph} (hlengths : g.graphMapping.length = g.operations.length)
    (hhashes : nodeHashes.length = g.size) {i : ℤ} (hi : g.Valid i) {hashes : List NodeHash}
    (h : List.Forall₂ (fun c h => index nodeHashes c = some h) (g.children i) hashes) :
    fillNodeHash g.graphMapping g.operations nodeHashes i =
      some (modify nodeHashes i fun _ => combineHashes (g.operation i) hashes) := by
  have hin : ∀ {α : Type} (l : List α), l.length = g.size → ∃ a, index l i = some a := by
    intro α l hl
    refine Option.isSome_iff_exists.mp ((index_isSome_iff l i).mpr ?_)
    rw [hl]
    exact hi
  obtain ⟨vec, hvec⟩ := hin g.graphMapping hlengths
  obtain ⟨o, ho⟩ := hin g.operations rfl
  obtain ⟨old, hold⟩ := hin nodeHashes hhashes
  have hchildren : g.children i = vec := by rw [OpGraph.children, hvec, Option.getD_some]
  have hoperation : g.operation i = o := by rw [OpGraph.operation, ho, Option.getD_some]
  rw [hchildren] at h
  simp only [fillNodeHash, hvec, ho, hold, hoperation, combineHashes, Option.bind_eq_bind,
    Option.bind_some, childHash_eq h, Option.pure_def]

end Round

section Order

variable {g : OpGraph} (hdag : g.Dag)

include hdag

theorem OpGraph.hash_expression (i : ℤ) :
    (g.expression i).hash =
      combineHashes (g.operation i) ((g.children i).map fun c => (g.expression c).hash) := by
  rw [OpGraph.expression, OpGraph.eval_eq _ _ hdag, Expression.hash, List.map_map]
  rfl

/-- The node after those whose entries are right gets the right entry, and they
keep theirs. -/
theorem fillNodeHash_expression {nodeHashes : List NodeHash} (hhashes : nodeHashes.length = g.size)
    {i : ℤ} (hi : g.Valid i)
    (hchildren : ∀ c ∈ g.children i, index nodeHashes c = some (g.expression c).hash) :
    fillNodeHash g.graphMapping g.operations nodeHashes i =
      some (modify nodeHashes i fun _ => (g.expression i).hash) := by
  rw [OpGraph.hash_expression hdag i]
  refine fillNodeHash_eq hdag.lengths hhashes hi ?_
  rw [List.forall₂_map_right_iff, List.forall₂_same]
  exact hchildren

theorem foldlM_fillNodeHash {pre order : List ℤ} {nodeHashes : List NodeHash}
    (hhashes : nodeHashes.length = g.size) (hvalid : ∀ i ∈ order, g.Valid i)
    (hbefore : ∀ (k : ℕ) (p : ℤ), order[k]? = some p → ∀ c ∈ g.children p,
      c ∈ pre ∨ c ∈ order.take k)
    (hpre : ∀ i ∈ pre, index nodeHashes i = some (g.expression i).hash) :
    ∃ nodeHashes', fillNodeHashes g.graphMapping g.operations order nodeHashes =
        some nodeHashes' ∧
      ∀ i, i ∈ pre ∨ i ∈ order → index nodeHashes' i = some (g.expression i).hash := by
  induction order generalizing pre nodeHashes with
  | nil => exact ⟨nodeHashes, rfl, fun i hi => hpre i (by simpa using hi)⟩
  | cons i order ih =>
      have hi : g.Valid i := hvalid i List.mem_cons_self
      have hround := fillNodeHash_expression hdag hhashes hi fun c hc =>
        hpre c (by simpa using hbefore 0 i rfl c hc)
      have hdone : ∀ j ∈ i :: pre, index (modify nodeHashes i fun _ => (g.expression i).hash) j =
          some (g.expression j).hash := by
        intro j hj
        rw [index_modify]
        by_cases hij : i = j
        · subst hij
          obtain ⟨old, hold⟩ := Option.isSome_iff_exists.mp
            ((index_isSome_iff nodeHashes i).mpr (by rw [hhashes]; exact hi))
          rw [if_pos rfl, hold, Option.map_some]
        · rw [if_neg hij]
          exact hpre j ((List.mem_cons.mp hj).resolve_left (Ne.symm hij))
      obtain ⟨nodeHashes', hrun, hresult⟩ := ih (by rwa [length_modify])
        (fun j hj => hvalid j (List.mem_cons_of_mem i hj)) (fun k p hk c hc => by
          have := hbefore (k + 1) p hk c hc
          rw [List.take_succ_cons, List.mem_cons] at this
          rw [List.mem_cons]
          tauto) hdone
      refine ⟨nodeHashes', ?_, fun j hj => hresult j ?_⟩
      · rw [fillNodeHashes, List.foldlM_cons, hround]
        exact hrun
      · simp only [List.mem_cons] at hj ⊢
        tauto

/-- Whatever order with the children first, and whatever was stored before, every
node of the order gets the hash of its expression. -/
theorem fillNodeHashes_expression {order : List ℤ} {nodeHashes : List NodeHash}
    (hhashes : nodeHashes.length = g.size) (hvalid : ∀ i ∈ order, g.Valid i)
    (hbefore : ChildrenBefore g.graphMapping order) :
    ∃ nodeHashes', fillNodeHashes g.graphMapping g.operations order nodeHashes =
        some nodeHashes' ∧
      ∀ i ∈ order, index nodeHashes' i = some (g.expression i).hash := by
  obtain ⟨nodeHashes', hrun, hresult⟩ := @foldlM_fillNodeHash g hdag [] order nodeHashes hhashes
    hvalid (fun k p hk c hc => by
      obtain ⟨j, hj, hc⟩ := hbefore k p hk c hc
      exact .inr (List.mem_iff_getElem?.mpr ⟨j, by rw [List.getElem?_take_of_lt hj, hc]⟩))
    (by simp)
  exact ⟨nodeHashes', hrun, fun i hi => hresult i (.inr hi)⟩

end Order

/-- Two orders of the same nodes with the children first, from any stored hashes,
give every node the hash of its expression. Nodes with the same operation over
children with the same hashes get the same hash. -/
theorem fillNodeHashes_confluent {g : OpGraph} (hdag : g.Dag) {order order' : List ℤ}
    {nodeHashes nodeHashes' : List NodeHash} (hhashes : nodeHashes.length = g.size)
    (hhashes' : nodeHashes'.length = g.size) (hvalid : ∀ i ∈ order, g.Valid i)
    (hsame : ∀ i, i ∈ order ↔ i ∈ order') (hbefore : ChildrenBefore g.graphMapping order)
    (hbefore' : ChildrenBefore g.graphMapping order') :
    ∃ filled filled',
      fillNodeHashes g.graphMapping g.operations order nodeHashes = some filled ∧
      fillNodeHashes g.graphMapping g.operations order' nodeHashes' = some filled' ∧
      (∀ i ∈ order, index filled i = some (g.expression i).hash ∧
        index filled' i = index filled i) ∧
      ∀ i ∈ order, ∀ j ∈ order, g.operation i = g.operation j →
        List.Forall₂ (fun c d => index filled c = index filled d) (g.children i) (g.children j) →
        index filled i = index filled j := by
  obtain ⟨filled, hrun, hfilled⟩ := fillNodeHashes_expression hdag hhashes hvalid hbefore
  obtain ⟨filled', hrun', hfilled'⟩ := fillNodeHashes_expression hdag hhashes'
    (fun i hi => hvalid i ((hsame i).mpr hi)) hbefore'
  have hchild : ∀ i ∈ order, ∀ c ∈ g.children i, index filled c = some (g.expression c).hash := by
    intro i hi c hc
    obtain ⟨k, hk⟩ := List.mem_iff_getElem?.mp hi
    obtain ⟨j, -, hj⟩ := hbefore k i hk c hc
    exact hfilled c (List.mem_iff_getElem?.mpr ⟨j, hj⟩)
  refine ⟨filled, filled', hrun, hrun', fun i hi => ⟨hfilled i hi, ?_⟩, ?_⟩
  · rw [hfilled i hi, hfilled' i ((hsame i).mp hi)]
  · intro i hi j hj hop hchildren
    have hmap : (g.children i).map (fun c => (g.expression c).hash) =
        (g.children j).map fun c => (g.expression c).hash := by
      refine Option.some_injective _ |>.list_map ?_
      have hi' := List.map_congr_left (hchild i hi)
      have hj' := List.map_congr_left (hchild j hj)
      have heq : (g.children i).map (index filled) = (g.children j).map (index filled) := by
        rw [← List.forall₂_eq_eq_eq, List.forall₂_map_left_iff, List.forall₂_map_right_iff]
        exact hchildren
      rw [List.map_map, List.map_map]
      exact hi'.symm.trans (heq.trans hj')
    rw [hfilled i hi, hfilled j hj, OpGraph.hash_expression hdag i,
      OpGraph.hash_expression hdag j, hop, hmap]

/-- Two nodes with the same operation over one column, and the difference of the
two. -/
def differenceGraph : OpGraph where
  operations := [{ op := .COLUMN }, { op := .NEG }, { op := .NEG }, { op := .SUB }]
  graphMapping := [[], [0], [0], [1, 2]]

theorem childrenBefore_of_take {graphMapping : List (List ℤ)} {order : List ℤ}
    (h : ∀ k < order.length, ∀ c ∈ childList graphMapping (order.getD k 0), c ∈ order.take k) :
    ChildrenBefore graphMapping order := by
  intro k p hk c hc
  obtain ⟨hlt, rfl⟩ := List.getElem?_eq_some_iff.mp hk
  have hmem : c ∈ order.take k := h k hlt c (by rwa [List.getD_eq_getElem _ _ hlt])
  obtain ⟨j, hj⟩ := List.mem_iff_getElem?.mp hmem
  have hjk : j < k := by
    have := (List.getElem?_eq_some_iff.mp hj).1
    rw [List.length_take] at this
    omega
  exact ⟨j, hjk, by rwa [List.getElem?_take_of_lt hjk] at hj⟩

/-- The two nodes get the same hash under both orders. -/
theorem fillNodeHashes_confluent_sample :
    ∃ filled filled',
      fillNodeHashes differenceGraph.graphMapping differenceGraph.operations [0, 1, 2, 3]
        [0, 0, 0, 0] = some filled ∧
      fillNodeHashes differenceGraph.graphMapping differenceGraph.operations [0, 2, 1, 3]
        [7, 7, 7, 7] = some filled' ∧
      index filled' 3 = index filled 3 ∧ index filled 1 = index filled 2 := by
  have hbefore : ChildrenBefore differenceGraph.graphMapping [0, 1, 2, 3] :=
    childrenBefore_of_take (by decide)
  have hbefore' : ChildrenBefore differenceGraph.graphMapping [0, 2, 1, 3] :=
    childrenBefore_of_take (by decide)
  obtain ⟨filled, filled', hrun, hrun', hsame, hequal⟩ := fillNodeHashes_confluent
    (OpGraph.dag_of_childrenFirst rfl (by decide))
    (show ([0, 0, 0, 0] : List NodeHash).length = differenceGraph.size from rfl)
    (show ([7, 7, 7, 7] : List NodeHash).length = differenceGraph.size from rfl)
    (by decide) (fun i => by simp only [List.mem_cons]; tauto) hbefore hbefore'
  exact ⟨filled, filled', hrun, hrun', (hsame 3 (by decide)).2,
    hequal 1 (by decide) 2 (by decide) rfl (.cons rfl .nil)⟩

end Query

end DistStorage
