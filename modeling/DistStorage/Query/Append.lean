import DistStorage.Query.Rules
import DistStorage.Digraph.Evaluation

/-!
# Appending nodes to a query graph

Every rule only appends nodes, so what a rule does is told by the list of nodes
it appends. This file has the lookups of an appended graph, the changes a rule
makes to its own fresh nodes, and the conditions under which appending keeps a
graph well formed: parallel vectors, children in range, no cycle, and one child
below every `NOT` and `NOP`.
-/

namespace DistStorage

namespace Query

namespace OpGraph

/-- Parallel vectors, edges between nodes, and no cycle. -/
structure Dag (g : OpGraph) : Prop where
  lengths : g.graphMapping.length = g.operations.length
  valid_children : ∀ i, ∀ c ∈ g.children i, g.Valid c
  acyclic : Digraph.Acyclic g.children

/-- A graph the planner works on. -/
structure WellFormed (g : OpGraph) : Prop where
  lengths : g.graphMapping.length = g.operations.length
  valid_children : ∀ i, ∀ c ∈ g.children i, g.Valid c
  acyclic : Digraph.Acyclic g.children
  unary : ∀ i, g.Valid i →
    (g.operation i).op = .NOT ∨ (g.operation i).op = .NOP → (g.children i).length = 1

theorem WellFormed.dag {g : OpGraph} (h : g.WellFormed) : g.Dag :=
  ⟨h.lengths, h.valid_children, h.acyclic⟩

@[simp] theorem append_nil (g : OpGraph) : g.append [] = g := by
  simp [append]

theorem append_append (g : OpGraph) (xs ys : List (Operation × List ℤ)) :
    (g.append xs).append ys = g.append (xs ++ ys) := by
  simp [append]

@[simp] theorem size_append (g : OpGraph) (nodes : List (Operation × List ℤ)) :
    (g.append nodes).size = g.size + nodes.length := by
  simp [append, size]

theorem lengths_append {g : OpGraph} (h : g.graphMapping.length = g.operations.length)
    (nodes : List (Operation × List ℤ)) :
    (g.append nodes).graphMapping.length = (g.append nodes).operations.length := by
  simp [append, h]

theorem Valid.append {g : OpGraph} {i : ℤ} (hi : g.Valid i)
    (nodes : List (Operation × List ℤ)) : (g.append nodes).Valid i := by
  refine ⟨hi.1, ?_⟩
  rw [size_append]
  have := hi.2
  push_cast
  omega

theorem valid_append_iff (g : OpGraph) (nodes : List (Operation × List ℤ)) (i : ℤ) :
    (g.append nodes).Valid i ↔
      g.Valid i ∨ ∃ k < nodes.length, i = (g.size : ℤ) + k := by
  simp only [Valid, size_append, Nat.cast_add]
  constructor
  · rintro ⟨h0, hlt⟩
    by_cases hi : i < g.size
    · exact .inl ⟨h0, hi⟩
    · refine .inr ⟨(i - g.size).toNat, ?_, ?_⟩ <;> omega
  · rintro (⟨h0, hlt⟩ | ⟨k, hk, rfl⟩) <;> constructor <;> omega

theorem operation_append {g : OpGraph} {i : ℤ} (hi : g.Valid i)
    (nodes : List (Operation × List ℤ)) :
    (g.append nodes).operation i = g.operation i := by
  simp only [operation, append]
  rw [Cpp.index_append_left _ _ hi.2]

theorem children_append {g : OpGraph} (h : g.graphMapping.length = g.operations.length)
    {i : ℤ} (hi : g.Valid i) (nodes : List (Operation × List ℤ)) :
    (g.append nodes).children i = g.children i := by
  simp only [children, append]
  rw [Cpp.index_append_left _ _ (by rw [h]; exact hi.2)]

theorem operation_append_fresh (g : OpGraph) {nodes : List (Operation × List ℤ)}
    {k : ℕ} {o : Operation} {cs : List ℤ} (hk : nodes[k]? = some (o, cs)) :
    (g.append nodes).operation ((g.size : ℤ) + k) = o := by
  simp only [operation, append, size]
  rw [Cpp.index_append_length, List.getElem?_map, hk]
  rfl

theorem children_append_fresh {g : OpGraph}
    (h : g.graphMapping.length = g.operations.length)
    {nodes : List (Operation × List ℤ)} {k : ℕ} {o : Operation} {cs : List ℤ}
    (hk : nodes[k]? = some (o, cs)) :
    (g.append nodes).children ((g.size : ℤ) + k) = cs := by
  simp only [children, append, size]
  rw [← h, Cpp.index_append_length, List.getElem?_map, hk]
  rfl

theorem children_of_not_valid {g : OpGraph}
    (h : g.graphMapping.length = g.operations.length) {i : ℤ} (hi : ¬ g.Valid i) :
    g.children i = [] := by
  have hnone : Cpp.index g.graphMapping i = none := by
    rw [← Option.not_isSome_iff_eq_none, Cpp.index_isSome_iff, h]
    exact hi
  simp [children, hnone]

theorem setOp_append (g : OpGraph) (o : Operation) (cs : List ℤ)
    (rest : List (Operation × List ℤ)) (op : ColumnOperation) :
    (g.append ((o, cs) :: rest)).setOp g.size op =
      g.append (({ o with op := op }, cs) :: rest) := by
  simp [setOp, modifyOperation, append, size, Cpp.modify_append_length]

theorem modifyChildren_append {g : OpGraph}
    (h : g.graphMapping.length = g.operations.length) (o : Operation) (cs : List ℤ)
    (rest : List (Operation × List ℤ)) (f : List ℤ → List ℤ) :
    (g.append ((o, cs) :: rest)).modifyChildren g.size f =
      g.append ((o, f cs) :: rest) := by
  simp [modifyChildren, append, size, ← h, Cpp.modify_append_length]

def nodes (g : OpGraph) : Finset ℤ :=
  (Finset.range g.size).map Nat.castEmbedding

@[simp] theorem mem_nodes (g : OpGraph) (i : ℤ) : i ∈ g.nodes ↔ g.Valid i := by
  simp only [nodes, Valid, Finset.mem_map, Finset.mem_range, Nat.castEmbedding_apply]
  constructor
  · rintro ⟨k, hk, rfl⟩
    omega
  · rintro ⟨h0, hlt⟩
    exact ⟨i.toNat, by omega, by omega⟩

@[simp] theorem card_nodes (g : OpGraph) : g.nodes.card = g.size := by
  simp [nodes]

theorem Dag.exists_rank {g : OpGraph} (h : g.Dag) :
    ∃ rank, Digraph.IsRank g.children rank ∧ ∀ i, rank i ≤ g.size := by
  obtain ⟨rank, hrank, hle⟩ := Digraph.exists_rank g.nodes
    (fun p c hc => (g.mem_nodes c).mpr (h.valid_children p c hc)) h.acyclic
  exact ⟨rank, hrank, fun i => by simpa using hle i⟩

/-- Appending nodes whose children are old nodes, or fresh nodes of a lower
level, keeps the graph acyclic. -/
theorem Dag.append {g : OpGraph} (h : g.Dag)
    (nodes : List (Operation × List ℤ)) (level : ℕ → ℕ)
    (hchildren : ∀ (k : ℕ) (o : Operation) (cs : List ℤ), nodes[k]? = some (o, cs) →
      ∀ c ∈ cs, g.Valid c ∨
        ∃ j < nodes.length, c = (g.size : ℤ) + j ∧ level j < level k) :
    (g.append nodes).Dag := by
  have hvalid : ∀ p, ∀ c ∈ (g.append nodes).children p, (g.append nodes).Valid c := by
    intro p c hc
    by_cases hp : (g.append nodes).Valid p
    · rcases (valid_append_iff g nodes p).mp hp with hp | ⟨k, hk, rfl⟩
      · rw [children_append h.lengths hp] at hc
        exact (h.valid_children p c hc).append nodes
      · have hget : nodes[k]? = some (nodes[k].1, nodes[k].2) := by simp [hk]
        rw [children_append_fresh h.lengths hget] at hc
        rcases hchildren k _ _ hget c hc with hc | ⟨j, hj, rfl, -⟩
        · exact hc.append nodes
        · exact (valid_append_iff g nodes _).mpr (.inr ⟨j, hj, rfl⟩)
    · rw [children_of_not_valid (lengths_append h.lengths nodes) hp] at hc
      simp at hc
  refine ⟨lengths_append h.lengths nodes, hvalid, ?_⟩
  obtain ⟨rank, hrank, hle⟩ := h.exists_rank
  -- Fresh nodes rank above every old node, ordered among themselves by level.
  let rank' (i : ℤ) : ℕ :=
    if g.Valid i then rank i else g.size + 1 + level (i - g.size).toNat
  have hold : ∀ i, g.Valid i → rank' i = rank i := fun i hi => if_pos hi
  have hfresh : ∀ k : ℕ, rank' ((g.size : ℤ) + k) = g.size + 1 + level k := by
    intro k
    have hnot : ¬ g.Valid ((g.size : ℤ) + k) := fun hv => by
      have := hv.2
      omega
    have hsub : ((g.size : ℤ) + k - g.size).toNat = k := by omega
    simp only [rank', if_neg hnot, hsub]
  refine Digraph.IsRank.acyclic (?_ : Digraph.IsRank _ rank')
  intro p c hc
  by_cases hp : (g.append nodes).Valid p
  · rcases (valid_append_iff g nodes p).mp hp with hp | ⟨k, hk, rfl⟩
    · rw [children_append h.lengths hp] at hc
      rw [hold p hp, hold c (h.valid_children p c hc)]
      exact hrank p c hc
    · have hget : nodes[k]? = some (nodes[k].1, nodes[k].2) := by simp [hk]
      rw [children_append_fresh h.lengths hget] at hc
      rw [hfresh k]
      rcases hchildren k _ _ hget c hc with hc | ⟨j, -, rfl, hj⟩
      · have := hle c
        rw [hold c hc]
        omega
      · rw [hfresh j]
        omega
  · rw [children_of_not_valid (lengths_append h.lengths nodes) hp] at hc
    simp at hc

/-- Appending such nodes keeps a graph well formed when every fresh `NOT` and
`NOP` has one child. -/
theorem WellFormed.append {g : OpGraph} (h : g.WellFormed)
    (nodes : List (Operation × List ℤ)) (level : ℕ → ℕ)
    (hchildren : ∀ (k : ℕ) (o : Operation) (cs : List ℤ), nodes[k]? = some (o, cs) →
      ∀ c ∈ cs, g.Valid c ∨
        ∃ j < nodes.length, c = (g.size : ℤ) + j ∧ level j < level k)
    (hunary : ∀ node ∈ nodes, node.1.op = .NOT ∨ node.1.op = .NOP →
      node.2.length = 1) :
    (g.append nodes).WellFormed where
  lengths := lengths_append h.lengths nodes
  valid_children := (h.dag.append nodes level hchildren).valid_children
  acyclic := (h.dag.append nodes level hchildren).acyclic
  unary := by
    intro i hi hop
    rcases (valid_append_iff g nodes i).mp hi with hi | ⟨k, hk, rfl⟩
    · rw [operation_append hi] at hop
      rw [children_append h.lengths hi]
      exact h.unary i hi hop
    · have hget : nodes[k]? = some (nodes[k].1, nodes[k].2) := by simp [hk]
      rw [operation_append_fresh g hget] at hop
      rw [children_append_fresh h.lengths hget]
      exact hunary nodes[k] (List.getElem_mem hk) hop

theorem Dag.append_flat {g : OpGraph} (h : g.Dag) (nodes : List (Operation × List ℤ))
    (hchildren : ∀ node ∈ nodes, ∀ c ∈ node.2, g.Valid c) : (g.append nodes).Dag := by
  refine h.append nodes (fun _ => 0) ?_
  intro k o cs hk c hc
  exact .inl (hchildren (o, cs) (List.mem_of_getElem? hk) c hc)

theorem WellFormed.append_flat {g : OpGraph} (h : g.WellFormed)
    (nodes : List (Operation × List ℤ))
    (hchildren : ∀ node ∈ nodes, ∀ c ∈ node.2, g.Valid c)
    (hunary : ∀ node ∈ nodes, node.1.op = .NOT ∨ node.1.op = .NOP →
      node.2.length = 1) :
    (g.append nodes).WellFormed := by
  refine h.append nodes (fun _ => 0) ?_ hunary
  intro k o cs hk c hc
  exact .inl (hchildren (o, cs) (List.mem_of_getElem? hk) c hc)

/-- Children precede their parents in the order of the vectors. -/
def ChildrenFirst (g : OpGraph) : Prop :=
  ∀ i < g.graphMapping.length, ∀ c ∈ g.children i, 0 ≤ c ∧ c < (i : ℤ)

instance (g : OpGraph) : Decidable g.ChildrenFirst :=
  inferInstanceAs (Decidable (∀ i < g.graphMapping.length, _))

/-- Every `NOT` and `NOP` has one child. -/
def UnaryNegations (g : OpGraph) : Prop :=
  ∀ i < g.size, (g.operation i).op = .NOT ∨ (g.operation i).op = .NOP →
    (g.children i).length = 1

instance (g : OpGraph) : Decidable g.UnaryNegations :=
  inferInstanceAs (Decidable (∀ i < g.size, _))

theorem valid_of_childrenFirst {g : OpGraph}
    (h : g.graphMapping.length = g.operations.length) (hfirst : g.ChildrenFirst) {i c : ℤ}
    (hc : c ∈ g.children i) : g.Valid i ∧ 0 ≤ c ∧ c < i := by
  by_cases hi : g.Valid i
  · obtain ⟨k, rfl⟩ := Int.eq_ofNat_of_zero_le hi.1
    have hk : k < g.graphMapping.length := by
      rw [h]
      exact_mod_cast hi.2
    exact ⟨hi, hfirst k hk c hc⟩
  · rw [children_of_not_valid h hi] at hc
    simp at hc

theorem acyclic_of_childrenFirst {g : OpGraph}
    (h : g.graphMapping.length = g.operations.length) (hfirst : g.ChildrenFirst) :
    Digraph.Acyclic g.children := by
  refine Digraph.IsRank.acyclic (?_ : Digraph.IsRank _ Int.toNat)
  intro p c hc
  obtain ⟨-, h0, hlt⟩ := valid_of_childrenFirst h hfirst hc
  omega

theorem dag_of_childrenFirst {g : OpGraph}
    (h : g.graphMapping.length = g.operations.length) (hfirst : g.ChildrenFirst) : g.Dag := by
  refine ⟨h, ?_, acyclic_of_childrenFirst h hfirst⟩
  intro i c hc
  obtain ⟨hi, h0, hlt⟩ := valid_of_childrenFirst h hfirst hc
  exact ⟨h0, hlt.trans hi.2⟩

theorem wellFormed_of_childrenFirst {g : OpGraph}
    (h : g.graphMapping.length = g.operations.length) (hfirst : g.ChildrenFirst)
    (hunary : g.UnaryNegations) : g.WellFormed := by
  obtain ⟨hlengths, hvalid, hacyclic⟩ := dag_of_childrenFirst h hfirst
  refine ⟨hlengths, hvalid, hacyclic, ?_⟩
  intro i hi hop
  obtain ⟨k, rfl⟩ := Int.eq_ofNat_of_zero_le hi.1
  exact hunary k (by exact_mod_cast hi.2) hop

end OpGraph

end Query

end DistStorage
