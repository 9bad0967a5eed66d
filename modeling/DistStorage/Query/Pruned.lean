import DistStorage.Query.NodeHashes
import DistStorage.Query.Renumbered
import DistStorage.Query.RuleValue
import DistStorage.Query.VisitCalls

/-!
# Pruning a rewritten graph

The rules only append nodes, so the nodes that were rewritten stay behind. They are left
out by numbering the nodes below the new root and writing the graph under these numbers.
`Pruned g p number` describes such a graph `p`: it has a node for every numbered node of
`g`, with the same operation over the renumbered children. A node of `p` unfolds to the
same expression as the node of `g` it stands for, so it has its value and its hash.
-/

namespace DistStorage

namespace Query

open OpGraph

/-- `p` consists of the nodes of `g` that have a number, and these are closed under
children. -/
structure Pruned (g p : OpGraph) (number : ℤ → Option ℤ) : Prop where
  lengths : p.graphMapping.length = p.operations.length
  injective : ∀ i j k, number i = some k → number j = some k → i = j
  onto : ∀ k, p.Valid k ↔ ∃ i, number i = some k
  closed : ∀ i k, number i = some k → ∀ c ∈ g.children i, ∃ l, number c = some l
  operation : ∀ i k, number i = some k → p.operation k = g.operation i
  children : ∀ i k, number i = some k → p.children k = (g.children i).filterMap number

section Pruned

variable {g p : OpGraph} {number : ℤ → Option ℤ}

theorem Pruned.exists_child (h : Pruned g p number) {k c : ℤ} (hc : c ∈ p.children k) :
    ∃ i j, number i = some k ∧ number j = some c ∧ j ∈ g.children i := by
  have hk : p.Valid k := by
    by_contra hk
    rw [children_of_not_valid h.lengths hk] at hc
    cases hc
  obtain ⟨i, hi⟩ := (h.onto k).mp hk
  rw [h.children i k hi] at hc
  obtain ⟨j, hj, hjc⟩ := List.mem_filterMap.mp hc
  exact ⟨i, j, hi, hjc, hj⟩

theorem Pruned.child (h : Pruned g p number) {i k c l : ℤ} (hi : number i = some k)
    (hc : c ∈ g.children i) (hl : number c = some l) : l ∈ p.children k := by
  rw [h.children i k hi]
  exact List.mem_filterMap.mpr ⟨c, hc, hl⟩

theorem Pruned.transGen (h : Pruned g p number) {c k : ℤ}
    (hwalk : Relation.TransGen (Digraph.IsChild p.children) c k) {i j : ℤ}
    (hi : number i = some k) (hj : number j = some c) :
    Relation.TransGen (Digraph.IsChild g.children) j i := by
  induction hwalk generalizing i with
  | single hc =>
      obtain ⟨i', j', hi', hj', hchild⟩ := h.exists_child hc
      obtain rfl := h.injective _ _ _ hi hi'
      obtain rfl := h.injective _ _ _ hj hj'
      exact .single hchild
  | tail _ hc ih =>
      obtain ⟨i', j', hi', hj', hchild⟩ := h.exists_child hc
      obtain rfl := h.injective _ _ _ hi hi'
      exact (ih hj').tail hchild

theorem Pruned.dag (h : Pruned g p number) (hg : g.Dag) : p.Dag where
  lengths := h.lengths
  valid_children := by
    intro k c hc
    obtain ⟨i, j, hi, hj, -⟩ := h.exists_child hc
    exact (h.onto c).mpr ⟨j, hj⟩
  acyclic := by
    intro k hcycle
    have hk : p.Valid k := by
      by_contra hk
      obtain ⟨c, -, hc⟩ := Relation.TransGen.tail'_iff.mp hcycle
      rw [Digraph.IsChild, children_of_not_valid h.lengths hk] at hc
      cases hc
    obtain ⟨i, hi⟩ := (h.onto k).mp hk
    exact hg.acyclic i (h.transGen hcycle hi hi)

/-- Every child of a numbered node has a number, so none is left out. -/
theorem Pruned.children_eq_map (h : Pruned g p number) {i k : ℤ} (hi : number i = some k) :
    p.children k = (g.children i).map fun c => (number c).getD 0 := by
  rw [h.children i k hi, ← List.filterMap_eq_map]
  refine List.filterMap_congr fun c hc => ?_
  obtain ⟨l, hl⟩ := h.closed i k hi c hc
  rw [hl, Function.comp_apply, hl, Option.getD_some]

theorem Pruned.wellFormed (h : Pruned g p number) (hg : g.WellFormed)
    (hvalid : ∀ i k, number i = some k → g.Valid i) : p.WellFormed := by
  obtain ⟨hlengths, hchildren, hacyclic⟩ := h.dag hg.dag
  refine ⟨hlengths, hchildren, hacyclic, fun k hk hop => ?_⟩
  obtain ⟨i, hi⟩ := (h.onto k).mp hk
  rw [h.operation i k hi] at hop
  rw [h.children_eq_map hi, List.length_map]
  exact hg.unary i (hvalid i k hi) hop

theorem Pruned.eval (h : Pruned g p number) (hg : g.Dag) {β : Type*}
    {layer layer' : ℤ → Operation → List β → β} (base : β)
    (hlayer : ∀ i k, number i = some k → layer' k = layer i) {i k : ℤ}
    (hi : number i = some k) : p.eval layer' base k = g.eval layer base i := by
  obtain ⟨rank, hrank, hle⟩ := hg.exists_rank
  obtain ⟨rank', hrank', hle'⟩ := (h.dag hg).exists_rank
  have hmap : Digraph.evalFuel p.children (fun k => layer' k (p.operation k)) base
      (g.size + p.size + 1) ((number i).getD 0) =
      Digraph.evalFuel g.children (fun i => layer i (g.operation i)) base
        (g.size + p.size + 1) i := by
    refine Digraph.evalFuel_map (s := fun i => ∃ k, number i = some k)
      (f := fun i => (number i).getD 0) ?_ ?_ ?_ ⟨k, hi⟩
    · rintro i ⟨k, hi⟩ c hc
      exact h.closed i k hi c hc
    · rintro i ⟨k, hi⟩
      rw [hi, Option.getD_some]
      exact h.children_eq_map hi
    · rintro i ⟨k, hi⟩
      rw [hi, Option.getD_some, hlayer i k hi, h.operation i k hi]
  have hk := hle' k
  have hi_rank := hle i
  rw [hi, Option.getD_some] at hmap
  rw [OpGraph.eval, OpGraph.eval,
    Digraph.evalFuel_eq_of_rank hrank' (by omega) (by omega : rank' k < g.size + p.size + 1),
    hmap, Digraph.evalFuel_eq_of_rank hrank (by omega) (by omega : rank i < g.size + 1)]

theorem Pruned.value {V : Type*} [LinearOrder V] (I : Interpretation V)
    (h : Pruned g p number) (hg : g.Dag) {leaf leaf' : ℤ → Option V}
    (hleaf : ∀ i k, number i = some k → leaf' k = leaf i) {i k : ℤ}
    (hi : number i = some k) : value I p leaf' k = value I g leaf i :=
  h.eval hg none (fun i k hi => by rw [hleaf i k hi]) hi

theorem Pruned.expression (h : Pruned g p number) (hg : g.Dag) {i k : ℤ}
    (hi : number i = some k) : p.expression k = g.expression i :=
  h.eval hg default (fun _ _ _ => rfl) hi

theorem Pruned.reflTransGen (h : Pruned g p number) {i j k l : ℤ}
    (hwalk : Relation.ReflTransGen (Digraph.IsChild g.children) j i) (hi : number i = some k)
    (hj : number j = some l) : Relation.ReflTransGen (Digraph.IsChild p.children) l k := by
  induction hwalk generalizing k with
  | refl =>
      obtain rfl := Option.some.inj (hi.symm.trans hj)
      exact .refl
  | @tail c i hwalk hc ih =>
      obtain ⟨m, hm⟩ := h.closed i k hi c hc
      exact (ih hm).tail (h.child hi hc hm)

/-- The pruned graph is in parsing order exactly when the numbering puts the children
first. -/
theorem Pruned.childrenFirst_iff {newMapping : Cpp.OrderedMap ℤ ℤ}
    (h : Pruned g p newMapping.find) :
    p.ChildrenFirst ↔ ChildrenNumberedBefore g.graphMapping newMapping := by
  constructor
  · intro hfirst i k hi c hc
    obtain ⟨l, hl⟩ := h.closed i k hi c hc
    obtain ⟨-, -, hlt⟩ := valid_of_childrenFirst h.lengths hfirst (h.child hi hc hl)
    exact ⟨l, hlt, hl⟩
  · intro hbefore k _ l hl
    obtain ⟨i, c, hi, hc, hchild⟩ := h.exists_child hl
    obtain ⟨l', hlt, hl'⟩ := hbefore i k hi c hchild
    obtain rfl := Option.some.inj (hc.symm.trans hl')
    exact ⟨((h.onto l).mpr ⟨c, hc⟩).1, hlt⟩

end Pruned

theorem validEdges_of_dag {g : OpGraph} (h : g.Dag) : ValidEdges g.graphMapping := by
  intro children hmem c hc
  obtain ⟨k, hk, rfl⟩ := List.mem_iff_getElem.mp hmem
  have hchild : c ∈ g.children k := by
    rwa [OpGraph.children, Cpp.index_natCast, List.getElem?_eq_getElem hk, Option.getD_some]
  rw [IsNode, h.lengths]
  exact h.valid_children k c hchild

/-- The nodes that `fillVisited` reaches, numbered in any order that goes by decreasing
number, are written as a pruned graph. -/
theorem exists_pruned {g : OpGraph} (hg : g.Dag) {start value : ℤ} (hstart : g.Valid start)
    (hvalue : 1 ≤ value) (hmax : value ≤ Cpp.intMax) {visited : List ℤ}
    (hrun : fillVisited g.graphMapping (List.replicate g.size 0) start value = some visited)
    (s : Cpp.Sorter ℤ) :
    ∃ p : OpGraph, mapMappingGraph g.graphMapping (visitedLeaveMap s visited) =
        some p.graphMapping ∧
      mapOperations g.operations (visitedLeaveMap s visited) = some p.operations ∧
      Pruned g p (visitedLeaveMap s visited).find ∧
      ∀ i, (∃ k, (visitedLeaveMap s visited).find i = some k) ↔
        Relation.ReflTransGen (Digraph.IsChild g.children) i start := by
  have hvalid := validEdges_of_dag hg
  have hnode : IsNode g.graphMapping start := by
    rw [IsNode, hg.lengths]
    exact hstart
  have hsize : g.size = g.graphMapping.length := hg.lengths.symm
  rw [hsize] at hrun
  have hmarks := ((fillVisitedFuel_follows_search hvalid hvalue hmax hnode
    (Nat.lt_succ_self _) visited).mp hrun).2
  have hvisits : Visits g.graphMapping start visited := by
    rw [← hmarks]
    exact visits_depthMarks hvalid hnode hvalue
  have hlength : visited.length = g.size := by
    rw [← hmarks, length_depthMarks, hsize]
  have hnumber : ∀ i, (∃ k, (visitedLeaveMap s visited).find i = some k) ↔
      Relation.ReflTransGen (Digraph.IsChild g.children) i start :=
    fun i => (exists_find_visitedLeaveMap_iff s visited i).trans (hvisits.reached i)
  have hfound : ∀ i k, (visitedLeaveMap s visited).find i = some k → g.Valid i :=
    fun i k hi => valid_of_mark hlength ((exists_find_visitedLeaveMap_iff s visited i).mp ⟨k, hi⟩)
  have hnumbering := isNumbering_visitedLeaveMap s visited
  obtain ⟨graphMapping, hgraph, hgraphLength, hchildren⟩ := mapMappingGraph_eq g.graphMapping
    hnumbering fun i k hi => by
      rw [IsNode, hg.lengths]
      exact hfound i k hi
  obtain ⟨operations, hoperations, hoperationsLength, hoperation⟩ :=
    mapOperations_eq g.operations hnumbering hfound
  refine ⟨⟨operations, graphMapping⟩, hgraph, hoperations, ?_, hnumber⟩
  refine ⟨hgraphLength.trans hoperationsLength.symm, hnumbering.injective, fun k => ?_,
    fun i k hi c hc => ?_, fun i k hi => ?_, hchildren⟩
  · rw [hnumbering.onto, ← hoperationsLength]
    exact Iff.rfl
  · exact (hnumber c).mpr (.head hc ((hnumber i).mp ⟨k, hi⟩))
  · rw [OpGraph.operation, OpGraph.operation, hoperation i k hi]

def rewriteStep (s : OpGraph × ℤ) (application : LogicRule × ℤ) : Option (OpGraph × ℤ) :=
  if s.1.Valid application.2 then
    match application.1.apply s.1 application.2 with
    | (.ok result, g) => some (g, if application.2 = s.2 then result else s.2)
    | (.error _, g) => some (g, s.2)
  else none

/-- The root is a node of a well formed graph and reads like a given value. -/
structure RootReads {V : Type*} [LinearOrder V] (I : Interpretation V) (leaf : ℤ → Option V)
    (v : Option V) (s : OpGraph × ℤ) : Prop where
  wellFormed : s.1.WellFormed
  valid : s.1.Valid s.2
  reads : I.truthOf (value I s.1 leaf s.2) = I.truthOf v

/-- A node that is not the root is rewritten beside it. -/
theorem RootReads.append {V : Type*} [LinearOrder V] {I : Interpretation V}
    {leaf : ℤ → Option V} {v : Option V} {s : OpGraph × ℤ} (h : RootReads I leaf v s)
    {nodes : List (Operation × List ℤ)} (hwf : (s.1.append nodes).WellFormed) :
    RootReads I leaf v (s.1.append nodes, s.2) := by
  refine ⟨hwf, h.valid.append nodes, ?_⟩
  rw [value_append I h.wellFormed leaf h.valid]
  exact h.reads

theorem RootReads.rewriteStep {V : Type*} [LinearOrder V] {I : Interpretation V}
    {leaf : ℤ → Option V} {v : Option V} {s t : OpGraph × ℤ} {application : LogicRule × ℤ}
    (h : RootReads I leaf v s) (hstep : rewriteStep s application = some t) :
    RootReads I leaf v t := by
  obtain ⟨rule, node⟩ := application
  by_cases hnode : s.1.Valid node
  swap
  · rw [Query.rewriteStep, if_neg hnode] at hstep
    cases hstep
  rw [Query.rewriteStep, if_pos hnode] at hstep
  obtain ⟨nodes, hgraph, hwf, hresult⟩ := rule.apply_keeps I leaf h.wellFormed hnode
  cases happly : rule.apply s.1 node with
  | mk outcome g =>
      obtain rfl : g = s.1.append nodes := by rw [← hgraph, happly]
      rw [happly] at hstep hresult
      cases outcome with
      | error e =>
          obtain rfl := Option.some.inj hstep
          exact h.append hwf
      | ok result =>
          obtain rfl := Option.some.inj hstep
          by_cases hroot : node = s.2
          · rw [if_pos hroot]
            obtain ⟨hvalid, hreads⟩ := hresult result rfl
            rw [hroot, h.reads] at hreads
            exact ⟨hwf, hvalid, hreads⟩
          · rw [if_neg hroot]
            exact h.append hwf

/-- A planner that rewrites a root by any sequence of rules, at other nodes as well, and
then leaves out what is not below the root, is left with a well formed graph of the nodes
below the new root, which has the three-valued value of the old one. -/
theorem rewritten_pruned_value {V : Type*} [LinearOrder V] (I : Interpretation V)
    {g₀ g : OpGraph} {root₀ root : ℤ} (h₀ : g₀.WellFormed) (hroot₀ : g₀.Valid root₀)
    {applications : List (LogicRule × ℤ)}
    (hrewritten : Transition.run rewriteStep (g₀, root₀) applications = some (g, root))
    {start : ℤ} (hstart : 1 ≤ start) (hmax : start ≤ Cpp.intMax) {visited : List ℤ}
    (hvisited : fillVisited g.graphMapping (List.replicate g.size 0) root start = some visited)
    (s : Cpp.Sorter ℤ) :
    ∃ (p : OpGraph) (k : ℤ), mapMappingGraph g.graphMapping (visitedLeaveMap s visited) =
        some p.graphMapping ∧
      mapOperations g.operations (visitedLeaveMap s visited) = some p.operations ∧
      (visitedLeaveMap s visited).find root = some k ∧ p.WellFormed ∧
      (∀ j, p.Valid j ↔ Relation.ReflTransGen (Digraph.IsChild p.children) j k) ∧
      ∀ leaf leaf' : ℤ → Option V,
        (∀ i j, (visitedLeaveMap s visited).find i = some j → leaf' j = leaf i) →
        I.truthOf (value I p leaf' k) = I.truthOf (value I g₀ leaf root₀) := by
  have hreads : ∀ leaf, RootReads I leaf (value I g₀ leaf root₀) (g, root) := fun leaf =>
    Transition.run_invariant (fun _ _ _ h hstep => h.rewriteStep hstep) ⟨h₀, hroot₀, rfl⟩
      hrewritten
  obtain ⟨hwf, hroot, -⟩ := hreads fun _ => none
  obtain ⟨p, hgraph, hoperations, hpruned, hnumber⟩ :=
    exists_pruned hwf.dag hroot hstart hmax hvisited s
  obtain ⟨k, hk⟩ := (hnumber root).mpr .refl
  have hvalid : ∀ i j, (visitedLeaveMap s visited).find i = some j → g.Valid i := by
    intro i j hi
    rcases ((hnumber i).mp ⟨j, hi⟩).cases_head with rfl | ⟨q, hq, -⟩
    · exact hroot
    · exact hwf.valid_children q i hq
  have hpwf := hpruned.wellFormed hwf hvalid
  refine ⟨p, k, hgraph, hoperations, hk, hpwf, fun j => ⟨fun hj => ?_, fun hj => ?_⟩, ?_⟩
  · obtain ⟨i, hi⟩ := (hpruned.onto j).mp hj
    exact hpruned.reflTransGen ((hnumber i).mp ⟨j, hi⟩) hk hi
  · rcases hj.cases_head with rfl | ⟨q, hq, -⟩
    · exact (hpruned.onto j).mpr ⟨root, hk⟩
    · exact hpwf.valid_children q j hq
  · intro leaf leaf' hleaf
    rw [hpruned.value I hwf.dag hleaf hk]
    exact (hreads leaf).reads

/-- `sampleGraph` after the `NOT` below the root was reduced and the De Morgan rule applied to
the root, without the nodes that are left behind. -/
theorem rewritten_pruned_value_sample :
    ∃ g root visited p k, Transition.run rewriteStep (sampleGraph, 4)
        [(.reduceNotNop, 3), (.demorgan, 4)] = some (g, root) ∧
      fillVisited g.graphMapping (List.replicate g.size 0) root 1 = some visited ∧
      mapOperations g.operations (visitedLeaveMap (.stable ℤ) visited) = some p.operations ∧
      integerInterpretation.truthOf (value integerInterpretation p (fun _ => none) k) =
        integerInterpretation.truthOf
          (value integerInterpretation sampleGraph (fun _ => none) 4) := by
  have hwf : sampleGraph.WellFormed :=
    wellFormed_of_childrenFirst rfl (by decide) (by decide)
  have hrewritten : Transition.run rewriteStep (sampleGraph, 4)
      [(.reduceNotNop, 3), (.demorgan, 4)] = some (_, _) := rfl
  obtain ⟨p, k, -, hoperations, -, -, -, hvalue⟩ := rewritten_pruned_value integerInterpretation
    hwf (by decide : sampleGraph.Valid 4) hrewritten (le_refl 1) (by decide) rfl (.stable ℤ)
  exact ⟨_, _, _, p, k, rfl, rfl, hoperations, hvalue _ _ fun _ _ _ => rfl⟩

/-- Leaving out nodes changes no hash: under any two orders with the children first, and
whatever was stored before, a node gets the hash that it had. The graph that is left is in
parsing order exactly when the numbering puts the children first. -/
theorem pruned_hashes {g p : OpGraph} (hg : g.Dag) {root start : ℤ} (hroot : g.Valid root)
    (hstart : 1 ≤ start) (hmax : start ≤ Cpp.intMax) {visited : List ℤ}
    (hvisited : fillVisited g.graphMapping (List.replicate g.size 0) root start = some visited)
    {s : Cpp.Sorter ℤ}
    (hgraph : mapMappingGraph g.graphMapping (visitedLeaveMap s visited) = some p.graphMapping)
    (hoperations : mapOperations g.operations (visitedLeaveMap s visited) = some p.operations)
    {order order' : List ℤ} (hvalid : ∀ i ∈ order, g.Valid i)
    (hvalid' : ∀ k ∈ order', p.Valid k) (hbefore : ChildrenBefore g.graphMapping order)
    (hbefore' : ChildrenBefore p.graphMapping order') {nodeHashes nodeHashes' : List NodeHash}
    (hhashes : nodeHashes.length = g.size) (hhashes' : nodeHashes'.length = p.size) :
    (∃ filled filled',
      fillNodeHashes g.graphMapping g.operations order nodeHashes = some filled ∧
      fillNodeHashes p.graphMapping p.operations order' nodeHashes' = some filled' ∧
      ∀ i ∈ order, ∀ k ∈ order', (visitedLeaveMap s visited).find i = some k →
        Cpp.index filled' k = Cpp.index filled i) ∧
      (p.ChildrenFirst ↔ ChildrenNumberedBefore g.graphMapping (visitedLeaveMap s visited)) := by
  obtain ⟨p', hgraph', hoperations', hpruned, -⟩ := exists_pruned hg hroot hstart hmax hvisited s
  obtain rfl : p = p' := by
    cases p
    cases p'
    congr
    · exact Option.some.inj (hoperations.symm.trans hoperations')
    · exact Option.some.inj (hgraph.symm.trans hgraph')
  obtain ⟨filled, hrun, hfilled⟩ := fillNodeHashes_expression hg hhashes hvalid hbefore
  obtain ⟨filled', hrun', hfilled'⟩ :=
    fillNodeHashes_expression (hpruned.dag hg) hhashes' hvalid' hbefore'
  refine ⟨⟨filled, filled', hrun, hrun', fun i hi k hk hik => ?_⟩, hpruned.childrenFirst_iff⟩
  rw [hfilled' k hk, hfilled i hi, hpruned.expression hg hik]

/-- The column of `differenceGraph` and the first negation over it. -/
def negationGraph : OpGraph where
  operations := [{ op := .COLUMN }, { op := .NEG }]
  graphMapping := [[], [0]]

theorem pruned_hashes_sample :
    ∃ filled filled', fillNodeHashes differenceGraph.graphMapping differenceGraph.operations
        [0, 2, 1, 3] [0, 0, 0, 0] = some filled ∧
      fillNodeHashes negationGraph.graphMapping negationGraph.operations [0, 1] [7, 7] =
        some filled' ∧ Cpp.index filled' 1 = Cpp.index filled 1 := by
  let s := Cpp.Sorter.stable ℤ
  have hpair : [0, 1].Sublist (visitedNodesOrder s [2, 1, 0, 0]) :=
    s.sublist_of_lt strictWeak_visitedLater (by decide) (by decide) (by decide)
  have hlength : (visitedNodesOrder s [2, 1, 0, 0]).length = 2 :=
    (s.perm strictWeak_visitedLater _).length_eq
  have hmap : visitedLeaveMap s [2, 1, 0, 0] = numberNodes 0 [0, 1] ∅ := by
    rw [visitedLeaveMap, ← visitedNodesOrder, ← hpair.eq_of_length hlength.symm]
  have hdag : differenceGraph.Dag := dag_of_childrenFirst rfl (by decide)
  have hvisited : fillVisited differenceGraph.graphMapping
      (List.replicate differenceGraph.size 0) 1 1 = some [2, 1, 0, 0] := rfl
  have hgraph : mapMappingGraph differenceGraph.graphMapping
      (visitedLeaveMap s [2, 1, 0, 0]) = some negationGraph.graphMapping := by rw [hmap]; rfl
  have hoperations : mapOperations differenceGraph.operations
      (visitedLeaveMap s [2, 1, 0, 0]) = some negationGraph.operations := by rw [hmap]; rfl
  have hbefore : ChildrenBefore differenceGraph.graphMapping [0, 2, 1, 3] :=
    childrenBefore_of_take (by decide)
  have hbefore' : ChildrenBefore negationGraph.graphMapping [0, 1] :=
    childrenBefore_of_take (by decide)
  obtain ⟨⟨filled, filled', hrun, hrun', hsame⟩, -⟩ := pruned_hashes hdag
    (by decide : differenceGraph.Valid 1) (le_refl 1) (by decide) hvisited hgraph hoperations
    (by decide) (by decide) hbefore hbefore'
    (show ([0, 0, 0, 0] : List NodeHash).length = differenceGraph.size from rfl)
    (show ([7, 7] : List NodeHash).length = negationGraph.size from rfl)
  exact ⟨filled, filled', hrun, hrun', hsame 1 (by decide) 1 (by decide) (by rw [hmap]; rfl)⟩

end Query

end DistStorage
