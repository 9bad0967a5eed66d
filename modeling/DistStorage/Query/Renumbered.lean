import DistStorage.Query.QueryGraph
import DistStorage.Query.Visited

/-!
# Renumbering the visited nodes

`visitedLeaveMap` numbers the visited nodes by their position in the order, and
`mapMappingGraph` and `mapOperations` write the graph of these nodes under the
new numbers. The children go through the numbering, and the operations are
copied as they are, with the identifier of the data frame that is part of
them.
-/

namespace DistStorage

namespace Query

/-- The loop over the children of a node, undefined when the new number of the
node is out of range. -/
def mapChildren (newMapping : Cpp.OrderedMap ℤ ℤ) (node1Mapped : ℤ)
    (newGraphMapping : List (List ℤ)) (vec : List ℤ) : Option (List (List ℤ)) :=
  vec.foldlM (fun newGraphMapping node2 =>
    match newMapping.find node2 with
    | none => some newGraphMapping
    | some node2Mapped =>
        (Cpp.index newGraphMapping node1Mapped).map fun _ =>
          Cpp.modify newGraphMapping node1Mapped fun children => children ++ [node2Mapped])
    newGraphMapping

def mapMappingGraph (graphMapping : List (List ℤ)) (newMapping : Cpp.OrderedMap ℤ ℤ) :
    Option (List (List ℤ)) :=
  ((List.range graphMapping.length).map Nat.cast).foldlM (fun newGraphMapping node1 =>
    match newMapping.find node1 with
    | none => some newGraphMapping
    | some node1Mapped =>
        mapChildren newMapping node1Mapped newGraphMapping (childList graphMapping node1))
    (List.replicate newMapping.entries.length [])

/-- Undefined when a number or a node is out of range. -/
def mapOperations (operations : List Operation) (newMapping : Cpp.OrderedMap ℤ ℤ) :
    Option (List Operation) :=
  newMapping.entries.foldlM (fun newOperations m =>
    (Cpp.index operations m.1).bind fun operation =>
      (Cpp.index newOperations m.2).map fun _ =>
        Cpp.modify newOperations m.2 fun _ => operation)
    (List.replicate newMapping.entries.length default)

/-- The entries of a map number its keys one to one with the first numbers. -/
structure IsNumbering (newMapping : Cpp.OrderedMap ℤ ℤ) : Prop where
  injective : ∀ i j k, newMapping.find i = some k → newMapping.find j = some k → i = j
  onto : ∀ k, (∃ i, newMapping.find i = some k) ↔ 0 ≤ k ∧ k < newMapping.entries.length

theorem length_numberNodes {l : List ℤ} (hl : l.Nodup) {i : ℤ} {m : Cpp.OrderedMap ℤ ℤ}
    (hm : ∀ x ∈ l, m.find x = none) :
    (numberNodes i l m).entries.length = m.entries.length + l.length := by
  induction l generalizing i m with
  | nil => rfl
  | cons a l ih =>
      obtain ⟨ha, hl⟩ := List.nodup_cons.mp hl
      have hm' : ∀ x ∈ l, (m.insert a i).find x = none := by
        intro x hx
        have hxa : x ≠ a := fun h => ha (h ▸ hx)
        rw [Cpp.OrderedMap.find_insert, if_neg hxa]
        exact hm x (List.mem_cons_of_mem a hx)
      rw [numberNodes, ih hl hm', Cpp.OrderedMap.length_entries_insert (hm a List.mem_cons_self),
        List.length_cons]
      omega

theorem length_visitedLeaveMap (s : Cpp.Sorter ℤ) (visited : List ℤ) :
    (visitedLeaveMap s visited).entries.length = (visitedNodes visited).length := by
  rw [visitedLeaveMap, ← visitedNodesOrder,
    length_numberNodes (nodup_visitedNodesOrder s) fun _ _ => rfl,
    visitedNodesOrder, (s.perm strictWeak_visitedLater _).length_eq]
  exact Nat.zero_add _

theorem isNumbering_visitedLeaveMap (s : Cpp.Sorter ℤ) (visited : List ℤ) :
    IsNumbering (visitedLeaveMap s visited) where
  injective i j k hi hj := by
    obtain ⟨n, hn, rfl⟩ := (find_visitedLeaveMap_iff s i k).mp hi
    obtain ⟨n', hn', heq⟩ := (find_visitedLeaveMap_iff s j n).mp hj
    obtain rfl : n = n' := by exact_mod_cast heq
    exact Option.some.inj (hn.symm.trans hn')
  onto k := by
    have hlength : (visitedNodesOrder s visited).length =
        (visitedLeaveMap s visited).entries.length := by
      rw [length_visitedLeaveMap]
      exact (s.perm strictWeak_visitedLater _).length_eq
    rw [← hlength]
    constructor
    · rintro ⟨i, hi⟩
      obtain ⟨n, hn, rfl⟩ := (find_visitedLeaveMap_iff s i k).mp hi
      obtain ⟨hlt, -⟩ := List.getElem?_eq_some_iff.mp hn
      exact ⟨by omega, by exact_mod_cast hlt⟩
    · rintro ⟨h0, hlt⟩
      obtain ⟨n, rfl⟩ := Int.eq_ofNat_of_zero_le h0
      have hn : n < (visitedNodesOrder s visited).length := by exact_mod_cast hlt
      exact ⟨_, (find_visitedLeaveMap_iff s _ n).mpr ⟨n, List.getElem?_eq_getElem hn, rfl⟩⟩

theorem exists_find_visitedLeaveMap_iff (s : Cpp.Sorter ℤ) (visited : List ℤ) (i : ℤ) :
    (∃ k, (visitedLeaveMap s visited).find i = some k) ↔ mark visited i ≠ 0 := by
  rw [← mem_visitedNodesOrder s, List.mem_iff_getElem?]
  constructor
  · rintro ⟨k, hk⟩
    obtain ⟨n, hn, -⟩ := (find_visitedLeaveMap_iff s i k).mp hk
    exact ⟨n, hn⟩
  · rintro ⟨n, hn⟩
    exact ⟨n, (find_visitedLeaveMap_iff s i n).mpr ⟨n, hn, rfl⟩⟩

section Map

variable {newMapping : Cpp.OrderedMap ℤ ℤ}

theorem mapChildren_eq {k : ℤ} {new : List (List ℤ)} (hk : 0 ≤ k ∧ k < new.length)
    (vec : List ℤ) :
    mapChildren newMapping k new vec =
      some (Cpp.modify new k fun children => children ++ vec.filterMap newMapping.find) := by
  unfold mapChildren
  induction vec generalizing new with
  | nil =>
      simp only [List.foldlM_nil, List.filterMap_nil, List.append_nil, Cpp.modify_id]
      rfl
  | cons c vec ih =>
      rw [List.foldlM_cons]
      cases hc : newMapping.find c with
      | none =>
          rw [List.filterMap_cons_none hc]
          exact ih hk
      | some m =>
          obtain ⟨row, hrow⟩ :=
            Option.isSome_iff_exists.mp ((Cpp.index_isSome_iff new k).mpr hk)
          have hk' : 0 ≤ k ∧ k < (Cpp.modify new k fun children => children ++ [m]).length := by
            rwa [Cpp.length_modify]
          rw [List.filterMap_cons_some hc]
          simp only [hrow, Option.map_some]
          refine (ih hk').trans ?_
          rw [Cpp.modify_modify]
          simp only [List.append_assoc, List.singleton_append]

/-- Under a numbering of nodes the children of a node are renumbered in place,
and those without a number are left out. -/
theorem mapMappingGraph_eq (graphMapping : List (List ℤ)) (h : IsNumbering newMapping)
    (hnode : ∀ i k, newMapping.find i = some k → IsNode graphMapping i) :
    ∃ g', mapMappingGraph graphMapping newMapping = some g' ∧
      g'.length = newMapping.entries.length ∧
      ∀ i k, newMapping.find i = some k →
        childList g' k = (childList graphMapping i).filterMap newMapping.find := by
  obtain ⟨g', hrun, hlength, -, hdone⟩ := Cpp.foldlM_modify
    (fun new node1 =>
      match newMapping.find node1 with
      | none => some new
      | some node1Mapped =>
          mapChildren newMapping node1Mapped new (childList graphMapping node1))
    newMapping.find
    (fun i children => children ++ (childList graphMapping i).filterMap newMapping.find)
    ((List.range graphMapping.length).map Nat.cast)
    (List.replicate newMapping.entries.length [])
    (by
      intro i _ new hnew
      cases hi : newMapping.find i with
      | none => rfl
      | some k =>
          have hk := (h.onto k).mp ⟨i, hi⟩
          rw [List.length_replicate] at hnew
          exact mapChildren_eq (by rwa [hnew]) (childList graphMapping i))
    (List.Pairwise.imp (fun hij k hi hj => hij (h.injective _ _ k hi hj))
      (List.nodup_range.map Nat.cast_injective))
  rw [List.length_replicate] at hlength
  refine ⟨g', hrun, hlength, fun i k hi => ?_⟩
  have hmem : i ∈ (List.range graphMapping.length).map Nat.cast := by
    obtain ⟨h0, hlt⟩ := hnode i k hi
    exact List.mem_map.mpr ⟨i.toNat, by simp; omega, Int.toNat_of_nonneg h0⟩
  have hrow : Cpp.index (List.replicate newMapping.entries.length ([] : List ℤ)) k = some [] := by
    obtain ⟨h0, hlt⟩ := (h.onto k).mp ⟨i, hi⟩
    obtain ⟨n, rfl⟩ := Int.eq_ofNat_of_zero_le h0
    exact List.getElem?_replicate_of_lt (by exact_mod_cast hlt)
  rw [childList, hdone i hmem k hi, hrow]
  rfl

theorem mapOperations_eq (operations : List Operation) (h : IsNumbering newMapping)
    (hnode : ∀ i k, newMapping.find i = some k → 0 ≤ i ∧ i < operations.length) :
    ∃ operations', mapOperations operations newMapping = some operations' ∧
      operations'.length = newMapping.entries.length ∧
      ∀ i k, newMapping.find i = some k → Cpp.index operations' k = Cpp.index operations i := by
  obtain ⟨operations', hrun, hlength, -, hdone⟩ := Cpp.foldlM_modify
    (fun new m =>
      (Cpp.index operations m.1).bind fun operation =>
        (Cpp.index new m.2).map fun _ => Cpp.modify new m.2 fun _ => operation)
    (fun m => some m.2) (fun m _ => (Cpp.index operations m.1).getD default)
    newMapping.entries (List.replicate newMapping.entries.length default)
    (by
      rintro ⟨i, k⟩ hmem new hnew
      rw [Cpp.OrderedMap.mem_entries_iff] at hmem
      rw [List.length_replicate] at hnew
      obtain ⟨o, ho⟩ := Option.isSome_iff_exists.mp
        ((Cpp.index_isSome_iff operations i).mpr (hnode i k hmem))
      obtain ⟨o', ho'⟩ := Option.isSome_iff_exists.mp
        ((Cpp.index_isSome_iff new k).mpr (hnew ▸ (h.onto k).mp ⟨i, hmem⟩))
      simp only [ho, ho', Option.bind_some, Option.map_some, Option.elim_some, Option.getD_some])
    (newMapping.sorted.imp_of_mem fun {m m'} hm hm' hlt k hk hk' => by
      obtain ⟨i, n⟩ := m
      obtain ⟨j, n'⟩ := m'
      rw [Cpp.OrderedMap.mem_entries_iff] at hm hm'
      obtain rfl := Option.some.inj hk
      obtain rfl := Option.some.inj hk'
      exact absurd (h.injective i j _ hm hm') hlt.ne)
  rw [List.length_replicate] at hlength
  refine ⟨operations', hrun, hlength, fun i k hi => ?_⟩
  have hmem : (i, k) ∈ newMapping.entries := (Cpp.OrderedMap.mem_entries_iff _ i k).mpr hi
  obtain ⟨o, ho⟩ := Option.isSome_iff_exists.mp
    ((Cpp.index_isSome_iff operations i).mpr (hnode i k hi))
  have hdefault : ∃ o', Cpp.index
      (List.replicate newMapping.entries.length (default : Operation)) k = some o' := by
    rw [← Option.isSome_iff_exists, Cpp.index_isSome_iff, List.length_replicate]
    exact (h.onto k).mp ⟨i, hi⟩
  obtain ⟨o', ho'⟩ := hdefault
  rw [hdone (i, k) hmem k rfl, ho', ho]
  rfl

end Map

theorem valid_of_mark {g : OpGraph} {visited : List ℤ} (hvisited : visited.length = g.size) {i : ℤ}
    (hi : mark visited i ≠ 0) : g.Valid i := by
  by_contra hout
  have hout' : ¬(0 ≤ i ∧ i < visited.length) := by rwa [hvisited]
  exact hi (by rw [mark, Cpp.index_eq_none hout', Option.getD_none])

/-- The numbering maps the visited nodes one to one onto the first numbers, and
the two functions that apply it give the graph of the visited nodes: every
operation at its number, with the children of the node that are visited, in
order and with repetitions. -/
theorem visitedLeaveMap_induced {g : OpGraph}
    (hlengths : g.graphMapping.length = g.operations.length) {visited : List ℤ}
    (hvisited : visited.length = g.size) (s : Cpp.Sorter ℤ) :
    IsNumbering (visitedLeaveMap s visited) ∧
      (∀ i, (∃ k, (visitedLeaveMap s visited).find i = some k) ↔
        g.Valid i ∧ mark visited i ≠ 0) ∧
      (visitedLeaveMap s visited).entries.length = (visitedNodes visited).length ∧
      ∃ g' : OpGraph, mapMappingGraph g.graphMapping (visitedLeaveMap s visited) =
          some g'.graphMapping ∧
        mapOperations g.operations (visitedLeaveMap s visited) = some g'.operations ∧
        g'.graphMapping.length = (visitedNodes visited).length ∧
        g'.operations.length = (visitedNodes visited).length ∧
        ∀ i k, (visitedLeaveMap s visited).find i = some k →
          g'.operation k = g.operation i ∧
          g'.children k = (g.children i).filterMap (visitedLeaveMap s visited).find := by
  have hnumbering := isNumbering_visitedLeaveMap s visited
  have hcount := length_visitedLeaveMap s visited
  have hmem : ∀ i, (∃ k, (visitedLeaveMap s visited).find i = some k) ↔
      g.Valid i ∧ mark visited i ≠ 0 := by
    intro i
    rw [exists_find_visitedLeaveMap_iff]
    exact (and_iff_right_of_imp (valid_of_mark hvisited)).symm
  have hnode : ∀ i k, (visitedLeaveMap s visited).find i = some k →
      0 ≤ i ∧ i < g.operations.length := fun i k hi => ((hmem i).mp ⟨k, hi⟩).1
  obtain ⟨graphMapping, hgraph, hlength, hchildren⟩ := mapMappingGraph_eq g.graphMapping
    hnumbering fun i k hi => by
      rw [IsNode, hlengths]
      exact hnode i k hi
  obtain ⟨operations, hoperations, hlength', hoperation⟩ := mapOperations_eq g.operations hnumbering
    hnode
  refine ⟨hnumbering, hmem, hcount, ⟨operations, graphMapping⟩, hgraph, hoperations,
    hlength.trans hcount, hlength'.trans hcount, fun i k hi => ⟨?_, hchildren i k hi⟩⟩
  rw [OpGraph.operation, OpGraph.operation, hoperation i k hi]

def columnGraph : OpGraph where
  operations := [{ op := .TABLE, df := 0 }, { op := .COLUMN, df := 2 }, { op := .DF, df := 2 }]
  graphMapping := [[], [], [1, 0, 1]]

theorem visitedLeaveMap_induced_sample :
    ∃ g' : OpGraph, mapMappingGraph columnGraph.graphMapping
        (visitedLeaveMap (.stable ℤ) [0, 2, 1]) = some g'.graphMapping ∧
      mapOperations columnGraph.operations (visitedLeaveMap (.stable ℤ) [0, 2, 1]) =
        some g'.operations ∧
      g'.graphMapping.length = 2 ∧ g'.operations.length = 2 := by
  obtain ⟨-, -, -, g', hgraph, hoperations, hlength, hlength', -⟩ :=
    visitedLeaveMap_induced (g := columnGraph) rfl
      (show ([0, 2, 1] : List ℤ).length = columnGraph.size from rfl) (.stable ℤ)
  exact ⟨g', hgraph, hoperations, hlength, hlength'⟩

def NamesDataFrame (o : Operation) : Prop :=
  o.df ≠ nodeNone ∧ ¬(isLiteral o.op = true ∧ o.df = 0)

instance (o : Operation) : Decidable (NamesDataFrame o) := inferInstanceAs (Decidable (_ ∧ _))

def renumberedDf (newMapping : Cpp.OrderedMap ℤ ℤ) (o : Operation) : Option ℤ :=
  if NamesDataFrame o then newMapping.find o.df else some o.df

/-- Every operation refers to the data frame it referred to before. -/
def DfsRenumbered (newMapping : Cpp.OrderedMap ℤ ℤ) (operations operations' : List Operation) :
    Prop :=
  ∀ i k o, newMapping.find i = some k → Cpp.index operations i = some o →
    ∃ o', Cpp.index operations' k = some o' ∧ some o'.df = renumberedDf newMapping o

/-- The node is alone with its number, and as many nodes have a greater one as
its identifier says. -/
def Stays (visited : List ℤ) (i : ℤ) : Prop :=
  ((visitedNodes visited).countP fun j => mark visited i < mark visited j : ℕ) = i ∧
    ∀ j, mark visited j = mark visited i → j = i

theorem forall_find_eq_self_iff {visited : List ℤ} {i : ℤ} (hi : mark visited i ≠ 0) :
    (∀ s, (visitedLeaveMap s visited).find i = some i) ↔ Stays visited i := by
  have hties : (∀ j ∈ visitedNodes visited, visitedLater visited i j = false →
      visitedLater visited j i = false → j = i) ↔ ∀ j, mark visited j = mark visited i → j = i := by
    constructor
    · intro h j hj
      refine h j (mem_visitedNodes.mpr (hj ▸ hi)) ?_ ?_ <;> simp [visitedLater, hj]
    · intro h j _ hij hji
      refine h j (le_antisymm ?_ ?_)
      · simpa [visitedLater] using hji
      · simpa [visitedLater] using hij
  have hfind : ∀ k : ℕ, i = k → ((∀ s, (visitedLeaveMap s visited).find i = some i) ↔
      ∀ s : Cpp.Sorter ℤ, (visitedNodesOrder s visited)[k]? = some i) := by
    rintro k rfl
    refine forall_congr' fun s => (find_visitedLeaveMap_iff s _ _).trans ?_
    constructor
    · rintro ⟨n, hn, heq⟩
      obtain rfl : k = n := by exact_mod_cast heq
      exact hn
    · exact fun hk => ⟨k, hk, rfl⟩
  by_cases h0 : 0 ≤ i
  · obtain ⟨k, rfl⟩ := Int.eq_ofNat_of_zero_le h0
    rw [hfind k rfl, Stays, Nat.cast_inj, ← hties]
    exact Cpp.Sorter.forall_getElem?_iff strictWeak_visitedLater nodup_visitedNodes
      (mem_visitedNodes.mpr hi)
  · refine iff_of_false (fun h => ?_) fun h => h0 (by rw [← h.1]; exact Int.natCast_nonneg _)
    obtain ⟨n, -, hn⟩ := (find_visitedLeaveMap_iff _ _ _).mp (h (Cpp.Sorter.stable ℤ))
    exact h0 (by rw [hn]; exact Int.natCast_nonneg n)

/-- The data frames are renumbered for every order of ties exactly when all that
are named stay where they are. -/
theorem mapOperations_dfs_iff {g : OpGraph} {visited : List ℤ} (hvisited : visited.length = g.size)
    (hdf : ∀ i, mark visited i ≠ 0 → (g.operation i).df = nodeNone ∨
      isLiteral (g.operation i).op = true ∧ (g.operation i).df = 0 ∨
        mark visited (g.operation i).df ≠ 0) :
    (∀ s, ∃ operations', mapOperations g.operations (visitedLeaveMap s visited) =
        some operations' ∧
          DfsRenumbered (visitedLeaveMap s visited) g.operations operations') ↔
      ∀ i, mark visited i ≠ 0 → NamesDataFrame (g.operation i) →
        Stays visited (g.operation i).df := by
  have hindex : ∀ {i}, mark visited i ≠ 0 →
      Cpp.index g.operations i = some (g.operation i) := by
    intro i hi
    obtain ⟨o, ho⟩ := Option.isSome_iff_exists.mp
      ((Cpp.index_isSome_iff _ i).mpr (valid_of_mark hvisited hi))
    rw [OpGraph.operation, ho, Option.getD_some]
  have hrun : ∀ s, ∃ operations', mapOperations g.operations (visitedLeaveMap s visited) =
      some operations' ∧ ∀ i k, (visitedLeaveMap s visited).find i = some k →
        Cpp.index operations' k = Cpp.index g.operations i := by
    intro s
    obtain ⟨operations', hoperations, -, hsame⟩ := mapOperations_eq g.operations
      (isNumbering_visitedLeaveMap s visited) fun i k hi =>
        valid_of_mark hvisited ((exists_find_visitedLeaveMap_iff s visited i).mp ⟨k, hi⟩)
    exact ⟨operations', hoperations, hsame⟩
  have hnamed : ∀ {i}, mark visited i ≠ 0 → NamesDataFrame (g.operation i) →
      mark visited (g.operation i).df ≠ 0 := by
    intro i hi hnames
    rcases hdf i hi with hnone | hliteral | hmark
    · exact absurd hnone hnames.1
    · exact absurd hliteral hnames.2
    · exact hmark
  constructor
  · intro hall i hi hnames
    refine (forall_find_eq_self_iff (hnamed hi hnames)).mp fun s => ?_
    obtain ⟨operations', hsome, hrenumbered⟩ := hall s
    obtain ⟨operations'', hsome', hsame⟩ := hrun s
    obtain rfl := Option.some.inj (hsome.symm.trans hsome')
    obtain ⟨k, hk⟩ := (exists_find_visitedLeaveMap_iff s visited i).mpr hi
    obtain ⟨o', ho', hdf'⟩ := hrenumbered i k _ hk (hindex hi)
    rw [hsame i k hk, hindex hi] at ho'
    obtain rfl := Option.some.inj ho'
    rw [renumberedDf, if_pos hnames] at hdf'
    exact hdf'.symm
  · intro hstays s
    obtain ⟨operations', hsome, hsame⟩ := hrun s
    refine ⟨operations', hsome, fun i k o hk ho => ⟨o, (hsame i k hk).trans ho, ?_⟩⟩
    have hi := (exists_find_visitedLeaveMap_iff s visited i).mp ⟨k, hk⟩
    obtain rfl := Option.some.inj (ho.symm.trans (hindex hi))
    rw [renumberedDf]
    split_ifs with hnames
    · exact ((forall_find_eq_self_iff (hnamed hi hnames)).mpr (hstays i hi hnames) s).symm
    · rfl

def literalGraph : OpGraph where
  operations := [{ op := .CONST, df := 0 }, { op := .DF, df := 1 }]
  graphMapping := [[], [0]]

theorem mapOperations_dfs_iff_sample :
    ∃ operations', mapOperations literalGraph.operations (visitedLeaveMap (.stable ℤ) [2, 1]) =
        some operations' ∧
      DfsRenumbered (visitedLeaveMap (.stable ℤ) [2, 1]) literalGraph.operations operations' := by
  have hcases : ∀ i, mark [2, 1] i ≠ 0 → i = 0 ∨ i = 1 := by
    intro i hi
    obtain ⟨h0, hlt⟩ := valid_of_mark (g := literalGraph) rfl hi
    have hsize : literalGraph.size = 2 := rfl
    omega
  have hvisited : ([2, 1] : List ℤ).length = literalGraph.size := rfl
  refine (mapOperations_dfs_iff hvisited ?_).mpr ?_ _
  · intro i hi
    rcases hcases i hi with rfl | rfl
    · exact .inr (.inl ⟨rfl, rfl⟩)
    · exact .inr (.inr (by decide))
  · intro i hi hnames
    rcases hcases i hi with rfl | rfl
    · exact absurd ⟨rfl, rfl⟩ hnames.2
    · refine ⟨by decide, fun j hj => ?_⟩
      have hj0 : mark [2, 1] j ≠ 0 := by
        rw [hj]
        decide
      rcases hcases j hj0 with rfl | rfl
      · cases hj
      · rfl

/-- The column and the data frame still name the second node as their data
frame, which is not there any more. -/
theorem columnGraph_not_renumbered :
    (∀ i, mark [0, 2, 1] i ≠ 0 → mark [0, 2, 1] (columnGraph.operation i).df ≠ 0) ∧
      ∀ s, ∃ operations', mapOperations columnGraph.operations (visitedLeaveMap s [0, 2, 1]) =
          some operations' ∧
        ¬DfsRenumbered (visitedLeaveMap s [0, 2, 1]) columnGraph.operations operations' := by
  constructor
  · intro i hi
    obtain ⟨h0, hlt⟩ := valid_of_mark (g := columnGraph) rfl hi
    have hsize : columnGraph.size = 3 := rfl
    obtain rfl | rfl | rfl : i = 0 ∨ i = 1 ∨ i = 2 := by omega
    · exact absurd rfl hi
    · decide
    · decide
  · intro s
    have hpair : [1, 2].Sublist (visitedNodesOrder s [0, 2, 1]) :=
      s.sublist_of_lt strictWeak_visitedLater (by decide) (by decide) (by decide)
    have hlength : (visitedNodesOrder s [0, 2, 1]).length = 2 :=
      (s.perm strictWeak_visitedLater _).length_eq
    have horder : [1, 2] = visitedNodesOrder s [0, 2, 1] := hpair.eq_of_length hlength.symm
    have hmap : visitedLeaveMap s [0, 2, 1] = numberNodes 0 [1, 2] ∅ := by
      rw [visitedLeaveMap, ← visitedNodesOrder, ← horder]
    rw [hmap]
    refine ⟨_, rfl, fun h => ?_⟩
    obtain ⟨o', ho', hdf⟩ := h 1 0 _ rfl rfl
    obtain rfl := Option.some.inj ho'
    cases hdf

end Query

end DistStorage
