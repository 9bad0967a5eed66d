import DistStorage.Cpp.Integer
import DistStorage.Cpp.OrderedMap
import DistStorage.Cpp.Sort
import DistStorage.Cpp.Vector
import DistStorage.Digraph.SearchTree

/-!
# Visited nodes

`fillVisited` gives the nodes below a start node a positive number, one more at
every call, and `visitedNodesOrder` and `visitedLeaveMap` arrange the visited
nodes by decreasing number. A node keeps the number of the first call for it, so
a child that is met early on a short walk can have a number no greater than that
of a parent met later on a long one. What matters is the depth of the first walk
to a node, in the order of the lists of children.
-/

namespace DistStorage

namespace Query

def childList (graphMapping : List (List ℤ)) (i : ℤ) : List ℤ :=
  (Cpp.index graphMapping i).getD []

def IsNode (graphMapping : List (List ℤ)) (i : ℤ) : Prop := 0 ≤ i ∧ i < graphMapping.length

/-- Every child is a node. -/
def ValidEdges (graphMapping : List (List ℤ)) : Prop :=
  ∀ children ∈ graphMapping, ∀ c ∈ children, IsNode graphMapping c

instance (graphMapping : List (List ℤ)) (i : ℤ) : Decidable (IsNode graphMapping i) :=
  inferInstanceAs (Decidable (_ ∧ _))

instance (graphMapping : List (List ℤ)) : Decidable (ValidEdges graphMapping) :=
  inferInstanceAs (Decidable (∀ children ∈ graphMapping, ∀ c ∈ children, _))

/-- The recursion of `fillVisited`, cut off at a depth. It is undefined for a
node out of range and when the number exceeds an `int`. -/
def fillVisitedFuel (graphMapping : List (List ℤ)) : ℕ → List ℤ → ℤ → ℤ → Option (List ℤ)
  | 0, _, _, _ => none
  | fuel + 1, visited, node, value =>
      (Cpp.index visited node).bind fun _ =>
        (Cpp.index graphMapping node).bind fun children =>
          children.foldlM (fun visited child =>
            (Cpp.index visited child).bind fun mark =>
              if mark = 0 then
                (Cpp.intSucc value).bind (fillVisitedFuel graphMapping fuel visited child)
              else some visited)
            (Cpp.modify visited node fun _ => value)

/-- Every call below another one visits one more node, which bounds the depth of
the calls. -/
def fillVisited (graphMapping : List (List ℤ)) (visited : List ℤ) (node value : ℤ) :
    Option (List ℤ) :=
  fillVisitedFuel graphMapping (graphMapping.length + 1) visited node value

def mark (visited : List ℤ) (i : ℤ) : ℤ := (Cpp.index visited i).getD 0

/-- The visited nodes in the order of the vector. -/
def visitedNodes (visited : List ℤ) : List ℤ :=
  ((List.range visited.length).map Nat.cast).filter fun i => mark visited i ≠ 0

/-- The comparison of the source, which puts the greater number first. -/
def visitedLater (visited : List ℤ) (a b : ℤ) : Bool := decide (mark visited b < mark visited a)

def visitedNodesOrder (s : Cpp.Sorter ℤ) (visited : List ℤ) : List ℤ :=
  s.sort (visitedLater visited) (visitedNodes visited)

def numberNodes : ℤ → List ℤ → Cpp.OrderedMap ℤ ℤ → Cpp.OrderedMap ℤ ℤ
  | _, [], newMapping => newMapping
  | i, node :: rest, newMapping => numberNodes (i + 1) rest (newMapping.insert node i)

def visitedLeaveMap (s : Cpp.Sorter ℤ) (visited : List ℤ) : Cpp.OrderedMap ℤ ℤ :=
  numberNodes 0 (s.sort (visitedLater visited) (visitedNodes visited)) ∅

/-- The numbers of the nodes, given their depths and the number of the start. -/
def depthMarks (n : ℕ) (value : ℤ) (depth : ℤ → Option ℕ) : List ℤ :=
  (List.range n).map fun i : ℕ => (depth i).elim 0 fun d => value + d

def Fits (value : ℤ) (depth : ℤ → Option ℕ) : Prop :=
  ∀ v d, depth v = some d → value + d ≤ Cpp.intMax

/-- A run gives the numbers of a search, and is undefined when they do not
fit. -/
def Follows (n : ℕ) (value : ℤ) (run : Option (List ℤ)) (depth : ℤ → Option ℕ) : Prop :=
  ∀ visited, run = some visited ↔ Fits value depth ∧ depthMarks n value depth = visited

section Numbers

variable {n : ℕ} {value : ℤ} {depth : ℤ → Option ℕ}

theorem length_depthMarks : (depthMarks n value depth).length = n := by
  rw [depthMarks, List.length_map, List.length_range]

theorem index_depthMarks {i : ℤ} (h : 0 ≤ i ∧ i < n) :
    Cpp.index (depthMarks n value depth) i = some ((depth i).elim 0 fun d => value + d) := by
  obtain ⟨k, rfl⟩ := Int.eq_ofNat_of_zero_le h.1
  have hk : k < n := by exact_mod_cast h.2
  rw [Cpp.index_natCast, depthMarks, List.getElem?_map, List.getElem?_range hk]
  rfl

theorem modify_depthMarks (i : ℤ) (d : ℕ) :
    Cpp.modify (depthMarks n value depth) i (fun _ => value + d) =
      depthMarks n value (Function.update depth i (some d)) := by
  refine Cpp.ext_index fun j => ?_
  by_cases hj : 0 ≤ j ∧ j < n
  · rw [Cpp.index_modify, index_depthMarks hj, index_depthMarks hj]
    by_cases hij : i = j
    · rw [if_pos hij, ← hij, Function.update_self, Option.map_some, Option.elim_some]
    · rw [if_neg hij, Function.update_of_ne (Ne.symm hij)]
  · rw [Cpp.index_eq_none, Cpp.index_eq_none]
    · rwa [length_depthMarks]
    · rwa [Cpp.length_modify, length_depthMarks]

theorem Follows.of_fits (h : Fits value depth) :
    Follows n value (some (depthMarks n value depth)) depth := by
  intro visited
  rw [Option.some_inj]
  exact (and_iff_right h).symm

theorem Follows.of_not_fits (h : ¬Fits value depth) : Follows n value none depth :=
  fun _ => iff_of_false nofun fun hfits => h hfits.1

theorem Follows.eq_none {run : Option (List ℤ)} (h : Follows n value run depth)
    (hfits : ¬Fits value depth) : run = none :=
  Option.eq_none_iff_forall_ne_some.mpr fun visited hrun => hfits ((h visited).mp hrun).1

theorem Follows.eq_some {run : Option (List ℤ)} (h : Follows n value run depth)
    (hfits : Fits value depth) : run = some (depthMarks n value depth) :=
  (h _).mpr ⟨hfits, rfl⟩

/-- A loop follows a fold when its body follows every step, and the steps keep
the numbers there are. -/
theorem Follows.foldlM {body : List ℤ → ℤ → Option (List ℤ)} {P : (ℤ → Option ℕ) → Prop}
    {step : (ℤ → Option ℕ) → ℤ → ℤ → Option ℕ} {l : List ℤ}
    (hbody : ∀ depth, P depth → Fits value depth → ∀ c ∈ l,
      Follows n value (body (depthMarks n value depth) c) (step depth c))
    (hkept : ∀ depth, P depth → ∀ c ∈ l, P (step depth c))
    (hstep : ∀ (l : List ℤ) depth, Fits value (l.foldl step depth) → Fits value depth)
    (hP : P depth) (hfits : Fits value depth) :
    Follows n value (l.foldlM body (depthMarks n value depth)) (l.foldl step depth) := by
  induction l generalizing depth with
  | nil => exact .of_fits hfits
  | cons c l ih =>
      have hc := hbody depth hP hfits c List.mem_cons_self
      rw [List.foldlM_cons, List.foldl_cons]
      by_cases hfits' : Fits value (step depth c)
      · rw [hc.eq_some hfits']
        exact ih (fun depth hP hdepth c' hc' =>
            hbody depth hP hdepth c' (List.mem_cons_of_mem c hc'))
          (fun depth hP c' hc' => hkept depth hP c' (List.mem_cons_of_mem c hc'))
          (hkept depth hP c List.mem_cons_self) hfits'
      · rw [hc.eq_none hfits']
        exact .of_not_fits fun h => hfits' (hstep l _ h)

end Numbers

section Fill

variable {graphMapping : List (List ℤ)} {value : ℤ}

theorem isNode_of_mem_childList (h : ValidEdges graphMapping) {p c : ℤ}
    (hc : c ∈ childList graphMapping p) : IsNode graphMapping c := by
  unfold childList at hc
  cases hp : Cpp.index graphMapping p with
  | none => simp [hp] at hc
  | some children =>
      rw [hp, Option.getD_some] at hc
      exact h children (Cpp.mem_of_index hp) c hc

theorem index_eq_childList {i : ℤ} (h : IsNode graphMapping i) :
    Cpp.index graphMapping i = some (childList graphMapping i) := by
  obtain ⟨children, hi⟩ :=
    Option.isSome_iff_exists.mp ((Cpp.index_isSome_iff graphMapping i).mpr h)
  rw [childList, hi, Option.getD_some]

theorem acyclic_of_rank (rank : ℤ → ℕ)
    (h : ∀ k < graphMapping.length, ∀ c ∈ childList graphMapping k, rank c < rank k) :
    Digraph.Acyclic (childList graphMapping) := by
  have hrank : Digraph.IsRank (childList graphMapping) rank := by
    intro p c hc
    by_cases hp : IsNode graphMapping p
    · obtain ⟨k, rfl⟩ := Int.eq_ofNat_of_zero_le hp.1
      exact h k (by exact_mod_cast hp.2) c hc
    · rw [childList, Cpp.index_eq_none hp] at hc
      cases hc
  exact hrank.acyclic

def nodeSet (graphMapping : List (List ℤ)) : Finset ℤ :=
  (Finset.range graphMapping.length).image Nat.cast

theorem mem_nodeSet {i : ℤ} : i ∈ nodeSet graphMapping ↔ IsNode graphMapping i := by
  simp only [nodeSet, Finset.mem_image, Finset.mem_range]
  constructor
  · rintro ⟨k, hk, rfl⟩
    exact ⟨Int.natCast_nonneg k, by exact_mod_cast hk⟩
  · rintro ⟨h0, hlt⟩
    exact ⟨i.toNat, by omega, Int.toNat_of_nonneg h0⟩

theorem card_nodeSet_le : (nodeSet graphMapping).card ≤ graphMapping.length :=
  Finset.card_image_le.trans_eq (Finset.card_range _)

theorem mem_nodeSet_of_mem_childList (hvalid : ValidEdges graphMapping) (p : ℤ) :
    ∀ c ∈ childList graphMapping p, c ∈ nodeSet graphMapping :=
  fun _ hc => mem_nodeSet.mpr (isNode_of_mem_childList hvalid hc)

/-- The numbers are the start value and the depths of a depth first search, when the
calls may go as deep as there are nodes without a number. -/
theorem fillVisitedFuel_follows (hvalid : ValidEdges graphMapping) (hvalue : 1 ≤ value)
    {fuel d : ℕ} {node : ℤ} {depth : ℤ → Option ℕ} (hnode : IsNode graphMapping node)
    (hfuel : Digraph.unmarked (nodeSet graphMapping) depth < fuel)
    (hfits : Fits value depth) (hmark : depth node = none) (hmax : value + d ≤ Cpp.intMax) :
    Follows graphMapping.length value
      (fillVisitedFuel graphMapping fuel (depthMarks graphMapping.length value depth) node
        (value + d))
      (Digraph.search (childList graphMapping) fuel depth node d) := by
  induction fuel generalizing node depth d with
  | zero => omega
  | succ fuel ih =>
      have hless := Digraph.unmarked_update_lt (d := d) (mem_nodeSet.mpr hnode) hmark
      rw [fillVisitedFuel, index_depthMarks hnode, Option.bind_some, index_eq_childList hnode,
        Option.bind_some, modify_depthMarks, Digraph.search]
      apply Follows.foldlM (P := fun depth =>
        Digraph.unmarked (nodeSet graphMapping) depth < fuel)
      · intro depth hunmarked hdepth c hc
        have hc' : IsNode graphMapping c := isNode_of_mem_childList hvalid hc
        rw [index_depthMarks hc', Option.bind_some]
        cases hcmark : depth c with
        | some e =>
            have hne : value + (e : ℤ) ≠ 0 := by omega
            rw [Option.elim_some, if_neg hne, if_neg (Option.some_ne_none e)]
            exact .of_fits hdepth
        | none =>
            rw [Option.elim_none, if_pos rfl, if_pos rfl]
            by_cases hover : value + (d : ℤ) = Cpp.intMax
            · rw [Cpp.intSucc, if_pos hover]
              refine .of_not_fits fun h => ?_
              obtain ⟨fuel, rfl⟩ : ∃ k, fuel = k + 1 := Nat.exists_eq_add_one.mpr (by omega)
              have hle := h c (d + 1) Digraph.search_self
              push_cast at hle
              omega
            · have hnext : value + (d : ℤ) + 1 = value + (d + 1 : ℕ) := by
                push_cast
                omega
              rw [Cpp.intSucc, if_neg hover, Option.bind_some, hnext]
              exact ih hc' hunmarked hdepth hcmark (by omega)
      · intro depth hunmarked c hc
        refine (Digraph.unmarked_le fun v e hv => ?_).trans_lt hunmarked
        split_ifs with hcmark
        · exact Digraph.search_of_mark hcmark hv
        · exact hv
      · intro l depth h v e hv
        exact h v e (Digraph.foldl_search_of_mark Digraph.search_of_mark l hv)
      · omega
      · intro v e hv
        by_cases hvn : v = node
        · rw [hvn, Function.update_self] at hv
          obtain rfl := Option.some.inj hv
          exact hmax
        · rw [Function.update_of_ne hvn] at hv
          exact hfits v e hv

/-- The length of the first walk from the start to a node, in the order of the
lists of children. -/
def firstDepth (graphMapping : List (List ℤ)) (start : ℤ) : ℤ → Option ℕ :=
  Digraph.firstDepth (childList graphMapping) (graphMapping.length + 1) start

theorem exists_nodeRank (hvalid : ValidEdges graphMapping)
    (hacyclic : Digraph.Acyclic (childList graphMapping)) :
    ∃ rank, Digraph.IsRank (childList graphMapping) rank ∧
      ∀ i, rank i < graphMapping.length + 1 := by
  obtain ⟨rank, hrank, hle⟩ :=
    Digraph.exists_rank _ (mem_nodeSet_of_mem_childList hvalid) hacyclic
  exact ⟨rank, hrank, fun i => Nat.lt_succ_of_le ((hle i).trans card_nodeSet_le)⟩

theorem depthMarks_none {n : ℕ} : depthMarks n value (fun _ => none) = List.replicate n 0 :=
  List.map_const' .. |>.trans (by rw [List.length_range, Option.elim_none])

theorem firstDepth_ne_none_iff (hvalid : ValidEdges graphMapping)
    (hacyclic : Digraph.Acyclic (childList graphMapping)) (start v : ℤ) :
    firstDepth graphMapping start v ≠ none ↔
      Relation.ReflTransGen (Digraph.IsChild (childList graphMapping)) v start := by
  obtain ⟨rank, hrank, hlt⟩ := exists_nodeRank hvalid hacyclic
  exact Digraph.firstDepth_ne_none_iff hrank (hlt start) v

/-- A run from the start on, over a vector of zeros. -/
theorem fillVisitedFuel_follows_search (hvalid : ValidEdges graphMapping) (hvalue : 1 ≤ value)
    (hmax : value ≤ Cpp.intMax) {start : ℤ} (hstart : IsNode graphMapping start) {fuel : ℕ}
    (hfuel : graphMapping.length < fuel) :
    Follows graphMapping.length value
      (fillVisitedFuel graphMapping fuel (List.replicate graphMapping.length 0) start value)
      (Digraph.search (childList graphMapping) fuel (fun _ => none) start 0) := by
  have hunmarked : Digraph.unmarked (nodeSet graphMapping) (fun _ => none) < fuel :=
    ((Finset.card_filter_le _ _).trans card_nodeSet_le).trans_lt hfuel
  have h := fillVisitedFuel_follows hvalid hvalue hstart hunmarked (d := 0)
    (fun v d hv => nomatch hv) rfl (by rwa [Nat.cast_zero, add_zero])
  rwa [depthMarks_none, Nat.cast_zero, add_zero] at h

theorem fillVisited_follows (hvalid : ValidEdges graphMapping)
    (hacyclic : Digraph.Acyclic (childList graphMapping)) (hvalue : 1 ≤ value)
    (hmax : value ≤ Cpp.intMax) {start : ℤ} (hstart : IsNode graphMapping start) :
    Follows graphMapping.length value
      (fillVisited graphMapping (List.replicate graphMapping.length 0) start value)
      (firstDepth graphMapping start) := by
  obtain ⟨rank, hrank, hlt⟩ := exists_nodeRank hvalid hacyclic
  have hdepth : firstDepth graphMapping start = Digraph.search (childList graphMapping)
      (graphMapping.length + 1) (fun _ => none) start 0 :=
    funext fun v => (Digraph.search_none hrank (hlt start) v).symm
  rw [hdepth]
  exact fillVisitedFuel_follows_search hvalid hvalue hmax hstart (Nat.lt_succ_self _)

end Fill

section Order

variable {visited : List ℤ}

theorem mark_depthMarks {n : ℕ} {value : ℤ} {depth : ℤ → Option ℕ} {i : ℤ} (h : 0 ≤ i ∧ i < n) :
    mark (depthMarks n value depth) i = (depth i).elim 0 fun d => value + d := by
  rw [mark, index_depthMarks h, Option.getD_some]

theorem mem_visitedNodes {i : ℤ} : i ∈ visitedNodes visited ↔ mark visited i ≠ 0 := by
  rw [visitedNodes, List.mem_filter, decide_eq_true_iff]
  refine and_iff_right_of_imp fun h => ?_
  have hi : 0 ≤ i ∧ i < visited.length := by
    by_contra hout
    exact h (by rw [mark, Cpp.index_eq_none hout, Option.getD_none])
  exact List.mem_map.mpr ⟨i.toNat, by simp; omega, Int.toNat_of_nonneg hi.1⟩

theorem nodup_visitedNodes : (visitedNodes visited).Nodup :=
  (List.nodup_range.map Nat.cast_injective).filter _

theorem strictWeak_visitedLater : Cpp.StrictWeak (visitedLater visited) :=
  Cpp.strictWeak_of_key (mark visited)

theorem nodup_visitedNodesOrder (s : Cpp.Sorter ℤ) : (visitedNodesOrder s visited).Nodup :=
  s.nodup_sort strictWeak_visitedLater nodup_visitedNodes

theorem mem_visitedNodesOrder (s : Cpp.Sorter ℤ) {i : ℤ} :
    i ∈ visitedNodesOrder s visited ↔ mark visited i ≠ 0 :=
  (s.mem_sort strictWeak_visitedLater).trans mem_visitedNodes

theorem find_numberNodes_iff {l : List ℤ} (hl : l.Nodup) {i : ℤ} {m : Cpp.OrderedMap ℤ ℤ}
    (hm : ∀ x ∈ l, m.find x = none) (x j : ℤ) :
    (numberNodes i l m).find x = some j ↔
      (∃ k : ℕ, l[k]? = some x ∧ j = i + k) ∨ m.find x = some j := by
  induction l generalizing i m with
  | nil => simp [numberNodes]
  | cons a l ih =>
      obtain ⟨ha, hl⟩ := List.nodup_cons.mp hl
      have hm' : ∀ x ∈ l, (m.insert a i).find x = none := by
        intro x hx
        have hxa : x ≠ a := fun h => ha (h ▸ hx)
        rw [Cpp.OrderedMap.find_insert, if_neg hxa]
        exact hm x (List.mem_cons_of_mem a hx)
      rw [numberNodes, ih hl hm', Cpp.OrderedMap.find_insert]
      constructor
      · rintro (⟨k, hk, rfl⟩ | hfind)
        · refine .inl ⟨k + 1, hk, ?_⟩
          push_cast
          omega
        · split_ifs at hfind with hxa
          · obtain rfl := Option.some.inj hfind
            exact .inl ⟨0, by simp [hxa], by simp⟩
          · exact .inr hfind
      · rintro (⟨k, hk, rfl⟩ | hfind)
        · cases k with
          | zero =>
              obtain rfl : a = x := by simpa using hk
              exact .inr (by simp)
          | succ k =>
              refine .inl ⟨k, by simpa using hk, ?_⟩
              push_cast
              omega
        · have hxa : x ≠ a := by
            rintro rfl
            rw [hm x List.mem_cons_self] at hfind
            cases hfind
          rw [if_neg hxa]
          exact .inr hfind

theorem find_visitedLeaveMap_iff (s : Cpp.Sorter ℤ) (x j : ℤ) :
    (visitedLeaveMap s visited).find x = some j ↔
      ∃ k : ℕ, (visitedNodesOrder s visited)[k]? = some x ∧ j = k := by
  rw [visitedLeaveMap, ← visitedNodesOrder, find_numberNodes_iff (nodup_visitedNodesOrder s)
    fun _ _ => rfl]
  simp

end Order

/-- Every node of an order comes after all of its children. -/
def ChildrenBefore (graphMapping : List (List ℤ)) (order : List ℤ) : Prop :=
  ∀ (k : ℕ) (p : ℤ), order[k]? = some p → ∀ c ∈ childList graphMapping p,
    ∃ j < k, order[j]? = some c

/-- Every numbered node has a greater number than all of its children. -/
def ChildrenNumberedBefore (graphMapping : List (List ℤ)) (newMapping : Cpp.OrderedMap ℤ ℤ) :
    Prop :=
  ∀ p k, newMapping.find p = some k → ∀ c ∈ childList graphMapping p,
    ∃ j < k, newMapping.find c = some j

/-- Of the nodes below the start every child is first met on a longer walk than
its parent. -/
def FirstDeeper (graphMapping : List (List ℤ)) (start : ℤ) : Prop :=
  ∀ p d, firstDepth graphMapping start p = some d → ∀ c ∈ childList graphMapping p, ∀ e,
    firstDepth graphMapping start c = some e → d < e

section Order

variable {graphMapping : List (List ℤ)} {visited : List ℤ}

theorem childrenNumberedBefore_of_childrenBefore {s : Cpp.Sorter ℤ}
    (h : ChildrenBefore graphMapping (visitedNodesOrder s visited)) :
    ChildrenNumberedBefore graphMapping (visitedLeaveMap s visited) := by
  intro p i hi c hc
  obtain ⟨k, hk, rfl⟩ := (find_visitedLeaveMap_iff s p i).mp hi
  obtain ⟨j, hjk, hj⟩ := h k p hk c hc
  exact ⟨j, by exact_mod_cast hjk, (find_visitedLeaveMap_iff s c j).mpr ⟨j, hj, rfl⟩⟩

/-- Whatever is done with ties, the order puts the children first exactly when
every child of a visited node has a greater number. -/
theorem forall_childrenBefore_iff
    (hclosed : ∀ p, mark visited p ≠ 0 → ∀ c ∈ childList graphMapping p, mark visited c ≠ 0) :
    (∀ s, ChildrenBefore graphMapping (visitedNodesOrder s visited)) ↔
      ∀ p, mark visited p ≠ 0 → ∀ c ∈ childList graphMapping p,
        mark visited p < mark visited c := by
  have hpair : ∀ p, mark visited p ≠ 0 → ∀ c ∈ childList graphMapping p,
      ((∀ s : Cpp.Sorter ℤ, [c, p].Sublist (visitedNodesOrder s visited)) ↔
        mark visited p < mark visited c) := by
    intro p hp c hc
    refine (Cpp.Sorter.forall_sublist_iff strictWeak_visitedLater nodup_visitedNodes
      (mem_visitedNodes.mpr (hclosed p hp c hc)) (mem_visitedNodes.mpr hp)).trans ?_
    exact decide_eq_true_iff
  constructor
  · intro h p hp c hc
    refine (hpair p hp c hc).mp fun s => ?_
    obtain ⟨k, hk⟩ := List.mem_iff_getElem?.mp ((mem_visitedNodesOrder s).mpr hp)
    exact (Cpp.pair_sublist_iff (nodup_visitedNodesOrder s) hk).mpr (h s k p hk c hc)
  · intro h s k p hk c hc
    have hp : mark visited p ≠ 0 := (mem_visitedNodesOrder s).mp (List.mem_of_getElem? hk)
    exact (Cpp.pair_sublist_iff (nodup_visitedNodesOrder s) hk).mp
      ((hpair p hp c hc).mpr (h p hp c hc) s)

end Order

section FirstDepth

variable {graphMapping : List (List ℤ)} {start value : ℤ}

theorem exists_firstDepth_child (hvalid : ValidEdges graphMapping)
    (hacyclic : Digraph.Acyclic (childList graphMapping)) {p c : ℤ} {d : ℕ}
    (hp : firstDepth graphMapping start p = some d) (hc : c ∈ childList graphMapping p) :
    ∃ e, firstDepth graphMapping start c = some e := by
  have hreach := firstDepth_ne_none_iff hvalid hacyclic start
  have hp' : firstDepth graphMapping start p ≠ none := by simp [hp]
  exact Option.ne_none_iff_exists'.mp ((hreach c).mpr (((hreach p).mp hp').head hc))

theorem isNode_of_firstDepth (hvalid : ValidEdges graphMapping)
    (hacyclic : Digraph.Acyclic (childList graphMapping)) (hstart : IsNode graphMapping start)
    {p : ℤ} {d : ℕ} (hp : firstDepth graphMapping start p = some d) : IsNode graphMapping p := by
  have hp' : firstDepth graphMapping start p ≠ none := by simp [hp]
  rcases ((firstDepth_ne_none_iff hvalid hacyclic start p).mp hp').cases_head with
    rfl | ⟨q, hq, -⟩
  · exact hstart
  · exact isNode_of_mem_childList hvalid hq

theorem mark_of_firstDepth (hvalid : ValidEdges graphMapping)
    (hacyclic : Digraph.Acyclic (childList graphMapping)) (hstart : IsNode graphMapping start)
    {p : ℤ} {d : ℕ} (hp : firstDepth graphMapping start p = some d) :
    mark (depthMarks graphMapping.length value (firstDepth graphMapping start)) p = value + d := by
  rw [mark_depthMarks (isNode_of_firstDepth hvalid hacyclic hstart hp), hp, Option.elim_some]

theorem exists_firstDepth_of_mark {p : ℤ}
    (hp : mark (depthMarks graphMapping.length value (firstDepth graphMapping start)) p ≠ 0) :
    ∃ d, firstDepth graphMapping start p = some d := by
  refine Option.ne_none_iff_exists'.mp fun hnone => hp ?_
  by_cases hin : IsNode graphMapping p
  · rw [mark_depthMarks hin, hnone, Option.elim_none]
  · rw [mark, Cpp.index_eq_none, Option.getD_none]
    rwa [length_depthMarks]

/-- The visited nodes can be taken children first, whatever is done with ties,
exactly when every child is first met on a longer walk than its parent, and the
numbers fit an `int`. -/
theorem visitedOrder_childrenBefore_iff (hvalid : ValidEdges graphMapping)
    (hacyclic : Digraph.Acyclic (childList graphMapping)) (hstart : IsNode graphMapping start)
    (hvalue : 1 ≤ value) (hmax : value ≤ Cpp.intMax) :
    (∃ visited, fillVisited graphMapping (List.replicate graphMapping.length 0) start value =
        some visited ∧ ∀ s, ChildrenBefore graphMapping (visitedNodesOrder s visited) ∧
          ChildrenNumberedBefore graphMapping (visitedLeaveMap s visited)) ↔
      FirstDeeper graphMapping start ∧ Fits value (firstDepth graphMapping start) := by
  have hrun := fillVisited_follows hvalid hacyclic hvalue hmax hstart
  have hmark : ∀ {p d}, firstDepth graphMapping start p = some d →
      mark (depthMarks graphMapping.length value (firstDepth graphMapping start)) p = value + d :=
    mark_of_firstDepth hvalid hacyclic hstart
  have hne : ∀ {p d}, firstDepth graphMapping start p = some d →
      mark (depthMarks graphMapping.length value (firstDepth graphMapping start)) p ≠ 0 := by
    intro p d hp
    rw [hmark hp]
    omega
  have hclosed : ∀ p,
      mark (depthMarks graphMapping.length value (firstDepth graphMapping start)) p ≠ 0 →
      ∀ c ∈ childList graphMapping p,
        mark (depthMarks graphMapping.length value (firstDepth graphMapping start)) c ≠ 0 := by
    intro p hp c hc
    obtain ⟨d, hd⟩ := exists_firstDepth_of_mark hp
    obtain ⟨e, he⟩ := exists_firstDepth_child hvalid hacyclic hd hc
    exact hne he
  have horder := forall_childrenBefore_iff hclosed
  constructor
  · rintro ⟨visited, hsome, hbefore⟩
    obtain ⟨hfits, rfl⟩ := (hrun visited).mp hsome
    refine ⟨fun p d hp c hc e he => ?_, hfits⟩
    have hlt := horder.mp (fun s => (hbefore s).1) p (hne hp) c hc
    rw [hmark hp, hmark he] at hlt
    omega
  · rintro ⟨hdeeper, hfits⟩
    refine ⟨_, hrun.eq_some hfits, fun s => ?_⟩
    have hbefore := horder.mpr (fun p hp c hc => by
      obtain ⟨d, hd⟩ := exists_firstDepth_of_mark hp
      obtain ⟨e, he⟩ := exists_firstDepth_child hvalid hacyclic hd hc
      have hlt := hdeeper p d hd c hc e he
      rw [hmark hd, hmark he]
      omega) s
    exact ⟨hbefore, childrenNumberedBefore_of_childrenBefore hbefore⟩

end FirstDepth

def chainGraph : List (List ℤ) := [[], [0]]

theorem visitedOrder_childrenBefore_iff_sample :
    ∃ visited, fillVisited chainGraph (List.replicate chainGraph.length 0) 1 1 = some visited ∧
      ∀ s, ChildrenBefore chainGraph (visitedNodesOrder s visited) ∧
        ChildrenNumberedBefore chainGraph (visitedLeaveMap s visited) := by
  have hacyclic : Digraph.Acyclic (childList chainGraph) := acyclic_of_rank Int.toNat (by decide)
  have hdepth : firstDepth chainGraph 1 = fun v => [((1 : ℤ), 0), (0, 1)].lookup v := rfl
  have hcases : ∀ p d, firstDepth chainGraph 1 p = some d → p = 1 ∧ d = 0 ∨ p = 0 ∧ d = 1 := by
    intro p d hp
    rw [hdepth] at hp
    by_cases h1 : p = 1
    · subst h1
      exact .inl ⟨rfl, (Option.some.inj hp).symm⟩
    · by_cases h0 : p = 0
      · subst h0
        exact .inr ⟨rfl, (Option.some.inj hp).symm⟩
      · simp [List.lookup_cons, beq_false_of_ne h1, beq_false_of_ne h0] at hp
  refine (visitedOrder_childrenBefore_iff (by decide) hacyclic (by decide) le_rfl
    (by decide)).mpr ⟨?_, ?_⟩
  · intro p d hp c hc e he
    rcases hcases p d hp with ⟨rfl, rfl⟩ | ⟨rfl, rfl⟩
    · obtain rfl : c = 0 := List.mem_singleton.mp hc
      rcases hcases 0 e he with ⟨h, -⟩ | ⟨-, rfl⟩
      · cases h
      · decide
    · cases hc
  · intro v d hv
    rcases hcases v d hv with ⟨rfl, rfl⟩ | ⟨rfl, rfl⟩ <;> decide

/-- The last node shares the first one with the second and meets it at once,
before the walk over the third and the second. -/
def sharedGraph : List (List ℤ) := [[], [0], [1], [0, 2]]

/-- The second node comes before its child in every order. -/
theorem sharedGraph_not_childrenBefore :
    ValidEdges sharedGraph ∧ Digraph.Acyclic (childList sharedGraph) ∧
      fillVisited sharedGraph (List.replicate sharedGraph.length 0) 3 1 = some [2, 3, 2, 1] ∧
      ∀ s, ¬ChildrenBefore sharedGraph (visitedNodesOrder s [2, 3, 2, 1]) ∧
        ¬ChildrenNumberedBefore sharedGraph (visitedLeaveMap s [2, 3, 2, 1]) := by
  refine ⟨by decide, acyclic_of_rank Int.toNat (by decide), rfl, fun s => ?_⟩
  have hpair : [1, 0].Sublist (visitedNodesOrder s [2, 3, 2, 1]) :=
    s.sublist_of_lt strictWeak_visitedLater (by decide) (by decide) (by decide)
  have hnodup : (visitedNodesOrder s [2, 3, 2, 1]).Nodup := nodup_visitedNodesOrder s
  obtain ⟨k, hk⟩ := List.mem_iff_getElem?.mp (hpair.subset List.mem_cons_self)
  have hnot : ¬∃ j < k, (visitedNodesOrder s [2, 3, 2, 1])[j]? = some 0 := fun h =>
    Cpp.not_pair_sublist hnodup hpair ((Cpp.pair_sublist_iff hnodup hk).mpr h)
  refine ⟨fun h => hnot (h k 1 hk 0 (by decide)), fun h => ?_⟩
  obtain ⟨j, hjk, hj⟩ := h 1 k ((find_visitedLeaveMap_iff s 1 k).mpr ⟨k, hk, rfl⟩) 0 (by decide)
  obtain ⟨i, hi, rfl⟩ := (find_visitedLeaveMap_iff s 0 j).mp hj
  exact hnot ⟨i, by exact_mod_cast hjk, hi⟩

end Query

end DistStorage
