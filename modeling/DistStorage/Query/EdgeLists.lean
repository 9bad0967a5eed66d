import DistStorage.Cpp.Buckets
import DistStorage.Query.Visited

/-!
# Lists of edges

A graph is kept as the lists of children, `getEdgesList` lists its edges instead, and
`getGraphMapping` goes back. `revertGraphMapping` turns every edge round. All of them
keep every edge as often as it is there; the order of the children is lost when a graph
is turned round, since the edges come in the order of their first nodes.

The nodes are counted by an `int`, and so are the edges, in the size of the vector that
is to hold them.
-/

namespace DistStorage

namespace Query

open Cpp

/-- `push_back` to the list at an index, which is to be in range. -/
def pushBack (graphMapping : List (List ℤ)) (edge : ℤ × ℤ) : Option (List (List ℤ)) :=
  (index graphMapping edge.1).map fun _ => pushAt graphMapping edge

def getGraphMapping (edges : List (ℤ × ℤ)) : Option (List (List ℤ)) :=
  let n := edges.foldl (fun n edge => max (max n edge.1) edge.2) 0
  (intSucc n).bind fun n => edges.foldlM pushBack (List.replicate (sizeOfInt n) [])

def forEdges {σ : Type} (body : σ → ℤ × ℤ → Option σ) : ℤ → List (List ℤ) → σ → Option σ
  | _, [], s => some s
  | i, children :: rest, s =>
      (children.foldlM (fun s j => body s (i, j)) s).bind fun s =>
        (intSucc i).bind fun i => forEdges body i rest s

def revertGraphMapping (graphMapping : List (List ℤ)) : Option (List (List ℤ)) :=
  forEdges (fun reversed edge => pushBack reversed edge.swap) 0 graphMapping
    (List.replicate graphMapping.length [])

def countEdges (graphMapping : List (List ℤ)) : ℤ :=
  graphMapping.foldl (fun l children => intOfSize (sizeT (sizeOfInt l + children.length))) 0

/-- `edges[l++] = edge`. -/
def putEdge (s : List (ℤ × ℤ) × ℤ) (edge : ℤ × ℤ) : Option (List (ℤ × ℤ) × ℤ) :=
  (index s.1 s.2).bind fun _ =>
    (intSucc s.2).map fun l => (modify s.1 s.2 fun _ => edge, l)

/-- A vector of pairs has fewer than `2 ^ 60` elements, and a greater size throws
`std::length_error`. -/
def getEdgesList (graphMapping : List (List ℤ)) : Option (List (ℤ × ℤ)) :=
  let l := countEdges graphMapping
  if sizeOfInt l < 2 ^ 60 then
    (forEdges putEdge 0 graphMapping (List.replicate (sizeOfInt l) (0, 0), 0)).map Prod.fst
  else none

section Loops

variable {σ : Type} {body : σ → ℤ × ℤ → Option σ}

/-- The two loops are one loop over the edges, as long as the nodes can be counted. -/
theorem forEdges_eq {k : ℕ} {graphMapping : List (List ℤ)} (h : k + graphMapping.length < 2 ^ 31)
    (s : σ) : forEdges body k graphMapping s = (entriesFrom k graphMapping).foldlM body s := by
  induction graphMapping generalizing k s with
  | nil => rfl
  | cons children rest ih =>
      rw [List.length_cons] at h
      rw [forEdges, entriesFrom, List.foldlM_append, List.foldlM_map]
      refine Option.bind_congr fun s' _ => ?_
      rw [intSucc_natCast (by omega), Option.bind_some, ih (by omega)]
      push_cast
      rfl

theorem forEdges_zero {graphMapping : List (List ℤ)} (h : graphMapping.length < 2 ^ 31) (s : σ) :
    forEdges body 0 graphMapping s = (entriesFrom 0 graphMapping).foldlM body s :=
  forEdges_eq (k := 0) (by omega) s

theorem forEdges_of_long {k : ℕ} {graphMapping : List (List ℤ)} (hk : k < 2 ^ 31)
    (h : 2 ^ 31 ≤ k + graphMapping.length) (s : σ) : forEdges body k graphMapping s = none := by
  induction graphMapping generalizing k s with
  | nil =>
      rw [List.length_nil] at h
      omega
  | cons children rest ih =>
      rw [List.length_cons] at h
      rw [forEdges, Option.bind_eq_none_iff]
      intro s' _
      by_cases hlast : k + 1 < 2 ^ 31
      · rw [intSucc_natCast hlast]
        exact ih hlast (by omega) s'
      · rw [intSucc_natCast_last hk hlast]
        rfl

theorem foldlM_pushBack {graphMapping : List (List ℤ)} {edges : List (ℤ × ℤ)}
    (h : ∀ e ∈ edges, IsNode graphMapping e.1) :
    edges.foldlM pushBack graphMapping = some (edges.foldl pushAt graphMapping) := by
  induction edges generalizing graphMapping with
  | nil => rfl
  | cons e edges ih =>
      obtain ⟨he, hrest⟩ := List.forall_mem_cons.mp h
      obtain ⟨children, hchildren⟩ :=
        Option.isSome_iff_exists.mp ((index_isSome_iff graphMapping e.1).mpr he)
      have hpush : pushBack graphMapping e = some (pushAt graphMapping e) := by
        rw [pushBack, hchildren, Option.map_some]
      rw [List.foldlM_cons, hpush, List.foldl_cons]
      refine ih fun e' he' => ?_
      rw [IsNode, pushAt, length_modify]
      exact hrest e' he'

end Loops

section Counting

variable {graphMapping : List (List ℤ)}

def edgeCount (graphMapping : List (List ℤ)) : ℕ := (graphMapping.map List.length).sum

theorem intOfSize_congr {x y : ℕ} (h : x % 2 ^ 32 = y % 2 ^ 32) : intOfSize x = intOfSize y := by
  unfold intOfSize
  rw [Int.bmod_def, Int.bmod_def]
  omega

theorem sizeOfInt_intOfSize_mod (x : ℕ) : sizeOfInt (intOfSize x) % 2 ^ 32 = x % 2 ^ 32 := by
  unfold sizeOfInt intOfSize
  rw [Int.bmod_def]
  omega

theorem countEdges_eq (graphMapping : List (List ℤ)) :
    countEdges graphMapping = intOfSize (edgeCount graphMapping) := by
  have hadd : ∀ t k : ℕ,
      intOfSize (sizeT (sizeOfInt (intOfSize t) + k)) = intOfSize (t + k) := by
    intro t k
    have hmod := sizeOfInt_intOfSize_mod t
    refine intOfSize_congr ?_
    rw [sizeT]
    omega
  have hfold : ∀ t : ℕ, graphMapping.foldl
      (fun l children => intOfSize (sizeT (sizeOfInt l + children.length))) (intOfSize t) =
        intOfSize (t + edgeCount graphMapping) := by
    induction graphMapping with
    | nil =>
        intro t
        rw [List.foldl_nil, edgeCount, List.map_nil, List.sum_nil, add_zero]
    | cons children rest ih =>
        intro t
        have hcons : edgeCount (children :: rest) = children.length + edgeCount rest := rfl
        rw [List.foldl_cons, hadd, ih, hcons, add_assoc]
  calc countEdges graphMapping = intOfSize (0 + edgeCount graphMapping) := hfold 0
    _ = intOfSize (edgeCount graphMapping) := by rw [zero_add]

theorem foldlM_putEdge {edges : List (ℤ × ℤ)} (done : List (ℤ × ℤ)) {k : ℕ}
    (hroom : edges.length ≤ k) (hmax : done.length + edges.length < 2 ^ 31) :
    edges.foldlM putEdge (done ++ List.replicate k (0, 0), (done.length : ℤ)) =
      some (done ++ edges ++ List.replicate (k - edges.length) (0, 0),
        ((done.length + edges.length : ℕ) : ℤ)) := by
  induction edges generalizing done k with
  | nil => simp
  | cons e edges ih =>
      rw [List.length_cons] at hroom hmax
      obtain ⟨k, rfl⟩ := Nat.exists_eq_add_one.mpr (by omega : 0 < k)
      have hput : putEdge (done ++ List.replicate (k + 1) (0, 0), (done.length : ℤ)) e =
          some (done ++ [e] ++ List.replicate k (0, 0), ((done ++ [e]).length : ℤ)) := by
        have hindex : index (done ++ List.replicate (k + 1) (0, 0)) (done.length : ℤ) =
            some ((0, 0) : ℤ × ℤ) := index_append_length done _ 0
        rw [putEdge, hindex, Option.bind_some, intSucc_natCast (by omega), Option.map_some,
          modify_append_length, List.replicate_succ, List.modifyHead_cons, List.length_append,
          List.length_singleton, List.append_assoc, List.singleton_append]
      rw [List.foldlM_cons, hput]
      change edges.foldlM putEdge _ = _
      rw [ih (done ++ [e]) (by omega) (by rw [List.length_append, List.length_singleton]; omega)]
      simp only [List.append_assoc, List.singleton_append, List.length_append, List.length_cons,
        List.length_nil, Nat.add_sub_add_right, Option.some_inj, Prod.mk.injEq, true_and]
      omega

theorem length_le_of_foldlM_putEdge {edges : List (ℤ × ℤ)} {s s' : List (ℤ × ℤ) × ℤ}
    (h : edges.foldlM putEdge s = some s') (hl : s.2 ≤ s.1.length) :
    s.2 + edges.length ≤ s.1.length := by
  induction edges generalizing s with
  | nil => simpa using hl
  | cons e edges ih =>
      rw [List.foldlM_cons] at h
      obtain ⟨t, ht, hrest⟩ := Option.bind_eq_some_iff.mp h
      obtain ⟨old, hold, ht⟩ := Option.bind_eq_some_iff.mp ht
      obtain ⟨l, hnext, rfl⟩ := Option.map_eq_some_iff.mp ht
      have hrange := (index_isSome_iff s.1 s.2).mp (hold ▸ rfl)
      have hl' : l = s.2 + 1 := by
        rw [intSucc] at hnext
        split_ifs at hnext
        exact (Option.some.inj hnext).symm
      have hle := ih hrest (by simp only [length_modify]; omega)
      rw [length_modify] at hle
      rw [List.length_cons]
      push_cast
      omega

/-- The edges are listed exactly as long as an `int` can count them. -/
theorem getEdgesList_eq_iff (hlength : graphMapping.length < 2 ^ 31) :
    getEdgesList graphMapping = some (entriesFrom 0 graphMapping) ↔
      edgeCount graphMapping < 2 ^ 31 := by
  have hedges : (entriesFrom 0 graphMapping).length = edgeCount graphMapping :=
    length_entriesFrom 0 graphMapping
  rw [getEdgesList, countEdges_eq]
  constructor
  · intro h
    split_ifs at h with hsize
    obtain ⟨s, hs, -⟩ := Option.map_eq_some_iff.mp h
    rw [forEdges_zero hlength] at hs
    have hle := length_le_of_foldlM_putEdge hs (Int.natCast_nonneg _)
    dsimp only at hle
    rw [List.length_replicate, zero_add, hedges] at hle
    unfold sizeOfInt intOfSize at hsize hle
    rw [Int.bmod_def] at hsize hle
    omega
  · intro hcount
    rw [intOfSize_of_lt hcount, sizeOfInt_natCast (by omega), if_pos (by omega),
      forEdges_zero hlength]
    have hput := foldlM_putEdge [] (le_of_eq hedges) (by rw [hedges]; simpa using hcount)
    rw [List.nil_append, List.nil_append, hedges, Nat.sub_self, List.replicate_zero,
      List.append_nil, List.length_nil, Nat.cast_zero] at hput
    rw [hput]
    rfl

end Counting

section Turned

variable {graphMapping : List (List ℤ)}

/-- The graph with all edges turned round. -/
def turned (graphMapping : List (List ℤ)) : List (List ℤ) :=
  ((entriesFrom 0 graphMapping).map Prod.swap).foldl pushAt
    (List.replicate graphMapping.length [])

theorem length_turned : (turned graphMapping).length = graphMapping.length := by
  rw [turned, length_foldl_pushAt, List.length_replicate]

theorem isNode_of_mem_edges {e : ℤ × ℤ} (hvalid : ValidEdges graphMapping)
    (he : e ∈ entriesFrom 0 graphMapping) :
    IsNode graphMapping e.1 ∧ IsNode graphMapping e.2 := by
  obtain ⟨hle, hlt, children, hchildren, hchild⟩ := mem_entriesFrom he
  exact ⟨⟨hle, by rwa [zero_add] at hlt⟩, hvalid children hchildren e.2 hchild⟩

theorem isNode_of_mem_swapped (hvalid : ValidEdges graphMapping) :
    ∀ e ∈ (entriesFrom 0 graphMapping).map Prod.swap, IsNode graphMapping e.1 := by
  intro e he
  obtain ⟨e', he', rfl⟩ := List.mem_map.mp he
  exact (isNode_of_mem_edges hvalid he').2

theorem edges_turned_perm (hvalid : ValidEdges graphMapping) :
    (entriesFrom 0 (turned graphMapping)).Perm ((entriesFrom 0 graphMapping).map Prod.swap) :=
  entriesFrom_foldl_pushAt_perm (isNode_of_mem_swapped hvalid)

theorem edgeCount_turned (hvalid : ValidEdges graphMapping) :
    edgeCount (turned graphMapping) = edgeCount graphMapping := by
  have hlength := (edges_turned_perm hvalid).length_eq
  rwa [List.length_map, length_entriesFrom, length_entriesFrom] at hlength

theorem validEdges_turned (hvalid : ValidEdges graphMapping) :
    ValidEdges (turned graphMapping) := by
  intro children hchildren c hc
  obtain ⟨i, hi⟩ := exists_mem_entriesFrom 0 hchildren hc
  obtain ⟨e, he, hswap⟩ := List.mem_map.mp ((edges_turned_perm hvalid).mem_iff.mp hi)
  obtain rfl : e.1 = c := congrArg Prod.snd hswap
  rw [IsNode, length_turned]
  exact (isNode_of_mem_edges hvalid he).1

theorem childList_turned_turned (hvalid : ValidEdges graphMapping) (i : ℤ) :
    (childList (turned (turned graphMapping)) i).Pairwise (· ≤ ·) ∧
      (childList (turned (turned graphMapping)) i).Perm (childList graphMapping i) := by
  have hbucket : childList (turned (turned graphMapping)) i =
      bucket ((entriesFrom 0 (turned graphMapping)).map Prod.swap) i :=
    getD_foldl_pushAt (isNode_of_mem_swapped (validEdges_turned hvalid)) i
  have hperm : ((entriesFrom 0 (turned graphMapping)).map Prod.swap).Perm
      (entriesFrom 0 graphMapping) := by
    have hswap := (edges_turned_perm hvalid).map Prod.swap
    rwa [List.map_map, Prod.swap_swap_eq, List.map_id] at hswap
  have hsame : bucket (entriesFrom 0 graphMapping) i = childList graphMapping i := by
    rw [bucket_entriesFrom, sub_zero, childList]
  rw [hbucket, ← hsame]
  exact ⟨pairwise_bucket_swap (pairwise_entriesFrom 0 _) i, bucket_perm hperm i⟩

theorem revertGraphMapping_eq (hvalid : ValidEdges graphMapping)
    (hlength : graphMapping.length < 2 ^ 31) :
    revertGraphMapping graphMapping = some (turned graphMapping) := by
  have hrange : ∀ e ∈ (entriesFrom 0 graphMapping).map Prod.swap,
      IsNode (List.replicate graphMapping.length []) e.1 := by
    intro e he
    rw [IsNode, List.length_replicate]
    exact isNode_of_mem_swapped hvalid e he
  rw [revertGraphMapping, forEdges_zero hlength]
  exact List.foldlM_map.symm.trans (foldlM_pushBack hrange)

theorem revertGraphMapping_of_long (hlength : 2 ^ 31 ≤ graphMapping.length) :
    revertGraphMapping graphMapping = none :=
  forEdges_of_long (k := 0) (by omega) (by omega) _

/-- The greatest number among the nodes of the edges and a start value. -/
theorem foldl_max_eq {edges : List (ℤ × ℤ)} {a m : ℤ} (ha : a ≤ m)
    (hle : ∀ e ∈ edges, e.1 ≤ m ∧ e.2 ≤ m) (hm : a = m ∨ ∃ e ∈ edges, e.1 = m ∨ e.2 = m) :
    edges.foldl (fun n edge => max (max n edge.1) edge.2) a = m := by
  induction edges generalizing a with
  | nil => simpa using hm
  | cons e edges ih =>
      obtain ⟨he, hrest⟩ := List.forall_mem_cons.mp hle
      rw [List.foldl_cons]
      refine ih (max_le (max_le ha he.1) he.2) hrest ?_
      rcases hm with rfl | ⟨e', he', hm⟩
      · exact .inl (by omega)
      · rcases List.mem_cons.mp he' with rfl | he'
        · exact .inl (by omega)
        · exact .inr ⟨e', he', hm⟩

/-- The edges give the graph back when its last node is among theirs. -/
theorem getGraphMapping_edges (hvalid : ValidEdges graphMapping)
    (hlength : graphMapping.length < 2 ^ 31)
    (hlast : ∃ e ∈ entriesFrom 0 graphMapping,
      e.1 = graphMapping.length - 1 ∨ e.2 = graphMapping.length - 1) :
    getGraphMapping (entriesFrom 0 graphMapping) = some graphMapping := by
  have hnode : ∀ e ∈ entriesFrom 0 graphMapping, IsNode graphMapping e.1 ∧
      IsNode graphMapping e.2 := fun e he => isNode_of_mem_edges hvalid he
  have hpos : 0 < graphMapping.length := by
    obtain ⟨e, he, -⟩ := hlast
    have hrange := (hnode e he).1
    unfold IsNode at hrange
    omega
  have hmax : (entriesFrom 0 graphMapping).foldl (fun n edge => max (max n edge.1) edge.2) 0 =
      ((graphMapping.length - 1 : ℕ) : ℤ) := by
    refine foldl_max_eq (Int.natCast_nonneg _) (fun e he => ?_) (.inr ?_)
    · have hrange := hnode e he
      unfold IsNode at hrange
      omega
    · obtain ⟨e, he, hlast⟩ := hlast
      exact ⟨e, he, by omega⟩
  have hsucc : graphMapping.length - 1 + 1 = graphMapping.length := by omega
  have hrange : ∀ e ∈ entriesFrom 0 graphMapping,
      IsNode (List.replicate graphMapping.length []) e.1 := by
    intro e he
    rw [IsNode, List.length_replicate]
    exact (hnode e he).1
  rw [getGraphMapping, hmax, intSucc_natCast (by omega), Option.bind_some, hsucc,
    sizeOfInt_natCast (by omega), foldlM_pushBack hrange, foldl_pushAt_entriesFrom]

end Turned

structure EdgesKept (graphMapping : List (List ℤ)) : Prop where
  revertedTwice : ∃ reversed twice, revertGraphMapping graphMapping = some reversed ∧
    revertGraphMapping reversed = some twice ∧ twice.length = graphMapping.length ∧
    ∀ i, (childList twice i).Pairwise (· ≤ ·) ∧
      (childList twice i).Perm (childList graphMapping i)
  edgesReverted : ∃ reversed edges edges', revertGraphMapping graphMapping = some reversed ∧
    getEdgesList graphMapping = some edges ∧ getEdgesList reversed = some edges' ∧
    edges = entriesFrom 0 graphMapping ∧ edges'.Perm (edges.map Prod.swap)
  rebuilt : ∀ edges, getEdgesList graphMapping = some edges →
    (∃ e ∈ edges, e.1 = graphMapping.length - 1 ∨ e.2 = graphMapping.length - 1) →
    getGraphMapping edges = some graphMapping

/-- The edges are kept exactly as long as an `int` can count the nodes and the edges. -/
theorem edgesKept_iff {graphMapping : List (List ℤ)} (hvalid : ValidEdges graphMapping) :
    EdgesKept graphMapping ↔
      graphMapping.length < 2 ^ 31 ∧ edgeCount graphMapping < 2 ^ 31 := by
  constructor
  · rintro ⟨-, ⟨reversed, edges, edges', hreversed, hedges, -, hall, -⟩, -⟩
    have hlength : graphMapping.length < 2 ^ 31 := by
      by_contra hlong
      rw [revertGraphMapping_of_long (not_lt.mp hlong)] at hreversed
      cases hreversed
    refine ⟨hlength, (getEdgesList_eq_iff hlength).mp ?_⟩
    rw [hedges, hall]
  · rintro ⟨hlength, hcount⟩
    have hlength' : (turned graphMapping).length < 2 ^ 31 := by rwa [length_turned]
    have hreversed := revertGraphMapping_eq hvalid hlength
    have hedges := (getEdgesList_eq_iff hlength).mpr hcount
    refine ⟨⟨_, _, hreversed, revertGraphMapping_eq (validEdges_turned hvalid) hlength',
      length_turned.trans length_turned, childList_turned_turned hvalid⟩,
      ⟨_, _, _, hreversed, hedges, (getEdgesList_eq_iff hlength').mpr ?_, rfl,
        edges_turned_perm hvalid⟩, fun edges hlist hlast => ?_⟩
    · rwa [edgeCount_turned hvalid]
    · obtain rfl := Option.some.inj (hedges.symm.trans hlist)
      exact getGraphMapping_edges hvalid hlength hlast

/-- A self-loop, a double edge and an isolated node. -/
theorem edgesKept_sample : EdgesKept [[2, 0, 2], [], [0]] :=
  (edgesKept_iff (by decide)).mpr (by decide)

/-- The `2 ^ 31` self-loops of a single node count as a negative number. -/
theorem edgesKept_selfLoops :
    ValidEdges [List.replicate (2 ^ 31) 0] ∧
      getEdgesList [List.replicate (2 ^ 31) 0] = none ∧
      ¬EdgesKept [List.replicate (2 ^ 31) 0] := by
  have hcount : edgeCount [List.replicate (2 ^ 31) 0] = 2 ^ 31 := by
    rw [edgeCount, List.map_singleton, List.sum_singleton, List.length_replicate]
  have hnone : getEdgesList [List.replicate (2 ^ 31) 0] = none := by
    rw [getEdgesList, countEdges_eq, hcount]
    rfl
  refine ⟨fun children hchildren c hc => ?_, hnone, fun h => ?_⟩
  · rw [List.mem_singleton.mp hchildren] at hc
    rw [List.eq_of_mem_replicate hc]
    exact ⟨le_refl 0, Int.zero_lt_one⟩
  · obtain ⟨reversed, edges, edges', -, hedges, -⟩ := h.edgesReverted
    rw [hnone] at hedges
    cases hedges

end Query

end DistStorage
