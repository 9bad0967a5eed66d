import DistStorage.Query.QueryGraph

/-!
# Data frame identifiers

`fillDFIds` gives every table operation its own identifier as `df` and is to give
it to the operations below, up to the next table operations. `Below t i` says
that `i` is reached from `t` through nodes that are no table operations.

The walk calls itself for the node it is at, not for the child, and a node with
a `df` ends a walk, so no operation below a table operation is reached.
-/

namespace DistStorage

namespace Query

namespace OpGraph

/-- The walk of the source from a node, with a bound on the depth of the calls.
It is undefined when a child is not a node. -/
def fillDFIdsWalk (graphMapping : List (List ℤ)) : ℕ → List Operation → ℤ →
    Option (List Operation)
  | 0, _, _ => none
  | fuel + 1, operations, dfNodeId =>
      (Cpp.index operations dfNodeId).bind fun node =>
        if node.df ≠ nodeNone then some operations
        else
          (Cpp.index graphMapping dfNodeId).bind fun children =>
            children.foldlM (fun operations childId =>
              (Cpp.index operations childId).bind fun childNode =>
                if isTableOperation childNode.op then some operations
                else fillDFIdsWalk graphMapping fuel operations dfNodeId)
              (Cpp.modify operations dfNodeId fun node => { node with df := dfNodeId })

/-- The loop of `fillDFIds`, from a position on. Every walk that goes on gives a
`df` to one more node, which bounds the depth of the calls. -/
def fillDFIdsFrom (graphMapping : List (List ℤ)) : ℕ → ℕ → List Operation →
    Option (List Operation)
  | _, 0, operations => some operations
  | i, count + 1, operations =>
      (Cpp.index operations i).bind fun node =>
        (if isTableOperation node.op then
            fillDFIdsWalk graphMapping (operations.length + 1) operations i
          else some operations).bind fun operations =>
          fillDFIdsFrom graphMapping (i + 1) count operations

def fillDFIds (g : OpGraph) : Option OpGraph :=
  (fillDFIdsFrom g.graphMapping 0 g.size g.operations).map fun operations =>
    { g with operations := operations }

/-- The node `i` is below `t`, and the nodes between them are no table
operations. -/
inductive Below (g : OpGraph) (t : ℤ) : ℤ → Prop
  | child {i : ℤ} (h : i ∈ g.children t) : Below g t i
  | step {j i : ℤ} (hj : Below g t j) (hop : isTableOperation (g.operation j).op = false)
      (h : i ∈ g.children j) : Below g t i

/-- The table operations above a node. -/
def tablesAbove (g : OpGraph) (i : ℤ) : Set ℤ :=
  { t | g.Valid t ∧ isTableOperation (g.operation t).op = true ∧ g.Below t i }

/-- What the identifiers are to be, given the graph before. -/
structure DFIdsFilled (g g' : OpGraph) : Prop where
  tables : ∀ i, g.Valid i → isTableOperation (g.operation i).op = true → (g'.operation i).df = i
  claimed : ∀ i, g.Valid i → isTableOperation (g.operation i).op = false →
    (g.operation i).df = nodeNone → ∀ t, IsLeast (g.tablesAbove i) t → (g'.operation i).df = t
  kept : ∀ i, g.Valid i → isTableOperation (g.operation i).op = false →
    ((g.operation i).df = nodeNone → g.tablesAbove i = ∅) →
      (g'.operation i).df = (g.operation i).df

/-- What the loop does to the node at a position. -/
def claim (i : ℤ) (o : Operation) : Operation :=
  if isTableOperation o.op = true ∧ o.df = nodeNone then { o with df := i } else o

section Walk

variable {graphMapping : List (List ℤ)} {operations operations' : List Operation}

theorem fillDFIdsWalk_of_df {i : ℤ} {o : Operation} (fuel : ℕ)
    (ho : Cpp.index operations i = some o) (hdf : o.df ≠ nodeNone) :
    fillDFIdsWalk graphMapping (fuel + 1) operations i = some operations := by
  rw [fillDFIdsWalk, ho, Option.bind_some, if_pos hdf]

/-- A walk changes the node it begins at and no other: the calls for the
children end at once. -/
theorem fillDFIdsWalk_eq {i : ℤ} {o : Operation} {children : List ℤ} (fuel : ℕ)
    (ho : Cpp.index operations i = some o) (hchildren : Cpp.index graphMapping i = some children)
    (hvalid : ∀ c ∈ children, (Cpp.index operations c).isSome = true) (hi : i ≠ nodeNone)
    (hdf : o.df = nodeNone) :
    fillDFIdsWalk graphMapping (fuel + 2) operations i =
      some (Cpp.modify operations i fun node => { node with df := i }) := by
  have hclaimed : Cpp.index (Cpp.modify operations i fun node => { node with df := i }) i =
      some { o with df := i } := by
    rw [Cpp.index_modify, if_pos rfl, ho, Option.map_some]
  rw [fillDFIdsWalk, ho, Option.bind_some, if_neg (not_not.mpr hdf), hchildren, Option.bind_some]
  refine Cpp.foldlM_eq_of_forall fun c hc => ?_
  obtain ⟨child, hchild⟩ : ∃ child, Cpp.index
      (Cpp.modify operations i fun node => { node with df := i }) c = some child := by
    rw [← Option.isSome_iff_exists, Cpp.index_isSome_iff, Cpp.length_modify,
      ← Cpp.index_isSome_iff]
    exact hvalid c hc
  rw [hchild, Option.bind_some]
  split_ifs
  · rfl
  · exact fillDFIdsWalk_of_df fuel hclaimed hi

/-- A walk that is defined gives the node it begins at its identifier, if it has
none. -/
theorem fillDFIdsWalk_claims {fuel : ℕ} {i : ℤ} {o : Operation}
    (h : fillDFIdsWalk graphMapping fuel operations i = some operations')
    (ho : Cpp.index operations i = some o) (hi : i ≠ nodeNone) :
    operations' = if o.df = nodeNone then Cpp.modify operations i fun node => { node with df := i }
      else operations := by
  cases fuel with
  | zero => cases h
  | succ fuel =>
      rw [fillDFIdsWalk, ho, Option.bind_some] at h
      by_cases hdf : o.df = nodeNone
      · rw [if_neg (not_not.mpr hdf)] at h
        rw [if_pos hdf]
        obtain ⟨children, -, hfold⟩ := Option.bind_eq_some_iff.mp h
        have hclaimed : Cpp.index (Cpp.modify operations i fun node => { node with df := i }) i =
            some { o with df := i } := by
          rw [Cpp.index_modify, if_pos rfl, ho, Option.map_some]
        refine Cpp.foldlM_eq_self (fun c _ operations'' hstep => ?_) hfold
        obtain ⟨child, -, hstep⟩ := Option.bind_eq_some_iff.mp hstep
        split_ifs at hstep
        · exact (Option.some.inj hstep).symm
        · cases fuel with
          | zero => cases hstep
          | succ fuel =>
              rw [fillDFIdsWalk_of_df fuel hclaimed hi] at hstep
              exact (Option.some.inj hstep).symm
      · rw [if_pos hdf] at h
        rw [if_neg hdf]
        exact (Option.some.inj h).symm

theorem fillDFIds_step {fuel : ℕ} {i : ℤ} {o : Operation}
    (h : (if isTableOperation o.op then fillDFIdsWalk graphMapping fuel operations i
      else some operations) = some operations')
    (ho : Cpp.index operations i = some o) (hi : i ≠ nodeNone) :
    operations' = Cpp.modify operations i (claim i) := by
  refine Cpp.ext_index fun k => ?_
  rw [Cpp.index_modify]
  split_ifs at h with htable
  · rw [fillDFIdsWalk_claims h ho hi]
    split_ifs with hdf hk hk
    · subst hk
      rw [Cpp.index_modify, if_pos rfl, ho, Option.map_some, Option.map_some, claim,
        if_pos ⟨htable, hdf⟩]
    · rw [Cpp.index_modify, if_neg hk]
    · subst hk
      rw [ho, Option.map_some, claim, if_neg fun hclaim => hdf hclaim.2]
    · rfl
  · obtain rfl := Option.some.inj h
    split_ifs with hk
    · subst hk
      rw [ho, Option.map_some, claim, if_neg fun hclaim => htable hclaim.1]
    · rfl

end Walk

theorem fillDFIdsFrom_claims {graphMapping : List (List ℤ)}
    {operations operations' : List Operation} {i count : ℕ}
    (hlength : i + count = operations.length)
    (h : fillDFIdsFrom graphMapping i count operations = some operations') (j : ℤ) :
    Cpp.index operations' j =
      if (i : ℤ) ≤ j then (Cpp.index operations j).map (claim j) else Cpp.index operations j := by
  induction count generalizing i operations with
  | zero =>
      obtain rfl := Option.some.inj h
      split_ifs with hj
      · have hnone : Cpp.index operations j = none := by
          rw [← Option.not_isSome_iff_eq_none, Cpp.index_isSome_iff]
          omega
        rw [hnone, Option.map_none]
      · rfl
  | succ count ih =>
      rw [fillDFIdsFrom] at h
      obtain ⟨o, ho, h⟩ := Option.bind_eq_some_iff.mp h
      obtain ⟨operations₁, hstep, hrest⟩ := Option.bind_eq_some_iff.mp h
      have hclaimed := fillDFIds_step hstep ho (ne_nodeNone_of_nonneg (Nat.cast_nonneg i))
      have hnext : i + 1 + count = operations₁.length := by
        rw [hclaimed, Cpp.length_modify]
        omega
      rw [ih hnext hrest, hclaimed, Cpp.index_modify]
      by_cases hij : (i : ℤ) = j
      · subst hij
        rw [if_neg (by omega), if_pos rfl, if_pos le_rfl]
      · rw [if_neg hij]
        exact if_congr (by omega) rfl rfl

theorem fillDFIdsFrom_isSome {graphMapping : List (List ℤ)} {operations : List Operation}
    {i count : ℕ} (hlength : i + count = operations.length)
    (hlengths : graphMapping.length = operations.length)
    (hvalid : ∀ children ∈ graphMapping, ∀ c ∈ children, 0 ≤ c ∧ c < operations.length) :
    ∃ operations', fillDFIdsFrom graphMapping i count operations = some operations' := by
  induction count generalizing i operations with
  | zero => exact ⟨operations, rfl⟩
  | succ count ih =>
      have hi : i < operations.length := by omega
      obtain ⟨o, ho⟩ : ∃ o, Cpp.index operations (i : ℤ) = some o :=
        ⟨_, List.getElem?_eq_getElem hi⟩
      obtain ⟨children, hchildren⟩ : ∃ children, Cpp.index graphMapping (i : ℤ) = some children :=
        ⟨_, List.getElem?_eq_getElem (hlengths ▸ hi)⟩
      obtain ⟨fuel, hfuel⟩ : ∃ fuel, operations.length = fuel + 1 :=
        Nat.exists_eq_add_one.mpr (by omega)
      obtain ⟨operations₁, hstep⟩ : ∃ operations₁, (if isTableOperation o.op then
            fillDFIdsWalk graphMapping (operations.length + 1) operations i
          else some operations) = some operations₁ := by
        split_ifs
        · by_cases hdf : o.df = nodeNone
          · have hvalid' : ∀ c ∈ children, (Cpp.index operations c).isSome = true := fun c hc =>
              (Cpp.index_isSome_iff operations c).mpr
                (hvalid children (Cpp.mem_of_index hchildren) c hc)
            rw [hfuel]
            exact ⟨_, fillDFIdsWalk_eq fuel ho hchildren hvalid'
              (ne_nodeNone_of_nonneg (Nat.cast_nonneg i)) hdf⟩
          · exact ⟨_, fillDFIdsWalk_of_df _ ho hdf⟩
        · exact ⟨_, rfl⟩
      have hlength₁ : operations₁.length = operations.length := by
        rw [fillDFIds_step hstep ho (ne_nodeNone_of_nonneg (Nat.cast_nonneg i)), Cpp.length_modify]
      have hnext : i + 1 + count = operations₁.length := by omega
      obtain ⟨operations', hrest⟩ := ih hnext (hlengths.trans hlength₁.symm) (by rwa [hlength₁])
      refine ⟨operations', ?_⟩
      rw [fillDFIdsFrom, ho, Option.bind_some, hstep, Option.bind_some, hrest]

/-- The pass, where it is defined, claims the table operations and changes
nothing else. -/
theorem fillDFIds_claims {g g' : OpGraph} (h : g.fillDFIds = some g') (i : ℤ) :
    (g'.Valid i ↔ g.Valid i) ∧ (g.Valid i → g'.operation i = claim i (g.operation i)) := by
  obtain ⟨operations', hrun, rfl⟩ := Option.map_eq_some_iff.mp h
  have hindex := fillDFIdsFrom_claims (Nat.zero_add _) hrun i
  have hclaimed : g.Valid i → Cpp.index operations' i =
      (Cpp.index g.operations i).map (claim i) := by
    intro hi
    rw [hindex, if_pos (by exact_mod_cast hi.1)]
  refine ⟨?_, fun hi => ?_⟩
  · change 0 ≤ i ∧ i < operations'.length ↔ 0 ≤ i ∧ i < g.operations.length
    rw [← Cpp.index_isSome_iff, ← Cpp.index_isSome_iff, hindex]
    split_ifs
    · rw [Option.isSome_map]
    · rfl
  · obtain ⟨o, ho⟩ := Option.isSome_iff_exists.mp ((Cpp.index_isSome_iff g.operations i).mpr hi)
    rw [operation, operation, hclaimed hi, ho]
    rfl

theorem fillDFIds_eq {g : OpGraph} (hlengths : g.graphMapping.length = g.operations.length)
    (hvalid : ∀ children ∈ g.graphMapping, ∀ c ∈ children, g.Valid c) :
    ∃ g', g.fillDFIds = some g' ∧ ∀ i, g.Valid i → g'.operation i = claim i (g.operation i) := by
  obtain ⟨operations, hrun⟩ := fillDFIdsFrom_isSome (Nat.zero_add _) hlengths hvalid
  have hfilled : g.fillDFIds = some { g with operations := operations } :=
    congrArg (Option.map _) hrun
  exact ⟨_, hfilled, fun i => (fillDFIds_claims hfilled i).2⟩

theorem exists_isLeast_tablesAbove {g : OpGraph} {i : ℤ} (h : (g.tablesAbove i).Nonempty) :
    ∃ t, IsLeast (g.tablesAbove i) t := by
  have hbelow : ∃ b : ℤ, ∀ t ∈ g.tablesAbove i, b ≤ t := ⟨0, fun t ht => ht.1.1⟩
  obtain ⟨t, ht, hleast⟩ := Int.exists_least_of_bdd hbelow h
  exact ⟨t, ht, hleast⟩

/-- The identifiers are filled as they are to be exactly when no table operation
has a foreign one before, and no node without one is below a table operation. -/
theorem fillDFIds_filled_iff {g : OpGraph} (hlengths : g.graphMapping.length = g.operations.length)
    (hfirst : g.ChildrenFirst) :
    ∃ g', g.fillDFIds = some g' ∧
      (g.DFIdsFilled g' ↔
        (∀ i, g.Valid i → isTableOperation (g.operation i).op = true →
          (g.operation i).df = nodeNone ∨ (g.operation i).df = i) ∧
        ∀ i, g.Valid i → isTableOperation (g.operation i).op = false →
          (g.operation i).df = nodeNone → g.tablesAbove i = ∅) := by
  have hvalid : ∀ children ∈ g.graphMapping, ∀ c ∈ children, g.Valid c := by
    intro children hmem c hc
    obtain ⟨k, hk, rfl⟩ := List.mem_iff_getElem.mp hmem
    have hchild : c ∈ g.children k := by simpa [children, hk] using hc
    obtain ⟨h0, hlt⟩ := hfirst k hk c hchild
    refine ⟨h0, hlt.trans ?_⟩
    rw [size, ← hlengths]
    exact_mod_cast hk
  obtain ⟨g', hrun, hclaim⟩ := fillDFIds_eq hlengths hvalid
  refine ⟨g', hrun, ?_, ?_⟩
  · intro hfilled
    constructor
    · intro i hi htable
      have hdf := hfilled.tables i hi htable
      rw [hclaim i hi, claim] at hdf
      by_cases hnone : (g.operation i).df = nodeNone
      · exact .inl hnone
      · rw [if_neg fun h => hnone h.2] at hdf
        exact .inr hdf
    · intro i hi htable hnone
      by_contra hne
      obtain ⟨t, ht⟩ := exists_isLeast_tablesAbove (Set.nonempty_iff_ne_empty.mpr hne)
      have hdf := hfilled.claimed i hi htable hnone t ht
      rw [hclaim i hi, claim, if_neg fun h => by simp [htable] at h, hnone] at hdf
      have h0 : 0 ≤ t := ht.1.1.1
      rw [← hdf] at h0
      exact absurd h0 (by decide)
  · rintro ⟨htables, hbelow⟩
    have hkept : ∀ i, g.Valid i → isTableOperation (g.operation i).op = false →
        (g'.operation i).df = (g.operation i).df := by
      intro i hi htable
      rw [hclaim i hi, claim, if_neg fun h => by simp [htable] at h]
    refine ⟨?_, ?_, fun i hi htable _ => hkept i hi htable⟩
    · intro i hi htable
      rw [hclaim i hi, claim]
      split_ifs with h
      · rfl
      · exact (htables i hi htable).resolve_left fun hnone => h ⟨htable, hnone⟩
    · intro i hi htable hnone t ht
      have hmem := ht.1
      rw [hbelow i hi htable hnone] at hmem
      exact hmem.elim

def sumGraph : OpGraph where
  operations :=
    [{ op := .CONST, df := 0 }, { op := .CONST, df := 0 }, { op := .ADD }, { op := .DF }]
  graphMapping := [[], [], [0, 1], [2]]

def constGraph : OpGraph where
  operations := [{ op := .CONST, df := 0 }, { op := .DF }]
  graphMapping := [[], [0]]

theorem fillDFIds_filled_iff_sample :
    ∃ g', constGraph.fillDFIds = some g' ∧ constGraph.DFIdsFilled g' := by
  obtain ⟨g', hrun, hiff⟩ := fillDFIds_filled_iff (g := constGraph) rfl (by decide)
  have hnodes : ∀ i, constGraph.Valid i → i = 0 ∨ i = 1 := by
    rintro i ⟨h0, hlt⟩
    have hsize : constGraph.size = 2 := rfl
    omega
  refine ⟨g', hrun, hiff.mpr ⟨fun i hi _ => ?_, fun i hi htable hnone => ?_⟩⟩
  · rcases hnodes i hi with rfl | rfl
    · exact .inr rfl
    · exact .inl rfl
  · rcases hnodes i hi with rfl | rfl
    · cases hnone
    · cases htable

/-- The sum is left without a data frame. -/
theorem sumGraph_not_filled :
    ∃ g', sumGraph.fillDFIds = some g' ∧ (g'.operation 2).df = nodeNone ∧
      ¬sumGraph.DFIdsFilled g' := by
  refine ⟨_, rfl, rfl, fun h => ?_⟩
  have hleast : IsLeast (sumGraph.tablesAbove 2) 3 := by
    refine ⟨⟨by decide, rfl, .child (by decide)⟩, ?_⟩
    rintro t ⟨⟨h0, hlt⟩, htable, -⟩
    by_contra hne
    have hsize : sumGraph.size = 4 := rfl
    obtain rfl | rfl | rfl : t = 0 ∨ t = 1 ∨ t = 2 := by omega
    all_goals cases htable
  have hdf := h.claimed 2 (by decide) rfl rfl 3 hleast
  cases hdf

end OpGraph

end Query

end DistStorage
