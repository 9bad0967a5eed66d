import DistStorage.Query.QueryGraph

/-!
# Coherence of a graph under construction

`Coherent` is what the functions that build a query graph keep: the two vectors
have one length, names and constants are in range, and a child of a node
precedes it or is the mark of an absent node. A graph with such a mark among
the children of a node `HasGap`, and a coherent graph without one is
`WellBuilt`.

`Adds gap g r` is the effect of a function that adds nodes: it returns a node
of a coherent graph that is no smaller, and leaves a gap exactly when there was
one before or `gap` says that it makes one.
-/

namespace DistStorage

namespace Query

namespace QueryGraph

/-- The length of the constant table for a type and a sequence. -/
def constantCount (g : QueryGraph) : ValueType → SequenceType → ℕ
  | .Int64, .ARRAY => g.int64ArrayConstants.length
  | .Int64, _ => g.int64Constants.length
  | .Float64, .ARRAY => g.float64ArrayConstants.length
  | .Float64, _ => g.float64Constants.length
  | .String, .ARRAY => g.stringArrayConstants.length
  | .String, _ => g.stringConstants.length
  | _, _ => 0

def NameInRange (g : QueryGraph) (o : Operation) : Prop :=
  o.name = nodeNone ∨ 0 ≤ o.name ∧ o.name < g.names.length

def ConstantInRange (g : QueryGraph) (o : Operation) : Prop :=
  o.op = .CONST → 0 ≤ o.constId ∧ o.constId < g.constantCount o.type o.sequence

structure WellBuilt (g : QueryGraph) : Prop where
  lengths : g.graphMapping.length = g.operations.length
  childrenFirst : g.ChildrenFirst
  acyclic : Digraph.Acyclic g.children
  names : ∀ o ∈ g.operations, g.NameInRange o
  constants : ∀ o ∈ g.operations, g.ConstantInRange o

/-- A node has the mark of an absent node among its children. -/
def HasGap (g : QueryGraph) : Prop := ∃ args ∈ g.graphMapping, nodeNone ∈ args

/-- A finished graph, up to marks of absent nodes among the children. -/
structure Coherent (g : QueryGraph) : Prop where
  lengths : g.graphMapping.length = g.operations.length
  children : ∀ (i : ℕ) (args : List ℤ), g.graphMapping[i]? = some args →
    ∀ c ∈ args, c = nodeNone ∨ 0 ≤ c ∧ c < (i : ℤ)
  names : ∀ o ∈ g.operations, g.NameInRange o
  constants : ∀ o ∈ g.operations, g.ConstantInRange o

/-- The effect of adding nodes to a graph. -/
structure Adds (gap : Prop) (g : QueryGraph) (r : ℤ × QueryGraph) : Prop where
  coherent : r.2.Coherent
  valid : r.2.Valid r.1
  size_le : g.size ≤ r.2.size
  hasGap : r.2.HasGap ↔ g.HasGap ∨ gap

theorem ne_nodeNone_of_valid {g : QueryGraph} {i : ℤ} (h : g.Valid i) : i ≠ nodeNone :=
  ne_nodeNone_of_nonneg h.1

theorem valid_of_index {g : QueryGraph} {i : ℤ} {o : Operation}
    (h : Cpp.index g.operations i = some o) : g.Valid i :=
  (Cpp.index_isSome_iff g.operations i).mp (by rw [h]; rfl)

theorem Coherent.child {g : QueryGraph} (h : g.Coherent) {i c : ℤ} (hc : c ∈ g.children i) :
    g.Valid i ∧ (c = nodeNone ∨ g.Valid c ∧ c < i) := by
  by_cases hi : g.Valid i
  · obtain ⟨k, rfl⟩ := Int.eq_ofNat_of_zero_le hi.1
    have hk : k < g.graphMapping.length := by
      rw [h.lengths]
      exact_mod_cast hi.2
    have hget : g.graphMapping[k]? = some g.graphMapping[k] := List.getElem?_eq_getElem hk
    have hmem : c ∈ g.graphMapping[k] := by simpa [OpGraph.children, hk] using hc
    refine ⟨hi, (h.children k _ hget c hmem).imp_right fun hlt => ?_⟩
    exact ⟨⟨hlt.1, hlt.2.trans hi.2⟩, hlt.2⟩
  · rw [OpGraph.children_of_not_valid h.lengths hi] at hc
    simp at hc

theorem coherent_empty : (default : QueryGraph).Coherent where
  lengths := rfl
  children := by
    intro i args h
    change ([] : List (List ℤ))[i]? = some args at h
    simp at h
  names := by
    intro o ho
    change o ∈ [] at ho
    simp at ho
  constants := by
    intro o ho
    change o ∈ [] at ho
    simp at ho

theorem not_hasGap_empty : ¬ (default : QueryGraph).HasGap := by
  rintro ⟨args, h, -⟩
  change args ∈ [] at h
  simp at h

theorem Coherent.wellBuilt_iff {g : QueryGraph} (h : g.Coherent) :
    g.WellBuilt ↔ ¬ g.HasGap := by
  constructor
  · rintro hbuilt ⟨args, hargs, hgap⟩
    obtain ⟨i, hi, rfl⟩ := List.mem_iff_getElem.mp hargs
    have hc : nodeNone ∈ g.children i := by
      simpa [OpGraph.children, hi] using hgap
    have h0 := (hbuilt.childrenFirst i hi nodeNone hc).1
    exact absurd h0 (by decide)
  · intro hgap
    have hfirst : g.ChildrenFirst := by
      intro i hi c hc
      have hget : g.graphMapping[i]? = some g.graphMapping[i] := List.getElem?_eq_getElem hi
      have hmem : c ∈ g.graphMapping[i] := by simpa [OpGraph.children, hi] using hc
      rcases h.children i _ hget c hmem with rfl | hlt
      · exact absurd ⟨_, List.getElem_mem hi, hmem⟩ hgap
      · exact hlt
    exact ⟨h.lengths, hfirst, OpGraph.acyclic_of_childrenFirst h.lengths hfirst, h.names,
      h.constants⟩

theorem Coherent.grow {g g' : QueryGraph} (h : g.Coherent)
    (hgraph : g'.toOpGraph = g.toOpGraph) (hnames : g.names.length ≤ g'.names.length)
    (hconstants : ∀ t s, g.constantCount t s ≤ g'.constantCount t s) : g'.Coherent where
  lengths := by rw [hgraph]; exact h.lengths
  children := by rw [hgraph]; exact h.children
  names := by
    rw [hgraph]
    intro o ho
    refine (h.names o ho).imp_right fun ⟨h0, hlt⟩ => ⟨h0, hlt.trans_le ?_⟩
    exact_mod_cast hnames
  constants := by
    rw [hgraph]
    intro o ho hop
    obtain ⟨h0, hlt⟩ := h.constants o ho hop
    exact ⟨h0, hlt.trans_le (by exact_mod_cast hconstants o.type o.sequence)⟩

theorem Coherent.push_adds {g : QueryGraph} (h : g.Coherent) {o : Operation} {args : List ℤ}
    (hargs : ∀ c ∈ args, c = nodeNone ∨ g.Valid c) (hname : g.NameInRange o)
    (hconstant : g.ConstantInRange o) : Adds (nodeNone ∈ args) g (g.push o args) where
  coherent :=
    { lengths := OpGraph.lengths_append h.lengths [(o, args)]
      children := by
        intro i as hi c hc
        have hi : (g.graphMapping ++ [args])[i]? = some as := hi
        by_cases hlt : i < g.graphMapping.length
        · rw [List.getElem?_append_left hlt] at hi
          exact h.children i as hi c hc
        · rw [List.getElem?_append_right (by omega), List.getElem?_singleton] at hi
          split_ifs at hi with hlast
          obtain rfl := Option.some.inj hi
          have hi' : i = g.size := by
            rw [OpGraph.size, ← h.lengths]
            omega
          exact (hargs c hc).imp_right fun hv => ⟨hv.1, by rw [hi']; exact hv.2⟩
      names := by
        intro o' ho'
        have ho' : o' ∈ g.operations ++ [o] := ho'
        rcases List.mem_append.mp ho' with ho' | ho'
        · exact h.names o' ho'
        · rw [List.mem_singleton.mp ho']
          exact hname
      constants := by
        intro o' ho'
        have ho' : o' ∈ g.operations ++ [o] := ho'
        rcases List.mem_append.mp ho' with ho' | ho'
        · exact h.constants o' ho'
        · rw [List.mem_singleton.mp ho']
          exact hconstant }
  valid := by
    refine ⟨Int.natCast_nonneg _, ?_⟩
    change (g.operations.length : ℤ) < ((g.operations ++ [o]).length : ℤ)
    simp
  size_le := by
    change g.operations.length ≤ (g.operations ++ [o]).length
    simp
  hasGap := by
    change (∃ as ∈ g.graphMapping ++ [args], nodeNone ∈ as) ↔ _
    simp [HasGap, or_and_right, exists_or]

theorem Coherent.grow_push_adds {g : QueryGraph} (h : g.Coherent) (g' : QueryGraph)
    (hgraph : g'.toOpGraph = g.toOpGraph) (hnames : g.names.length ≤ g'.names.length)
    (hconstants : ∀ t s, g.constantCount t s ≤ g'.constantCount t s) {o : Operation}
    {args : List ℤ} (hargs : ∀ c ∈ args, g.Valid c) (hname : g'.NameInRange o)
    (hconstant : g'.ConstantInRange o) : Adds False g (g'.push o args) := by
  have hvalid : ∀ c ∈ args, g'.Valid c := by
    intro c hc
    rw [hgraph]
    exact hargs c hc
  have hadds := (h.grow hgraph hnames hconstants).push_adds (fun c hc => .inr (hvalid c hc))
    hname hconstant
  have hgap : nodeNone ∉ args := fun hc => ne_nodeNone_of_valid (hargs _ hc) rfl
  refine ⟨hadds.coherent, hadds.valid, ?_, ?_⟩
  · rw [← hgraph]
    exact hadds.size_le
  · rw [hadds.hasGap, HasGap, HasGap, hgraph]
    simp [hgap]

theorem appendNode_adds {g : QueryGraph} (h : g.Coherent) (df : ℤ) {op : ColumnOperation}
    (hop : op ≠ .CONST) (type : ValueType) {args : List ℤ}
    (hargs : ∀ c ∈ args, c = nodeNone ∨ g.Valid c) :
    Adds (nodeNone ∈ args) g (g.appendNode df op type args) :=
  h.push_adds hargs (.inl rfl) fun hconst => absurd hconst hop

/-- A node for the last entry of a constant table that has just grown. -/
theorem appendConstant_adds {g : QueryGraph} (h : g.Coherent) (g' : QueryGraph)
    (hgraph : g'.toOpGraph = g.toOpGraph) (hnames : g'.names = g.names)
    (hconstants : ∀ t s, g.constantCount t s ≤ g'.constantCount t s) {constId : ℕ}
    {type : ValueType} (hconstId : constId < g'.constantCount type .SINGLE) :
    Adds False g (g'.appendConstant constId type) := by
  refine h.grow_push_adds g' hgraph (by rw [hnames]) hconstants (by simp) (.inl rfl) ?_
  exact fun _ => ⟨Int.natCast_nonneg _, Int.ofNat_lt.mpr hconstId⟩

theorem appendInt64Constant_adds {g : QueryGraph} (h : g.Coherent) (value : ℤ) :
    Adds False g (g.appendInt64Constant value) := by
  refine appendConstant_adds h { g with int64Constants := g.int64Constants ++ [value] } rfl rfl
    ?_ (by simp [constantCount])
  intro t s
  unfold constantCount
  split <;> simp

theorem appendFloat64Constant_adds {g : QueryGraph} (h : g.Coherent) (value : Double) :
    Adds False g (g.appendFloat64Constant value) := by
  refine appendConstant_adds h { g with float64Constants := g.float64Constants ++ [value] } rfl
    rfl ?_ (by simp [constantCount])
  intro t s
  unfold constantCount
  split <;> simp

theorem appendStringConstant_adds {g : QueryGraph} (h : g.Coherent) (value : Bytes) :
    Adds False g (g.appendStringConstant value) := by
  refine appendConstant_adds h { g with stringConstants := g.stringConstants ++ [value] } rfl
    rfl ?_ (by simp [constantCount])
  intro t s
  unfold constantCount
  split <;> simp

theorem named_adds {g : QueryGraph} (h : g.Coherent) (name : Bytes) {o : Operation}
    (hname : o.name = g.names.length) (hop : o.op ≠ .CONST) {args : List ℤ}
    (hargs : ∀ c ∈ args, g.Valid c) : Adds False g ((g.appendName name).2.push o args) := by
  refine h.grow_push_adds (g.appendName name).2 rfl (by simp [appendName])
    (fun _ _ => le_rfl) hargs ?_ fun hconst => absurd hconst hop
  exact .inr ⟨by omega, by simp [appendName, hname]⟩

theorem appendColumn_adds {g : QueryGraph} (h : g.Coherent) (name : Bytes) (type : ValueType) :
    Adds False g (g.appendColumn name type) :=
  named_adds h name rfl (by simp) (by simp)

theorem appendTable_adds {g : QueryGraph} (h : g.Coherent) (name : Bytes)
    {colNodeIds : List ℤ} (hcols : ∀ c ∈ colNodeIds, g.Valid c) :
    Adds False g (g.appendTable name colNodeIds) :=
  named_adds h name rfl (by simp) hcols

theorem setNodeName_coherent {g g' : QueryGraph} (h : g.Coherent) {nodeId : ℤ} {name : Bytes}
    (hset : g.setNodeName nodeId name = some g') :
    g'.Coherent ∧ g'.graphMapping = g.graphMapping ∧ g'.size = g.size := by
  obtain ⟨o, -, rfl⟩ := Option.map_eq_some_iff.mp hset
  have hmem : ∀ o' ∈ Cpp.modify g.operations nodeId fun o => { o with name := g.names.length },
      o' ∈ g.operations ∨ ∃ o ∈ g.operations, o' = { o with name := g.names.length } :=
    fun o' ho' => Cpp.mem_modify ho'
  refine ⟨⟨?_, h.children, ?_, ?_⟩, rfl, Cpp.length_modify _ _ _⟩
  · exact h.lengths.trans (Cpp.length_modify _ _ _).symm
  · intro o' ho'
    rcases hmem o' ho' with ho | ⟨o, -, rfl⟩
    · refine (h.names o' ho).imp_right fun ⟨h0, hlt⟩ => ⟨h0, hlt.trans_le ?_⟩
      simp
    · exact .inr ⟨Int.natCast_nonneg _, by simp⟩
  · intro o' ho'
    rcases hmem o' ho' with ho | ⟨o, ho, rfl⟩
    · exact h.constants o' ho
    · exact h.constants o ho

theorem loadColumnNames_valid {g : QueryGraph} {tableName : Bytes} {cols : List ℤ}
    {ctx ctx' : Cpp.OrderedMap Bytes ℤ} (hload : g.loadColumnNames tableName cols ctx = some ctx')
    (hctx : ∀ i ∈ ctx.values, g.Valid i) : ∀ i ∈ ctx'.values, g.Valid i := by
  induction cols generalizing ctx with
  | nil =>
      obtain rfl := Option.some.inj hload
      exact hctx
  | cons col rest ih =>
      obtain ⟨o, ho, hload⟩ := Option.bind_eq_some_iff.mp hload
      have hcol : g.Valid col := valid_of_index ho
      have hinsert : ∀ (ctx : Cpp.OrderedMap Bytes ℤ) (key : Bytes),
          (∀ i ∈ ctx.values, g.Valid i) → ∀ i ∈ (ctx.insert key col).values, g.Valid i := by
        intro ctx key hctx i hi
        rcases Cpp.OrderedMap.mem_values_insert hi with rfl | hi
        · exact hcol
        · exact hctx i hi
      split_ifs at hload with hname htable
      · exact ih hload hctx
      · obtain ⟨name, -, hload⟩ := Option.bind_eq_some_iff.mp hload
        exact ih hload (hinsert ctx name hctx)
      · obtain ⟨name, -, hload⟩ := Option.bind_eq_some_iff.mp hload
        exact ih hload (hinsert _ _ (hinsert ctx name hctx))

/-- The nodes a context refers to stay nodes when a table is loaded. -/
theorem loadTableNames_valid {g : QueryGraph} {tableNodeId : ℤ} {tableName : Bytes}
    {ctx ctx' : Cpp.OrderedMap Bytes ℤ}
    (hload : loadTableNames ctx g tableNodeId tableName = some ctx')
    (hctx : ∀ i ∈ ctx.values, g.Valid i) : ∀ i ∈ ctx'.values, g.Valid i := by
  obtain ⟨cols, -, hload⟩ := Option.bind_eq_some_iff.mp hload
  exact loadColumnNames_valid hload hctx

end QueryGraph

end Query

end DistStorage
