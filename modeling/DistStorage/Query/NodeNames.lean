import DistStorage.Query.Coherent

/-!
# The names of the nodes of a graph

Loading a table enters the names of its children into a context, from the first
child to the last, so a name stands for the last child that bears it. The
children with a name, in order, are therefore all that a query sees of a table.

A node may be given a name after others refer to it, and then bears that name
everywhere.
-/

namespace DistStorage

namespace Query

namespace QueryGraph

def nameOf (g : QueryGraph) (i : ℤ) : Option Bytes :=
  (Cpp.index g.operations i).bind fun o =>
    if o.name = nodeNone then none else Cpp.index g.names o.name

def namedNodes (names : ℤ → Option Bytes) (nodeIds : List ℤ) : List (Bytes × ℤ) :=
  nodeIds.filterMap fun i => (names i).map fun name => (name, i)

def Undotted (name : Bytes) : Prop := ¬bytes "." <:+: name

instance (name : Bytes) : Decidable (Undotted name) :=
  inferInstanceAs (Decidable (¬bytes "." <:+: name))

def lastNamed {α : Type} (name : Bytes) (entries : List (Bytes × α)) : Option α :=
  entries.reverse.lookup name

def enterColumn (tableName name : Bytes) (i : ℤ) (ctx : Cpp.OrderedMap Bytes ℤ) :
    Cpp.OrderedMap Bytes ℤ :=
  if tableName = [] then ctx.insert name i
  else (ctx.insert name i).insert (tableName ++ bytes "." ++ name) i

section LastNamed

variable {α : Type} {name : Bytes}

theorem lastNamed_append (name : Bytes) (l l' : List (Bytes × α)) :
    lastNamed name (l ++ l') = (lastNamed name l').or (lastNamed name l) := by
  rw [lastNamed, List.reverse_append, List.lookup_append]
  rfl

theorem lastNamed_singleton (name name' : Bytes) (a : α) :
    lastNamed name [(name', a)] = if name = name' then some a else none := by
  rw [lastNamed, List.reverse_singleton, List.lookup_cons, List.lookup_nil]
  by_cases h : name = name'
  · simp [h]
  · simp [h, beq_eq_false_iff_ne.mpr h]

theorem mem_of_lastNamed {a : α} {entries : List (Bytes × α)}
    (h : lastNamed name entries = some a) : (name, a) ∈ entries := by
  obtain ⟨l₁, l₂, heq, -⟩ := List.lookup_eq_some_iff.mp h
  rw [← List.mem_reverse, heq]
  simp

end LastNamed

theorem lastNamed_eq_some {name : Bytes} {i : ℤ} {entries : List (Bytes × ℤ)}
    (hmem : (name, i) ∈ entries) (hone : ∀ j, (name, j) ∈ entries → j = i) :
    lastNamed name entries = some i := by
  rcases h : lastNamed name entries with _ | j
  · have hnone := List.lookup_eq_none_iff.mp h (name, i) (List.mem_reverse.mpr hmem)
    simp at hnone
  · rw [hone j (mem_of_lastNamed h)]

section NamedNodes

variable {names names' : ℤ → Option Bytes} {l : List ℤ} {i : ℤ}

theorem mem_namedNodes {name : Bytes} :
    (name, i) ∈ namedNodes names l ↔ i ∈ l ∧ names i = some name := by
  simp only [namedNodes, List.mem_filterMap, Option.map_eq_some_iff, Prod.mk.injEq]
  constructor
  · rintro ⟨j, hj, c, hc, rfl, rfl⟩
    exact ⟨hj, hc⟩
  · rintro ⟨hi, hname⟩
    exact ⟨i, hi, name, hname, rfl, rfl⟩

theorem namedNodes_append (l l' : List ℤ) :
    namedNodes names (l ++ l') = namedNodes names l ++ namedNodes names l' :=
  List.filterMap_append

theorem namedNodes_cons_of_none (h : names i = none) (l : List ℤ) :
    namedNodes names (i :: l) = namedNodes names l :=
  List.filterMap_cons_none (by rw [h]; rfl)

theorem namedNodes_cons_of_some {name : Bytes} (h : names i = some name) (l : List ℤ) :
    namedNodes names (i :: l) = [(name, i)] ++ namedNodes names l :=
  List.filterMap_cons_some (by rw [h]; rfl)

theorem namedNodes_congr (h : ∀ i ∈ l, names' i = names i) :
    namedNodes names' l = namedNodes names l :=
  List.filterMap_congr fun i hi => by rw [h i hi]

end NamedNodes

theorem nameOf_of_not_valid {g : QueryGraph} {i : ℤ} (h : ¬g.Valid i) : g.nameOf i = none := by
  rw [nameOf, Cpp.index_eq_none h]
  rfl

theorem mem_names_of_nameOf {g : QueryGraph} {i : ℤ} {name : Bytes}
    (h : g.nameOf i = some name) : name ∈ g.names := by
  obtain ⟨o, -, ho⟩ := Option.bind_eq_some_iff.mp h
  split_ifs at ho
  exact Cpp.mem_of_index ho

theorem loadColumnNames_of_cons {g : QueryGraph} {tableName : Bytes} {i : ℤ} {rest : List ℤ}
    {ctx ctx' : Cpp.OrderedMap Bytes ℤ}
    (hload : g.loadColumnNames tableName (i :: rest) ctx = some ctx') :
    g.loadColumnNames tableName rest
      ((g.nameOf i).elim ctx fun name => enterColumn tableName name i ctx) = some ctx' := by
  rw [loadColumnNames] at hload
  obtain ⟨o, ho, hload⟩ := Option.bind_eq_some_iff.mp hload
  rw [nameOf, ho, Option.bind_some]
  by_cases hnone : o.name = nodeNone
  · rw [if_pos hnone] at hload ⊢
    exact hload
  · rw [if_neg hnone] at hload ⊢
    obtain ⟨name, hname, hload⟩ := Option.bind_eq_some_iff.mp hload
    rw [hname, Option.elim_some, enterColumn]
    split_ifs at hload ⊢ <;> exact hload

/-- What loading the children of a table makes of a key that each child with a
name changes in the same way. -/
theorem find_loadColumnNames {g : QueryGraph} {tableName key name : Bytes} {cols : List ℤ}
    {ctx ctx' : Cpp.OrderedMap Bytes ℤ} (hload : g.loadColumnNames tableName cols ctx = some ctx')
    (henter : ∀ i ∈ cols, ∀ c, g.nameOf i = some c → ∀ ctx : Cpp.OrderedMap Bytes ℤ,
      (enterColumn tableName c i ctx).find key = if name = c then some i else ctx.find key) :
    ctx'.find key = (lastNamed name (namedNodes g.nameOf cols)).or (ctx.find key) := by
  induction cols generalizing ctx with
  | nil =>
      obtain rfl := Option.some.inj hload
      rfl
  | cons i rest ih =>
      have hrest := ih (loadColumnNames_of_cons hload) fun j hj =>
        henter j (List.mem_cons_of_mem i hj)
      rcases hname : g.nameOf i with _ | c
      · rw [hname, Option.elim_none] at hrest
        rw [hrest, namedNodes_cons_of_none hname]
      · rw [hname, Option.elim_some, henter i List.mem_cons_self c hname ctx] at hrest
        rw [hrest, namedNodes_cons_of_some hname, lastNamed_append, lastNamed_singleton,
          Option.or_assoc]
        split_ifs <;> rfl

section Keys

variable {tableName name c : Bytes} {i : ℤ}

/-- A name without a dot is not that of a column in a table. -/
theorem Undotted.ne_qualified (h : Undotted name) : name ≠ tableName ++ bytes "." ++ c := by
  rintro rfl
  exact h ⟨tableName, c, rfl⟩

theorem find_enterColumn (h : Undotted name) (ctx : Cpp.OrderedMap Bytes ℤ) :
    (enterColumn tableName c i ctx).find name = if name = c then some i else ctx.find name := by
  unfold enterColumn
  split_ifs with htable hname hname
  · rw [Cpp.OrderedMap.find_insert, if_pos hname]
  · rw [Cpp.OrderedMap.find_insert, if_neg hname]
  · rw [Cpp.OrderedMap.find_insert, if_neg h.ne_qualified, Cpp.OrderedMap.find_insert,
      if_pos hname]
  · rw [Cpp.OrderedMap.find_insert, if_neg h.ne_qualified, Cpp.OrderedMap.find_insert,
      if_neg hname]

theorem find_enterColumn_qualified (htable : tableName ≠ []) (hc : Undotted c)
    (ctx : Cpp.OrderedMap Bytes ℤ) :
    (enterColumn tableName c i ctx).find (tableName ++ bytes "." ++ name) =
      if name = c then some i else ctx.find (tableName ++ bytes "." ++ name) := by
  rw [enterColumn, if_neg htable, Cpp.OrderedMap.find_insert, Cpp.OrderedMap.find_insert,
    if_neg hc.ne_qualified.symm]
  simp only [List.append_cancel_left_eq]

end Keys

theorem nameOf_setNodeName {g g' : QueryGraph} (hg : g.Coherent) {nodeId : ℤ} {name : Bytes}
    (hset : g.setNodeName nodeId name = some g') :
    g'.nameOf = Function.update g.nameOf nodeId (some name) := by
  obtain ⟨o, ho, rfl⟩ := Option.map_eq_some_iff.mp hset
  funext i
  change (Cpp.index (Cpp.modify g.operations nodeId fun o => { o with name := g.names.length })
    i).bind (fun o => if o.name = nodeNone then none else Cpp.index (g.names ++ [name]) o.name) = _
  rw [Cpp.index_modify]
  by_cases hi : nodeId = i
  · subst hi
    have hne : (g.names.length : ℤ) ≠ nodeNone := ne_nodeNone_of_nonneg (Nat.cast_nonneg _)
    rw [if_pos rfl, show Cpp.index g.operations nodeId = some o from ho, Function.update_self]
    simp [hne]
  · rw [if_neg hi, Function.update_of_ne (Ne.symm hi), nameOf]
    rcases ho' : Cpp.index g.operations i with _ | o'
    · rfl
    · rw [Option.bind_some, Option.bind_some]
      split_ifs with hnone
      · rfl
      · have hrange := (hg.names o' (Cpp.mem_of_index ho')).resolve_left hnone
        exact Cpp.index_append_left _ _ hrange.2

theorem nameOf_push (g : QueryGraph) {o : Operation} (ho : o.name = nodeNone) (args : List ℤ) :
    (g.push o args).2.nameOf = g.nameOf := by
  funext i
  change (Cpp.index (g.operations ++ [o]) i).bind (fun o => if o.name = nodeNone then none else
    Cpp.index g.names o.name) = _
  by_cases hi : i < g.operations.length
  · rw [Cpp.index_append_left _ _ hi]
    rfl
  · have hold : ¬g.Valid i := fun h => hi h.2
    rw [nameOf_of_not_valid hold]
    rcases ho' : Cpp.index (g.operations ++ [o]) i with _ | o'
    · rfl
    · have hlast : o' = o := by
        have hvalid := (Cpp.index_isSome_iff (g.operations ++ [o]) i).mp (by rw [ho']; rfl)
        obtain ⟨k, rfl⟩ := Int.eq_ofNat_of_zero_le hvalid.1
        simp only [List.length_append, List.length_singleton, Nat.cast_lt] at hvalid hi
        have hk : k = g.operations.length := by omega
        subst hk
        simpa using ho'.symm
      rw [hlast, Option.bind_some, if_pos ho]

/-- The effect of a function that adds one node without a name. -/
structure AddsUnnamed (g : QueryGraph) (r : ℤ × QueryGraph) : Prop where
  node_eq : r.1 = g.size
  size_eq : r.2.size = g.size + 1
  nameOf_eq : r.2.nameOf = g.nameOf
  lengths_of : g.graphMapping.length = g.operations.length →
    r.2.graphMapping.length = r.2.operations.length

theorem push_addsUnnamed (g : QueryGraph) {o : Operation} (ho : o.name = nodeNone)
    (args : List ℤ) : AddsUnnamed g (g.push o args) where
  node_eq := rfl
  size_eq := by
    change (g.operations ++ [o]).length = _
    simp [OpGraph.size]
  nameOf_eq := nameOf_push g ho args
  lengths_of h := OpGraph.lengths_append h [(o, args)]

theorem appendNode_addsUnnamed (g : QueryGraph) (df : ℤ) (op : ColumnOperation)
    (type : ValueType) (args : List ℤ) : AddsUnnamed g (g.appendNode df op type args) :=
  push_addsUnnamed g rfl args

theorem appendConstant_addsUnnamed (g g' : QueryGraph)
    (hgraph : g'.toOpGraph = g.toOpGraph) (hnames : g'.names = g.names) (constId : ℤ)
    (type : ValueType) : AddsUnnamed g (g'.appendConstant constId type) := by
  obtain ⟨hnode, hsize, hnameOf, hlengths⟩ := push_addsUnnamed g'
    (o := { op := .CONST, constId := constId, df := 0, type := type, sequence := .SINGLE }) rfl []
  have hsame : g'.nameOf = g.nameOf := by
    funext i
    rw [nameOf, nameOf, hgraph, hnames]
  rw [hgraph] at hnode hsize hlengths
  exact ⟨hnode, hsize, hnameOf.trans hsame, hlengths⟩

theorem appendInt64Constant_addsUnnamed (g : QueryGraph) (value : ℤ) :
    AddsUnnamed g (g.appendInt64Constant value) :=
  appendConstant_addsUnnamed g { g with int64Constants := g.int64Constants ++ [value] } rfl rfl
    _ _

theorem appendFloat64Constant_addsUnnamed (g : QueryGraph) (value : Double) :
    AddsUnnamed g (g.appendFloat64Constant value) :=
  appendConstant_addsUnnamed g { g with float64Constants := g.float64Constants ++ [value] } rfl rfl
    _ _

theorem appendStringConstant_addsUnnamed (g : QueryGraph) (value : Bytes) :
    AddsUnnamed g (g.appendStringConstant value) :=
  appendConstant_addsUnnamed g { g with stringConstants := g.stringConstants ++ [value] } rfl rfl
    _ _

end QueryGraph

end Query

end DistStorage
