import DistStorage.Query.NodeNames

/-!
# Graphs with added nodes

Apart from the nodes of a table, whatever the visitor appends has no name.
`AddsNodes g new g'` says that `g'` is `g` with the nodes `new` after the others
and the same names, and `GrowsBy g new g'` leaves it open which names there are more.

A literal has the data frame `0` and every other node the mark of an absent one:
`Operation.Marked` is that law of the nodes a query is built from.
-/

namespace DistStorage

namespace Query

open Cpp

def Operation.Marked (o : Operation) : Prop :=
  o.df = if isLiteral o.op then 0 else nodeNone

def Operation.Plain (o : Operation) : Prop :=
  o.Marked ∧ isTableOperation o.op = false

/-- A node over that of a data frame. -/
def Operation.Over (o : Operation) : Prop :=
  o.Marked ∧ o.op ≠ .DF

theorem Operation.Plain.ne_df {o : Operation} (h : o.Plain) : o.op ≠ .DF := by
  intro hop
  have htable := h.2
  rw [hop] at htable
  cases htable

namespace QueryGraph

structure GrowsBy (g : QueryGraph) (new : List (Operation × List ℤ)) (g' : QueryGraph) :
    Prop where
  graph_eq : g'.toOpGraph = g.toOpGraph.append new
  names_prefix : g.names <+: g'.names

/-- A graph with more nodes, none of which has a name. -/
structure AddsNodes (g : QueryGraph) (new : List (Operation × List ℤ)) (g' : QueryGraph) :
    Prop where
  graph_eq : g'.toOpGraph = g.toOpGraph.append new
  names_eq : g'.names = g.names
  unnamed : ∀ node ∈ new, node.1.name = nodeNone

namespace AddsNodes

variable {g g' g'' : QueryGraph} {new new' : List (Operation × List ℤ)}

theorem growsBy (h : AddsNodes g new g') : GrowsBy g new g' :=
  ⟨h.graph_eq, h.names_eq ▸ List.prefix_rfl⟩

theorem refl (g : QueryGraph) : AddsNodes g [] g :=
  ⟨(OpGraph.append_nil _).symm, rfl, by simp⟩

theorem trans (h : AddsNodes g new g') (h' : AddsNodes g' new' g'') :
    AddsNodes g (new ++ new') g'' := by
  refine ⟨?_, h'.names_eq.trans h.names_eq, ?_⟩
  · rw [h'.graph_eq, h.graph_eq, OpGraph.append_append]
  · intro node hnode
    exact (List.mem_append.mp hnode).elim (h.unnamed node) (h'.unnamed node)

theorem size_eq (h : AddsNodes g new g') : g'.size = g.size + new.length := by
  rw [h.graph_eq, OpGraph.size_append]

end AddsNodes

theorem appendNode_addsNodes (g : QueryGraph) (df : ℤ) (op : ColumnOperation) (type : ValueType)
    (args : List ℤ) : AddsNodes g
      [({ op := op, df := df, type := type, sequence := .SINGLE }, args)]
      (g.appendNode df op type args).2 :=
  ⟨rfl, rfl, by simp⟩

/-- A constant, after the table of its type has grown. -/
theorem appendConstant_addsNodes (g g' : QueryGraph) (hgraph : g'.toOpGraph = g.toOpGraph)
    (hnames : g'.names = g.names) (constId : ℤ) (type : ValueType) : AddsNodes g
      [({ op := .CONST, constId := constId, df := 0, type := type, sequence := .SINGLE }, [])]
      (g'.appendConstant constId type).2 :=
  ⟨congrArg (OpGraph.append · _) hgraph, hnames, by simp⟩

theorem appendInt64Constant_addsNodes (g : QueryGraph) (value : ℤ) : AddsNodes g
    [({ op := .CONST, constId := g.int64Constants.length, df := 0, type := .Int64,
        sequence := .SINGLE }, [])] (g.appendInt64Constant value).2 :=
  appendConstant_addsNodes g { g with int64Constants := g.int64Constants ++ [value] } rfl rfl _ _

theorem appendFloat64Constant_addsNodes (g : QueryGraph) (value : Double) : AddsNodes g
    [({ op := .CONST, constId := g.float64Constants.length, df := 0, type := .Float64,
        sequence := .SINGLE }, [])] (g.appendFloat64Constant value).2 :=
  appendConstant_addsNodes g { g with float64Constants := g.float64Constants ++ [value] } rfl rfl
    _ _

theorem appendStringConstant_addsNodes (g : QueryGraph) (value : Bytes) : AddsNodes g
    [({ op := .CONST, constId := g.stringConstants.length, df := 0, type := .String,
        sequence := .SINGLE }, [])] (g.appendStringConstant value).2 :=
  appendConstant_addsNodes g { g with stringConstants := g.stringConstants ++ [value] } rfl rfl _ _

namespace GrowsBy

variable {g g' : QueryGraph} {new : List (Operation × List ℤ)}

theorem size_eq (h : GrowsBy g new g') : g'.size = g.size + new.length := by
  rw [h.graph_eq, OpGraph.size_append]

theorem operation_eq (h : GrowsBy g new g') {i : ℤ} (hi : g.Valid i) :
    g'.operation i = g.operation i := by
  rw [h.graph_eq, OpGraph.operation_append hi]

theorem children_eq (h : GrowsBy g new g')
    (hlengths : g.graphMapping.length = g.operations.length) {i : ℤ} (hi : g.Valid i) :
    g'.children i = g.children i := by
  rw [h.graph_eq, OpGraph.children_append hlengths hi]

theorem valid (h : GrowsBy g new g') {i : ℤ} (hi : g.Valid i) : g'.Valid i := by
  rw [h.graph_eq]
  exact hi.append new

end GrowsBy

/-- The nodes of `g` are nodes of `g'`, maybe with other names. -/
structure KeepsNodes (g g' : QueryGraph) : Prop where
  lengths : g.graphMapping.length = g.operations.length →
    g'.graphMapping.length = g'.operations.length
  size_le : g.size ≤ g'.size
  operation_eq : ∀ i, g.Valid i → ∃ name, g'.operation i = { g.operation i with name := name }
  children_eq : g.graphMapping.length = g.operations.length → ∀ i, g.Valid i →
    g'.children i = g.children i

namespace KeepsNodes

variable {g g' g'' : QueryGraph}

theorem refl (g : QueryGraph) : KeepsNodes g g :=
  ⟨id, le_rfl, fun i _ => ⟨(g.operation i).name, rfl⟩, fun _ _ _ => rfl⟩

theorem valid (h : KeepsNodes g g') {i : ℤ} (hi : g.Valid i) : g'.Valid i :=
  ⟨hi.1, hi.2.trans_le (by exact_mod_cast h.size_le)⟩

theorem trans (h : KeepsNodes g g') (h' : KeepsNodes g' g'') : KeepsNodes g g'' := by
  refine ⟨h'.lengths ∘ h.lengths, h.size_le.trans h'.size_le, fun i hi => ?_, fun hl i hi => ?_⟩
  · obtain ⟨name, hname⟩ := h.operation_eq i hi
    obtain ⟨name', hname'⟩ := h'.operation_eq i (h.valid hi)
    rw [hname] at hname'
    exact ⟨name', hname'⟩
  · rw [h'.children_eq (h.lengths hl) i (h.valid hi), h.children_eq hl i hi]

theorem op_eq (h : KeepsNodes g g') {i : ℤ} (hi : g.Valid i) :
    (g'.operation i).op = (g.operation i).op := by
  obtain ⟨name, hname⟩ := h.operation_eq i hi
  rw [hname]

theorem type_eq (h : KeepsNodes g g') {i : ℤ} (hi : g.Valid i) :
    (g'.operation i).type = (g.operation i).type := by
  obtain ⟨name, hname⟩ := h.operation_eq i hi
  rw [hname]

end KeepsNodes

theorem GrowsBy.keepsNodes {g g' : QueryGraph} {new : List (Operation × List ℤ)}
    (h : GrowsBy g new g') : KeepsNodes g g' where
  lengths hl := by
    rw [h.graph_eq]
    exact OpGraph.lengths_append hl new
  size_le := by
    rw [h.size_eq]
    exact Nat.le_add_right _ _
  operation_eq i hi := ⟨(g.operation i).name, h.operation_eq hi⟩
  children_eq hl i hi := h.children_eq hl hi

theorem setNodeName_keepsNodes {g g' : QueryGraph} {nodeId : ℤ} {name : Bytes}
    (h : g.setNodeName nodeId name = some g') : KeepsNodes g g' := by
  obtain ⟨o, -, rfl⟩ := Option.map_eq_some_iff.mp h
  refine ⟨fun hl => ?_, ?_, fun i hi => ?_, fun _ _ _ => rfl⟩
  · exact hl.trans (Cpp.length_modify _ _ _).symm
  · exact (Cpp.length_modify _ _ _).ge
  · obtain ⟨o, ho⟩ := Option.isSome_iff_exists.mp ((Cpp.index_isSome_iff g.operations i).mpr hi)
    have hold : g.operation i = o := by rw [OpGraph.operation, ho, Option.getD_some]
    change ∃ name, (Cpp.index (Cpp.modify g.operations nodeId _) i).getD default = _
    rw [Cpp.index_modify, hold, ho]
    split_ifs
    · exact ⟨_, rfl⟩
    · exact ⟨o.name, rfl⟩

end QueryGraph

end Query

end DistStorage
