import DistStorage.Parse.SelectList

/-!
# The node over the clauses of a select statement

A select statement stands for the node of its outermost clause, whatever that
is: `DF` without clauses, else `FILTER`, `GROUP`, `SORT` or `RANGE`. Only the
children of a `DF` node are the items of the select list. Those of another node
are the node below it and what the clause itself lists, so the names that such a
statement shows are those of the columns in its outermost clause.
-/

namespace DistStorage

namespace Parse

open Cpp Query QueryGraph

def JoinClause.onExpr : JoinClause → Expression
  | .mk _ onExpr => onExpr

def joinConditions : Option FromClause → List Expression
  | none => []
  | some (.mk _ joins) => joins.map JoinClause.onExpr

/-- The name that a sort item refers to, if its node is a column. -/
def SortItem.varName : SortItem → Option Bytes
  | .mk expression desc => if desc then none else expression.varName

/-- The operation of the node that a select statement stands for. -/
def SelectStatement.top : SelectStatement → ColumnOperation
  | .mk _ _ fromClause whereExpr groupByExprs sortItems limitExpr offsetExpr =>
      if offsetExpr.isSome || limitExpr.isSome then .RANGE
      else if !sortItems.isEmpty then .SORT
      else if !groupByExprs.isEmpty then .GROUP
      else if !(joinConditions fromClause ++ whereExpr.toList).isEmpty then .FILTER
      else .DF

/-- What the outermost clause lists: for each entry the name it refers to, if it
is a column. -/
def SelectStatement.keys : SelectStatement → List (Option Bytes)
  | .mk _ _ fromClause whereExpr groupByExprs sortItems limitExpr offsetExpr =>
      if offsetExpr.isSome || limitExpr.isSome then offsetExpr.toList.map Expression.varName
      else if !sortItems.isEmpty then sortItems.map SortItem.varName
      else if !groupByExprs.isEmpty then groupByExprs.map Expression.varName
      else match joinConditions fromClause ++ whereExpr.toList with
        | [expression] => [expression.varName]
        | _ => []

def SelectStatement.lacksLimit : SelectStatement → Bool
  | .mk _ _ _ _ _ _ limitExpr offsetExpr => offsetExpr.isSome && !limitExpr.isSome

/-- The named columns among what a clause lists. -/
def Setting.columns (K : Setting) (varNames : List (Option Bytes)) : List (Bytes × ℤ) :=
  varNames.filterMap fun varName => (varName.bind K.vars.find).bind fun i =>
    (K.names i).map fun name => (name, i)

/-- A node over some children, at the end of a visit that keeps the setting. -/
structure Tops (K : Setting) (op : ColumnOperation) (kids : List ℤ) (n : ℤ)
    (t : VisitorState) : Prop where
  holds : K.Holds t
  new : (K.base : ℤ) ≤ n
  op_eq : (t.outGraph.operation n).op = op
  children_eq : t.outGraph.children n = kids

/-- A setting that names no new node. -/
def Setting.Fresh (K : Setting) : Prop := ∀ i : ℤ, ¬(0 ≤ i ∧ i < K.base) → K.names i = none

theorem Setting.fresh_of (s : VisitorState) : (Setting.of s).Fresh :=
  fun _ hi => nameOf_of_not_valid hi

theorem Setting.Fresh.names_eq_none {K : Setting} (h : K.Fresh) {i : ℤ} (hi : (K.base : ℤ) ≤ i) :
    K.names i = none :=
  h i fun hold => absurd hold.2 (not_lt.mpr hi)

section Tops

variable {K : Setting} {op : ColumnOperation} {kids : List ℤ} {s t : VisitorState} {n df : ℤ}

theorem build_tops {type : ValueType} {args : List ℤ} (hl : K.lengths) (hK : K.Holds s)
    (h : build (fun g => g.appendNode nodeNone op type args) s = .returned n t) :
    Tops K op args n t := by
  obtain ⟨holds, hnew⟩ := Setting.appendNode_after nodeNone op type args s n t hK h
  cases h
  have hfirst : [(({ op := op, type := type, sequence := .SINGLE } : Operation), args)][0]? =
      some ({ op := op, type := type, sequence := .SINGLE }, args) := rfl
  have hchildren := OpGraph.children_append_fresh (hK.lengths_of hl) hfirst
  have hop := OpGraph.operation_append_fresh s.outGraph.toOpGraph hfirst
  rw [Nat.cast_zero, add_zero] at hchildren hop
  exact ⟨holds, hnew, congrArg Operation.op hop, hchildren⟩

theorem appendFilter_tops {filters : List ℤ} (hlengths : K.lengths) (hs : Tops K op kids df s)
    (h : appendFilter df filters s = .returned n t) :
    filters = [] ∧ n = df ∧ t = s ∨
      filters ≠ [] ∧ ∃ f, Tops K .FILTER [df, f] n t ∧
        (filters = [f] ∨ (∀ i, filters ≠ [i]) ∧ (K.base : ℤ) ≤ f) := by
  unfold appendFilter at h
  split at h
  · obtain ⟨rfl, rfl⟩ := Action.pure_eq_returned.mp h
    exact .inl ⟨rfl, rfl, rfl⟩
  · exact .inr ⟨by simp, _, build_tops hlengths hs.holds h, .inl rfl⟩
  · rename_i hnil hone
    obtain ⟨f, u, hand, h⟩ := Action.bind_eq_returned.mp h
    have hu := build_tops hlengths hs.holds hand
    exact .inr ⟨hnil, f, build_tops hlengths hu.holds h, .inr ⟨hone, hu.new⟩⟩

theorem appendKeys_tops {op' : ColumnOperation} {keys : List ℤ} (hlengths : K.lengths)
    (hs : Tops K op kids df s) (h : appendKeys op' df keys s = .returned n t) :
    keys = [] ∧ n = df ∧ t = s ∨ keys ≠ [] ∧ Tops K op' (df :: keys) n t := by
  unfold appendKeys at h
  split_ifs at h with hkeys
  · obtain ⟨rfl, rfl⟩ := Action.pure_eq_returned.mp h
    exact .inl ⟨hkeys, rfl, rfl⟩
  · exact .inr ⟨hkeys, build_tops hlengths hs.holds h⟩

/-- With or without keys, a node is on top. -/
theorem exists_tops_appendKeys {op' : ColumnOperation} {keys : List ℤ} (hlengths : K.lengths)
    (hs : Tops K op kids df s) (h : appendKeys op' df keys s = .returned n t) :
    ∃ op kids, Tops K op kids n t := by
  rcases appendKeys_tops hlengths hs h with ⟨-, rfl, rfl⟩ | ⟨-, ht⟩
  · exact ⟨_, _, hs⟩
  · exact ⟨_, _, ht⟩

/-- A range is over the node, its offset or a new zero, and a new sum or the mark
of an absent limit. -/
theorem appendRange_tops {offset limit : Option ℤ} (hlengths : K.lengths)
    (hs : Tops K op kids df s)
    (hoffset : ∀ i, offset = some i → i ≠ nodeNone) (hlimit : ∀ i, limit = some i → i ≠ nodeNone)
    (h : appendRange df (offset.getD nodeNone) (limit.getD nodeNone) s = .returned n t) :
    offset = none ∧ limit = none ∧ n = df ∧ t = s ∨
      (offset ≠ none ∨ limit ≠ none) ∧ ∃ o l, Tops K .RANGE [df, o, l] n t ∧
        (offset = some o ∨ offset = none ∧ (K.base : ℤ) ≤ o) ∧
        (limit = none ∧ l = nodeNone ∨ limit ≠ none ∧ (K.base : ℤ) ≤ l) := by
  unfold appendRange at h
  rcases offset with _ | o <;> rcases limit with _ | l
  · obtain ⟨rfl, rfl⟩ := Action.pure_eq_returned.mp h
    exact .inl ⟨rfl, rfl, rfl, rfl⟩
  · simp only [Option.getD_none, Option.getD_some, hlimit l rfl, ne_eq, not_false_eq_true,
      true_or, if_true] at h
    obtain ⟨o, u, hzero, h⟩ := Action.bind_eq_returned.mp h
    obtain ⟨hu, ho⟩ := Setting.After.build (fun g => appendInt64Constant_addsUnnamed g 0) s o u
      hs.holds hzero
    obtain ⟨l', v, hadd, h⟩ := Action.bind_eq_returned.mp h
    have hv := build_tops hlengths hu hadd
    exact .inr ⟨by simp, o, l', build_tops hlengths hv.holds h, .inr ⟨rfl, ho⟩,
      .inr ⟨by simp, hv.new⟩⟩
  · simp only [Option.getD_none, Option.getD_some, hoffset o rfl, ne_eq, not_true_eq_false,
      not_false_eq_true, or_true, if_true, if_false] at h
    exact .inr ⟨by simp, o, nodeNone, build_tops hlengths hs.holds h, .inl rfl, .inl ⟨rfl, rfl⟩⟩
  · simp only [Option.getD_some, hoffset o rfl, hlimit l rfl, ne_eq, not_false_eq_true,
      true_or, if_true, if_false] at h
    obtain ⟨o', u, hpure, h⟩ := Action.bind_eq_returned.mp h
    obtain ⟨rfl, rfl⟩ := Action.pure_eq_returned.mp hpure
    obtain ⟨l', v, hadd, h⟩ := Action.bind_eq_returned.mp h
    have hv := build_tops hlengths hs.holds hadd
    exact .inr ⟨by simp, o, l', build_tops hlengths hv.holds h, .inl rfl, .inr ⟨by simp, hv.new⟩⟩

end Tops

section Columns

variable {K : Setting}

theorem namedNodes_eq_columns (hfresh : K.Fresh) {varNames : List (Option Bytes)}
    {ids : List ℤ} (h : List.Forall₂ K.Denotes varNames ids) :
    namedNodes K.names ids = K.columns varNames := by
  induction h with
  | nil => rfl
  | @cons varName i varNames ids hi _ ih =>
      cases varName with
      | none => exact (namedNodes_cons_of_none (hfresh.names_eq_none hi) ids).trans ih
      | some varName =>
          change (i :: ids).filterMap _ = (some varName :: varNames).filterMap _
          have hfind : K.vars.find varName = some i := hi
          rw [List.filterMap_cons, List.filterMap_cons, Option.bind_some, hfind, Option.bind_some]
          cases K.names i with
          | none => exact ih
          | some name => exact congrArg _ ih

theorem visitOptional_after (env : Environment) (x : Option Expression) :
    K.After (visitOptional env x) fun nodeId =>
      List.Forall₂ K.Denotes (x.toList.map Expression.varName) nodeId.toList := by
  cases x with
  | none =>
      rw [visitOptional]
      exact Setting.After.pure .nil
  | some expression =>
      rw [visitOptional]
      refine (visitExpression_after env expression).castNode.bind fun nodeId hnode => ?_
      exact Setting.After.pure (.cons hnode .nil)

theorem visitExpressions_after (env : Environment) (l : List Expression) :
    K.After (visitExpressions env l) fun nodeIds =>
      List.Forall₂ K.Denotes (l.map Expression.varName) nodeIds := by
  induction l with
  | nil =>
      rw [visitExpressions]
      exact Setting.After.pure .nil
  | cons expression rest ih =>
      rw [visitExpressions]
      refine (visitExpression_after env expression).castNode.bind fun nodeId hnode => ?_
      exact ih.bind fun nodeIds hnodes => Setting.After.pure (.cons hnode hnodes)

theorem visitSortItem_after (env : Environment) (x : SortItem) :
    K.After (visitSortItem env x) (K.Denotes x.varName) := by
  obtain ⟨expression, desc⟩ := x
  rw [visitSortItem, SortItem.varName]
  refine (visitExpression_after env expression).castNode.bind fun nodeId hnode => ?_
  split_ifs
  · exact Setting.appendNode_after _ _ _ _
  · exact Setting.After.pure hnode

theorem visitSortItems_after (env : Environment) (l : List SortItem) :
    K.After (visitSortItems env l) fun nodeIds =>
      List.Forall₂ K.Denotes (l.map SortItem.varName) nodeIds := by
  induction l with
  | nil =>
      rw [visitSortItems]
      exact Setting.After.pure .nil
  | cons sortItem rest ih =>
      rw [visitSortItems]
      refine (visitSortItem_after env sortItem).bind fun nodeId hnode => ?_
      exact ih.bind fun nodeIds hnodes => Setting.After.pure (.cons hnode hnodes)

end Columns

theorem ne_nodeNone_of_le {k : ℕ} {i : ℤ} (h : (k : ℤ) ≤ i) : i ≠ nodeNone :=
  ne_nodeNone_of_nonneg ((Nat.cast_nonneg k).trans h)

/-- What the clauses are given: the relations, the columns and the conditions of
the joins are nodes, and a single condition is the column it refers to. -/
structure Setting.Given (K : Setting) (conditions : List Expression) (ids joinFilters : List ℤ) :
    Prop where
  fresh : K.Fresh
  vars : ∀ i ∈ K.vars.values, i ≠ nodeNone
  present : ∀ i ∈ ids ++ joinFilters, i ≠ nodeNone
  length_eq : joinFilters.length = conditions.length
  single : ∀ i expression, joinFilters = [i] → conditions = [expression] →
    namedNodes K.names [i] = K.columns [expression.varName]

theorem Setting.Given.ne_nodeNone {K : Setting} {conditions : List Expression}
    {ids joinFilters : List ℤ} (h : K.Given conditions ids joinFilters)
    {varNames : List (Option Bytes)} {l : List ℤ} (hl : List.Forall₂ K.Denotes varNames l) :
    ∀ i ∈ l, i ≠ nodeNone := by
  induction hl with
  | nil => simp
  | @cons varName i varNames l hi _ ih =>
      refine List.forall_mem_cons.mpr ⟨?_, ih⟩
      rcases hi.comes with hvar | hnew
      · exact h.vars i hvar
      · exact ne_nodeNone_of_le hnew

theorem isSome_of_denotes {K : Setting} {x : Option Expression} {nodeId : Option ℤ}
    (h : List.Forall₂ K.Denotes (x.toList.map Expression.varName) nodeId.toList) :
    nodeId.isSome = x.isSome := by
  have hlength := h.length_eq
  cases x <;> cases nodeId <;> simp at hlength ⊢

theorem isEmpty_of_forall₂ {α β γ : Type} {R : α → β → Prop} {f : γ → α} {l : List γ}
    {l' : List β} (h : List.Forall₂ R (l.map f) l') : l' = [] ↔ l.isEmpty = true := by
  have hlength := h.length_eq
  cases l <;> cases l' <;> simp at hlength ⊢

theorem namedNodes_filter {K : Setting} {conditions : List Expression} {ids joinFilters : List ℤ}
    (hgiven : K.Given conditions ids joinFilters) {whereExpr : Option Expression}
    {whereId : Option ℤ} {f : ℤ}
    (hwhere : List.Forall₂ K.Denotes (whereExpr.toList.map Expression.varName) whereId.toList)
    (hf : joinFilters ++ whereId.toList = [f] ∨
      (∀ i, joinFilters ++ whereId.toList ≠ [i]) ∧ (K.base : ℤ) ≤ f) :
    namedNodes K.names [f] = K.columns (match conditions ++ whereExpr.toList with
      | [expression] => [expression.varName]
      | _ => []) := by
  have hlength : (conditions ++ whereExpr.toList).length =
      (joinFilters ++ whereId.toList).length := by
    rw [List.length_append, List.length_append, hgiven.length_eq, ← hwhere.length_eq,
      List.length_map]
  rcases hf with hone | ⟨hseveral, hnew⟩
  · rcases joinFilters with _ | ⟨i, joinFilters⟩
    · -- The condition is that of `WHERE`.
      obtain rfl : conditions = [] := List.eq_nil_of_length_eq_zero hgiven.length_eq.symm
      rw [List.nil_append] at hone ⊢
      rw [hone] at hwhere
      cases whereExpr with
      | none => cases hwhere
      | some expression => exact namedNodes_eq_columns hgiven.fresh hwhere
    · -- The condition is that of the only join.
      obtain ⟨rfl, hrest⟩ := List.cons.inj hone
      obtain ⟨rfl, hwhereNil⟩ := List.append_eq_nil_iff.mp hrest
      obtain ⟨expression, rfl⟩ := List.length_eq_one_iff.mp hgiven.length_eq.symm
      rw [hwhereNil] at hwhere
      cases whereExpr with
      | none => exact hgiven.single i expression rfl rfl
      | some expression => cases hwhere
  · rw [namedNodes_cons_of_none (hgiven.fresh.names_eq_none hnew)]
    split
    · rename_i expression hconditions
      rw [hconditions] at hlength
      obtain ⟨i, hi⟩ := List.length_eq_one_iff.mp hlength.symm
      exact absurd hi (hseveral i)
    · rfl

section Over

variable {K : Setting} {op : ColumnOperation} {kids : List ℤ} {d : ℤ} {u : VisitorState}

/-- The node that a clause is over is new, so it has no name. -/
theorem Tops.unnamed (h : Tops K op kids d u) (hfresh : K.Fresh) :
    K.names d = none ∧ nodeNone ≠ d :=
  ⟨hfresh.names_eq_none h.new, (ne_nodeNone_of_le h.new).symm⟩

variable {conditions : List Expression} {ids joinFilters : List ℤ}
  (hgiven : K.Given conditions ids joinFilters)

include hgiven

theorem Tops.over_keys (h : Tops K op kids d u) {varNames : List (Option Bytes)} {l : List ℤ}
    (hl : List.Forall₂ K.Denotes varNames l) :
    namedNodes K.names (d :: l) = K.columns varNames ∧ nodeNone ∉ d :: l := by
  obtain ⟨hnone, hne⟩ := h.unnamed hgiven.fresh
  constructor
  · rw [namedNodes_cons_of_none hnone]
    exact namedNodes_eq_columns hgiven.fresh hl
  · intro hmem
    exact (List.mem_cons.mp hmem).elim hne fun hmem => hgiven.ne_nodeNone hl nodeNone hmem rfl

theorem Tops.over_filter (h : Tops K op kids d u) {whereExpr : Option Expression}
    {whereId : Option ℤ} {f : ℤ}
    (hwhere : List.Forall₂ K.Denotes (whereExpr.toList.map Expression.varName) whereId.toList)
    (hf : joinFilters ++ whereId.toList = [f] ∨
      (∀ i, joinFilters ++ whereId.toList ≠ [i]) ∧ (K.base : ℤ) ≤ f) :
    namedNodes K.names [d, f] = K.columns (match conditions ++ whereExpr.toList with
        | [expression] => [expression.varName]
        | _ => []) ∧ nodeNone ∉ [d, f] := by
  obtain ⟨hnone, hne⟩ := h.unnamed hgiven.fresh
  constructor
  · rw [namedNodes_cons_of_none hnone]
    exact namedNodes_filter hgiven hwhere hf
  · have hf' : nodeNone ≠ f := by
      rcases hf with hone | ⟨-, hnew⟩
      · rcases List.mem_append.mp (hone ▸ List.mem_singleton_self f) with hmem | hmem
        · exact (hgiven.present f (List.mem_append_right _ hmem)).symm
        · exact (hgiven.ne_nodeNone hwhere f hmem).symm
      · exact (ne_nodeNone_of_le hnew).symm
    simp [hne, hf']

theorem Tops.over_range (h : Tops K op kids d u) {offsetExpr : Option Expression}
    {offset limit : Option ℤ} {o l : ℤ}
    (hoffset : List.Forall₂ K.Denotes (offsetExpr.toList.map Expression.varName) offset.toList)
    (hor : offset ≠ none ∨ limit ≠ none) (ho : offset = some o ∨ offset = none ∧ (K.base : ℤ) ≤ o)
    (hl : limit = none ∧ l = nodeNone ∨ limit ≠ none ∧ (K.base : ℤ) ≤ l) :
    namedNodes K.names [d, o, l] = K.columns (offsetExpr.toList.map Expression.varName) ∧
      (nodeNone ∈ [d, o, l] ↔ (offset.isSome && !limit.isSome) = true) := by
  obtain ⟨hnone, hne⟩ := h.unnamed hgiven.fresh
  constructor
  · have hlast : K.names l = none := by
      rcases hl with ⟨-, rfl⟩ | ⟨-, hl⟩
      · exact hgiven.fresh nodeNone fun h => absurd h.1 (by decide)
      · exact hgiven.fresh.names_eq_none hl
    rw [namedNodes_cons_of_none hnone, ← namedNodes_eq_columns hgiven.fresh hoffset]
    rcases ho with rfl | ⟨rfl, ho⟩
    · rw [Option.toList_some, show [o, l] = [o] ++ [l] from rfl, namedNodes_append,
        namedNodes_cons_of_none hlast]
      exact List.append_nil _
    · rw [namedNodes_cons_of_none (hgiven.fresh.names_eq_none ho), namedNodes_cons_of_none hlast]
      rfl
  · have ho' : nodeNone ≠ o := by
      rcases ho with rfl | ⟨-, ho⟩
      · exact (hgiven.ne_nodeNone hoffset o (by simp)).symm
      · exact (ne_nodeNone_of_le ho).symm
    rw [List.mem_cons, or_iff_right hne, List.mem_cons, or_iff_right ho', List.mem_singleton]
    rcases hl with ⟨rfl, rfl⟩ | ⟨hl, hnew⟩
    · simpa [Option.isSome_iff_ne_none] using hor
    · simp [Option.isSome_iff_ne_none, hl, (ne_nodeNone_of_le hnew).symm]

end Over

theorem visitClauses_tops {env : Environment} {K : Setting} {x : SelectStatement}
    {tableNodeIds columnNodeIds joinFilters : List ℤ} {s t : VisitorState} {n : ℤ}
    (hlengths : K.lengths) (hK : K.Holds s)
    (hgiven : K.Given (joinConditions x.fromClause) (tableNodeIds ++ columnNodeIds) joinFilters)
    (h : visitClauses env tableNodeIds columnNodeIds joinFilters x s = .returned n t) :
    ∃ kids, Tops K x.top kids n t ∧
      (x.top = .DF → kids = tableNodeIds ++ columnNodeIds) ∧
      (x.top ≠ .DF → namedNodes K.names kids = K.columns x.keys) ∧
      (nodeNone ∈ kids ↔ x.lacksLimit = true) := by
  obtain ⟨selectElement, rest, fromClause, whereExpr, groupByExprs, sortItems, limitExpr,
    offsetExpr⟩ := x
  obtain ⟨whereId, s₁, hwhere, h⟩ := Action.bind_eq_returned.mp h
  obtain ⟨groupIds, s₂, hgroup, h⟩ := Action.bind_eq_returned.mp h
  obtain ⟨orderIds, s₃, horder, h⟩ := Action.bind_eq_returned.mp h
  obtain ⟨offset, s₄, hoffset, h⟩ := Action.bind_eq_returned.mp h
  obtain ⟨limit, s₅, hlimit, h⟩ := Action.bind_eq_returned.mp h
  obtain ⟨hs₁, hwhere⟩ := visitOptional_after env whereExpr s whereId s₁ hK hwhere
  obtain ⟨hs₂, hgroup⟩ := visitExpressions_after env groupByExprs s₁ groupIds s₂ hs₁ hgroup
  obtain ⟨hs₃, horder⟩ := visitSortItems_after env sortItems s₂ orderIds s₃ hs₂ horder
  obtain ⟨hs₄, hoffset⟩ := visitOptional_after env offsetExpr s₃ offset s₄ hs₃ hoffset
  obtain ⟨hs₅, hlimit⟩ := visitOptional_after env limitExpr s₄ limit s₅ hs₄ hlimit
  obtain ⟨df, u, hdf, h⟩ := Action.bind_eq_returned.mp h
  obtain ⟨filtered, u₁, hfiltered, h⟩ := Action.bind_eq_returned.mp h
  obtain ⟨grouped, u₂, hgrouped, h⟩ := Action.bind_eq_returned.mp h
  obtain ⟨sorted, u₃, hsorted, h⟩ := Action.bind_eq_returned.mp h
  have hu : Tops K .DF (tableNodeIds ++ columnNodeIds) df u := build_tops hlengths hs₅ hdf
  have hfilter := appendFilter_tops hlengths hu hfiltered
  obtain ⟨op₁, kids₁, hu₁⟩ : ∃ op kids, Tops K op kids filtered u₁ := by
    rcases hfilter with ⟨-, rfl, rfl⟩ | ⟨-, f, hu₁, -⟩
    · exact ⟨_, _, hu⟩
    · exact ⟨_, _, hu₁⟩
  have hgroups := appendKeys_tops hlengths hu₁ hgrouped
  obtain ⟨op₂, kids₂, hu₂⟩ := exists_tops_appendKeys hlengths hu₁ hgrouped
  have horders := appendKeys_tops hlengths hu₂ hsorted
  obtain ⟨op₃, kids₃, hu₃⟩ := exists_tops_appendKeys hlengths hu₂ hsorted
  have hsome : ∀ {o : Option ℤ} {l : List (Option Bytes)}, List.Forall₂ K.Denotes l o.toList →
      ∀ i, o = some i → i ≠ nodeNone :=
    fun ho i hi => hgiven.ne_nodeNone ho i (by simp [hi])
  have hlength : (joinConditions fromClause ++ whereExpr.toList).length =
      (joinFilters ++ whereId.toList).length := by
    rw [List.length_append, List.length_append, hgiven.length_eq, ← hwhere.length_eq,
      List.length_map]
    rfl
  simp only [SelectStatement.top, SelectStatement.keys, SelectStatement.lacksLimit]
  rw [← isSome_of_denotes hoffset, ← isSome_of_denotes hlimit]
  -- The last clause that is there makes the node.
  rcases appendRange_tops hlengths hu₃ (hsome hoffset) (hsome hlimit) h with
    ⟨rfl, rfl, rfl, rfl⟩ | ⟨hor, o, l, htop, ho, hl⟩
  · simp only [Option.isSome_none, Bool.or_self, Bool.false_eq_true, if_false, Bool.false_and,
      iff_false]
    rcases horders with ⟨hnil, rfl, rfl⟩ | ⟨hne, htop⟩
    · rw [(isEmpty_of_forall₂ horder).mp hnil]
      simp only [Bool.not_true, Bool.false_eq_true, if_false]
      rcases hgroups with ⟨hnil, rfl, rfl⟩ | ⟨hne, htop⟩
      · rw [(isEmpty_of_forall₂ hgroup).mp hnil]
        simp only [Bool.not_true, Bool.false_eq_true, if_false]
        rcases hfilter with ⟨hnil, rfl, rfl⟩ | ⟨hne, f, htop, hf⟩
        · rw [List.eq_nil_of_length_eq_zero (hlength.trans (congrArg _ hnil))]
          refine ⟨_, hu, fun _ => rfl, fun hop => absurd rfl hop, ?_⟩
          exact fun hmem => hgiven.present nodeNone (List.mem_append_left _ hmem) rfl
        · have hconditions : (joinConditions fromClause ++ whereExpr.toList).isEmpty = false := by
            rw [List.isEmpty_eq_false_iff, ← List.length_pos_iff, hlength, List.length_pos_iff]
            exact hne
          rw [hconditions]
          obtain ⟨hnames, hmark⟩ := hu.over_filter hgiven hwhere hf
          exact ⟨_, htop, by simp, fun _ => hnames, hmark⟩
      · rw [Bool.eq_false_iff.mpr fun hempty => hne ((isEmpty_of_forall₂ hgroup).mpr hempty)]
        obtain ⟨hnames, hmark⟩ := hu₁.over_keys hgiven hgroup
        exact ⟨_, htop, by simp, fun _ => hnames, hmark⟩
    · rw [Bool.eq_false_iff.mpr fun hempty => hne ((isEmpty_of_forall₂ horder).mpr hempty)]
      obtain ⟨hnames, hmark⟩ := hu₂.over_keys hgiven horder
      exact ⟨_, htop, by simp, fun _ => hnames, hmark⟩
  · have hor' : (offset.isSome || limit.isSome) = true := by
      simpa [Option.isSome_iff_ne_none] using hor
    rw [hor']
    obtain ⟨hnames, hmark⟩ := hu₃.over_range hgiven hoffset hor ho hl
    exact ⟨_, htop, by simp, fun _ => hnames, hmark⟩

end Parse

end DistStorage
