import DistStorage.Parse.QueryNode
import DistStorage.Parse.SilentExpressions

/-!
# The nodes that origins stand for

The node of a column or of a relation by name is the one that the contexts have
when it is named or entered, and that of anything else is new. The tables that a
state knows stay known, and those that a visit comes to know are new.
-/

namespace DistStorage

namespace Parse

open Cpp Cpp.Action Query QueryGraph

/-- A node without a name that was not among the first `n`. -/
structure Made (n : ℕ) (s : VisitorState) (i : ℤ) : Prop where
  size_le : n ≤ s.outGraph.size
  new : (n : ℤ) ≤ i
  name_eq : s.outGraph.getNodeName i = some []

def Grows {α : Type} (m : Visit α) : Prop :=
  ∀ s a t, m s = .returned a t → s.outGraph.size ≤ t.outGraph.size

/-- A visit that returns a new node without a name. -/
def Mints (m : Visit ℤ) : Prop :=
  ∀ s i t, m s = .returned i t → Made s.outGraph.size t i

/-- A visit that puts such a node over the one it is given, or returns that. -/
def Remints (f : ℤ → Visit ℤ) : Prop :=
  ∀ n s df i t, Made n s df → f df s = .returned i t → Made n t i

section Minting

variable {α : Type}

theorem grows_of_follows {m : Visit α} {p : VisitorState → List Event}
    (h : Follows (fun s _ t => KeepsNodes s.outGraph t.outGraph) Unbound m p) : Grows m :=
  fun s a t hm => (keepsNodes_of_follows h s a t hm).size_le

theorem grows_pure (a : α) : Grows (pure a : Visit α) := by
  intro s b t h
  rw [(pure_eq_returned.mp h).2]

theorem grows_push {f : QueryGraph → ℤ × QueryGraph} {new : QueryGraph → List (Operation × List ℤ)}
    (hf : ∀ g, AddsNodes g (new g) (f g).2) : Grows (build f) := by
  intro s i t h
  cases h
  exact (hf s.outGraph).growsBy.keepsNodes.size_le

theorem grows_appendNode (df : ℤ) (op : ColumnOperation) (type : ValueType) (args : List ℤ) :
    Grows (build fun g => g.appendNode df op type args) :=
  grows_push fun g => appendNode_addsNodes g df op type args

theorem Grows.before {m : Visit α} {f : α → Visit ℤ} (hm : Grows m) (hf : ∀ a, Mints (f a)) :
    Mints (m >>= f) := by
  intro s i u h
  obtain ⟨a, t, hms, h⟩ := bind_eq_returned.mp h
  obtain ⟨hsize, hnew, hname⟩ := hf a t i u h
  have hle := hm s a t hms
  exact ⟨hle.trans hsize, by omega, hname⟩

theorem Mints.over {m : Visit ℤ} {f : ℤ → Visit ℤ} (hm : Mints m) (hf : Remints f) :
    Mints (m >>= f) := by
  intro s i u h
  obtain ⟨df, t, hms, h⟩ := bind_eq_returned.mp h
  exact hf _ t df i u (hm s df t hms) h

theorem Remints.over {f g : ℤ → Visit ℤ} (hf : Remints f) (hg : Remints g) :
    Remints fun df => f df >>= g := by
  intro n s df i u hs h
  obtain ⟨df', t, hfs, h⟩ := bind_eq_returned.mp h
  exact hg n t df' i u (hf n s df df' t hs hfs) h

theorem remints_pure : Remints pure := by
  intro n s df i t hs h
  obtain ⟨rfl, rfl⟩ := pure_eq_returned.mp h
  exact hs

theorem remints_of_mints {f : ℤ → Visit ℤ} (hf : ∀ df, Mints (f df)) : Remints f := by
  intro n s df i t hs h
  obtain ⟨hsize, hnew, hname⟩ := hf df s i t h
  have hle := hs.size_le
  exact ⟨hle.trans hsize, by omega, hname⟩

theorem mints_appendNode (df : ℤ) (op : ColumnOperation) (type : ValueType) (args : List ℤ) :
    Mints (build fun g => g.appendNode df op type args) := by
  intro s i t h
  have hsize := grows_appendNode df op type args s i t h
  cases h
  refine ⟨hsize, le_rfl, ?_⟩
  have hlast : Cpp.index (s.outGraph.operations ++ [{ op, df, type, sequence := .SINGLE }])
      (s.outGraph.size : ℤ) = some { op, df, type, sequence := .SINGLE } :=
    Cpp.index_append_length s.outGraph.operations _ 0
  exact (congrArg (Option.bind · _) hlast).trans rfl

theorem remints_appendFilter (filters : List ℤ) : Remints fun df => appendFilter df filters := by
  unfold appendFilter
  split
  · exact remints_pure
  · exact remints_of_mints fun df => mints_appendNode _ _ _ _
  · exact remints_of_mints fun df => Grows.before (grows_appendNode _ _ _ _) fun _ =>
      mints_appendNode _ _ _ _

theorem remints_appendKeys (op : ColumnOperation) (keys : List ℤ) :
    Remints fun df => appendKeys op df keys := by
  unfold appendKeys
  split_ifs
  · exact remints_pure
  · exact remints_of_mints fun df => mints_appendNode _ _ _ _

theorem remints_appendRange (offsetNodeId limitNodeId : ℤ) :
    Remints fun df => appendRange df offsetNodeId limitNodeId := by
  have hzero : Grows (build fun g => g.appendInt64Constant 0) :=
    grows_push fun g => appendInt64Constant_addsNodes g 0
  have hrange : ∀ df offsetNodeId limitNodeId : ℤ, Mints (build fun g =>
      g.appendNode nodeNone .RANGE .Any [df, offsetNodeId, limitNodeId]) :=
    fun df offsetNodeId limitNodeId => mints_appendNode _ _ _ _
  unfold appendRange
  split_ifs
  · exact remints_of_mints fun df => hzero.before fun _ =>
      (grows_appendNode _ _ _ _).before fun _ => hrange df _ _
  · exact remints_of_mints fun df => (grows_pure _).before fun _ =>
      (grows_appendNode _ _ _ _).before fun _ => hrange df _ _
  · exact remints_of_mints fun df => hzero.before fun _ =>
      (grows_pure _).before fun _ => hrange df _ _
  · exact remints_of_mints fun df => (grows_pure _).before fun _ =>
      (grows_pure _).before fun _ => hrange df _ _
  · exact remints_pure

theorem mints_constructSelect (tableNodeIds columnNodeIds filters groupNodeIds orderNodeIds :
      List ℤ) (offsetNodeId limitNodeId : ℤ) :
    Mints (constructSelect tableNodeIds columnNodeIds filters groupNodeIds orderNodeIds
      offsetNodeId limitNodeId) :=
  (mints_appendNode _ _ _ _).over <| (remints_appendFilter filters).over <|
    (remints_appendKeys .GROUP groupNodeIds).over <|
    (remints_appendKeys .SORT orderNodeIds).over <|
    remints_appendRange offsetNodeId limitNodeId

end Minting

section Queries

variable {env : Environment} {s t : VisitorState} {i : ℤ}

theorem visitSelectStatement_made {x : SelectStatement}
    (h : visitSelectStatement env x s = .returned (some i) t) : Made s.outGraph.size t i := by
  obtain ⟨selectElement, rest, fromClause, whereExpr, groupByExprs, sortItems, limitExpr,
    offsetExpr⟩ := x
  rw [visitSelectStatement] at h
  obtain ⟨j, u, hscope, hpure⟩ := bind_eq_returned.mp h
  obtain ⟨hj, rfl⟩ := pure_eq_returned.mp hpure
  obtain rfl : i = j := (Option.some.inj hj).symm
  obtain ⟨t, hbody, rfl⟩ := inScope_eq_returned.mp hscope
  have hT := keepsNodes_traced env
  have hoptional := fun x => grows_of_follows (visitOptional_follows hT x)
  obtain ⟨hsize, hnew, hname⟩ : Made (enterSelect s).outGraph.size t i := by
    refine Grows.before (grows_of_follows (visitFrom_follows hT fromClause)) (fun p => ?_) _ _ _
      hbody
    refine Grows.before (grows_of_follows (visitSelectElement_follows hT selectElement)) fun _ => ?_
    refine Grows.before (grows_of_follows (visitSelectElements_follows hT rest)) fun _ => ?_
    refine (hoptional whereExpr).before fun _ => ?_
    refine Grows.before (grows_of_follows (visitExpressions_follows hT groupByExprs)) fun _ => ?_
    refine Grows.before (grows_of_follows (visitSortItems_follows hT sortItems)) fun _ => ?_
    refine (hoptional offsetExpr).before fun _ => (hoptional limitExpr).before fun _ => ?_
    exact mints_constructSelect _ _ _ _ _ _ _
  exact ⟨hsize, hnew, hname⟩

theorem visitQueryExpression_made {x : QueryExpression}
    (h : castNode (visitQueryExpression env x) s = .returned i t) : Made s.outGraph.size t i := by
  obtain ⟨select, rest⟩ := x
  rw [castNode_eq_returned, visitQueryExpression] at h
  obtain ⟨first, u, hfirst, h⟩ := bind_eq_returned.mp h
  obtain ⟨ids, v, hrest, h⟩ := bind_eq_returned.mp h
  obtain ⟨n, w, hunion, h⟩ := bind_eq_returned.mp h
  obtain ⟨hn, rfl⟩ := pure_eq_returned.mp h
  obtain rfl : i = n := (Option.some.inj hn).symm
  have hT := keepsNodes_traced env
  have hmade := visitSelectStatement_made (castNode_eq_returned.mp hfirst)
  have hle := grows_of_follows (visitSelectStatements_follows hT rest) u ids v hrest
  cases rest with
  | nil =>
      rw [visitSelectStatements] at hrest
      obtain ⟨rfl, rfl⟩ := pure_eq_returned.mp hrest
      obtain ⟨rfl, rfl⟩ := pure_eq_returned.mp hunion
      exact hmade
  | cons other rest =>
      rw [visitSelectStatements] at hrest
      obtain ⟨j, u', -, hrest⟩ := bind_eq_returned.mp hrest
      obtain ⟨others, v', -, hrest⟩ := bind_eq_returned.mp hrest
      obtain ⟨rfl, rfl⟩ := pure_eq_returned.mp hrest
      obtain ⟨hsize, hnew, hname⟩ := mints_appendNode _ _ _ _ _ _ _ hunion
      have hsize' := hmade.size_le
      exact ⟨by omega, by omega, hname⟩

theorem visitExpression_origin {x : Expression}
    (h : castNode (visitExpression env x) s = .returned i t) :
    x.origin.node t = some i ∨ x.origin = .made ∧ (s.outGraph.size : ℤ) ≤ i := by
  obtain ⟨ht, hi⟩ := (visitExpression_after env x).castNode s i t (Setting.holds_of s) h
  rw [Expression.origin]
  cases hname : x.varName with
  | none =>
      rw [hname] at hi
      exact .inr ⟨rfl, hi⟩
  | some varName =>
      rw [hname] at hi
      refine .inl ?_
      change t.exprVarContext.find varName = some i
      rw [ht.vars_eq]
      exact hi

theorem node_table_of_find {name : Bytes} (h : s.fileTableContext.find name = some i)
    (hi : i ≠ nodeNone) : (Origin.table name).node s = some i := by
  simp [Origin.node, findIdent, h, hi]

theorem findOrInsertTable_origin {name : Bytes}
    (h : findOrInsertTable env name s = .returned i t) : (Origin.table name).node t = some i := by
  rw [findOrInsertTable] at h
  obtain ⟨s', u, hread, h⟩ := bind_eq_returned.mp h
  cases hread
  split_ifs at h with hfound
  · obtain ⟨o, -, h⟩ := ofOption_bind_eq_returned.mp h
    split_ifs at h
    · obtain ⟨rfl, rfl⟩ := pure_eq_returned.mp h
      exact if_neg hfound
    · cases h
  · rcases hschema : env.tables.find? (fun schema => schema.name = name) with _ | schema
    · rw [hschema] at h
      cases h
    · rw [hschema] at h
      obtain ⟨j, v, hinsert, h⟩ := bind_eq_returned.mp h
      rw [insertTableColumnNodes_eq] at hinsert
      cases hinsert
      cases h
      refine node_table_of_find ?_ (ne_nodeNone_of_nonneg (Nat.cast_nonneg _))
      change (s.fileTableContext.insert name _).find name = _
      rw [OrderedMap.find_insert, if_pos rfl]

theorem Gives.node {origin : Origin} (h : Gives env origin s i t) :
    origin.node t = some i ∨ origin = .made ∧ (s.outGraph.size : ℤ) ≤ i := by
  cases h with
  | expression h => exact visitExpression_origin h
  | table h => exact .inl (findOrInsertTable_origin h)
  | subquery h => exact .inr ⟨rfl, (visitQueryExpression_made h).new⟩

theorem lt_size_of_getNodeName {g : QueryGraph} {i : ℤ} {name : Bytes}
    (h : g.getNodeName i = some name) : i < g.size := by
  obtain ⟨o, ho, -⟩ := Option.bind_eq_some_iff.mp h
  exact ((Cpp.index_isSome_iff _ i).mp (by rw [ho]; rfl)).2

/-- Naming a relation returns its node and changes the graph alone, if anything. -/
theorem nameRelation_eq_returned {aliasName : Option Bytes} {a : Any}
    (h : nameRelation i aliasName s = .returned a t) : a = some i ∧ i < s.outGraph.size ∧
      ∃ g, t = { s with outGraph := g } ∧ (aliasName = none → g = s.outGraph) := by
  unfold nameRelation at h
  obtain ⟨s', u, hread, h⟩ := bind_eq_returned.mp h
  cases hread
  obtain ⟨exprName, hname, h⟩ := ofOption_bind_eq_returned.mp h
  have hlt := lt_size_of_getNodeName hname
  dsimp only at h
  split_ifs at h with hnamed
  · obtain ⟨⟨⟩, u, hset, h⟩ := bind_eq_returned.mp h
    obtain ⟨rfl, rfl⟩ := pure_eq_returned.mp h
    obtain ⟨g, -, rfl⟩ := setName_leaves (.returned () hset)
    exact ⟨rfl, hlt, g, rfl, fun hnone => absurd (by rw [hnone]; rfl) hnamed.2⟩
  · obtain ⟨rfl, rfl⟩ := pure_eq_returned.mp h
    exact ⟨rfl, hlt, _, rfl, fun _ => rfl⟩

/-- The node of a relation is the one that the contexts have for its name, or
new, and then it has no name but its alias. -/
theorem visitRelation_origin {relation : Relation}
    (h : castNode (visitRelation env relation) s = .returned i t) :
    relation.origin.node t = some i ∨ relation.origin = .made ∧ (s.outGraph.size : ℤ) ≤ i ∧
      (relation.aliasName = none → t.outGraph.getNodeName i = some []) := by
  rw [castNode_eq_returned] at h
  cases relation with
  | table name aliasName =>
      rw [visitRelation] at h
      obtain ⟨j, u, hlookup, h⟩ := bind_eq_returned.mp h
      obtain ⟨hj, -, g, rfl, -⟩ := nameRelation_eq_returned h
      obtain rfl := Option.some.inj hj
      have hnode : (Origin.table name).node u = some i := findOrInsertTable_origin hlookup
      exact .inl hnode
  | subquery queryExpression aliasName =>
      rw [visitRelation] at h
      obtain ⟨j, u, hvisit, h⟩ := bind_eq_returned.mp h
      obtain ⟨hj, -, g, rfl, hg⟩ := nameRelation_eq_returned h
      obtain rfl := Option.some.inj hj
      obtain ⟨-, hnew, hname⟩ := visitQueryExpression_made hvisit
      refine .inr ⟨rfl, hnew, fun hnone => ?_⟩
      rw [← hname]
      exact congrArg (QueryGraph.getNodeName · i) (hg hnone)

theorem visitRelation_lt_size {relation : Relation}
    (h : castNode (visitRelation env relation) s = .returned i t) : i < t.outGraph.size := by
  rw [castNode_eq_returned] at h
  have hnamed : ∀ {aliasName : Option Bytes} {j : ℤ} {u : VisitorState},
      nameRelation j aliasName u = .returned (some i) t → i < t.outGraph.size := by
    intro aliasName j u hname
    have hle := (nameRelation_keeps hname).size_le
    obtain ⟨hj, hlt, -⟩ := nameRelation_eq_returned hname
    obtain rfl := Option.some.inj hj
    omega
  cases relation with
  | table name aliasName =>
      rw [visitRelation] at h
      obtain ⟨j, u, -, h⟩ := bind_eq_returned.mp h
      exact hnamed h
  | subquery queryExpression aliasName =>
      rw [visitRelation] at h
      obtain ⟨j, u, -, h⟩ := bind_eq_returned.mp h
      exact hnamed h

end Queries

/-- The tables that `s` knows have the same nodes in `t`, and those it does not
know have new ones. -/
structure Knows (s t : VisitorState) : Prop where
  size_le : s.outGraph.size ≤ t.outGraph.size
  node_eq : ∀ name i, (Origin.table name).node s = some i → (Origin.table name).node t = some i
  new : ∀ name i, (Origin.table name).node s = none → (Origin.table name).node t = some i →
    (s.outGraph.size : ℤ) ≤ i

namespace Knows

variable {s t u : VisitorState}

theorem of_contexts (hsize : s.outGraph.size ≤ t.outGraph.size)
    (hnode : ∀ name, (Origin.table name).node t = (Origin.table name).node s) : Knows s t where
  size_le := hsize
  node_eq name i h := (hnode name).trans h
  new name i hnone h := by
    rw [hnode, hnone] at h
    cases h

theorem trans (h : Knows s u) (h' : Knows u t) : Knows s t where
  size_le := h.size_le.trans h'.size_le
  node_eq name i hi := h'.node_eq name i (h.node_eq name i hi)
  new name i hnone hi := by
    have hle := h.size_le
    cases hu : (Origin.table name).node u with
    | none =>
        have := h'.new name i hu hi
        omega
    | some j =>
        have hj := h.new name j hnone hu
        rw [h'.node_eq name j hu] at hi
        rwa [← Option.some.inj hi]

end Knows

theorem knows_traced (env : Environment) : Traced env (fun s _ t => Knows s t) Unbound where
  refl s := .of_contexts le_rfl fun _ => rfl
  trans h h' := h.trans h'
  grow := by
    rintro s es t ⟨new, g, hnew, -, rfl⟩
    exact .of_contexts hnew.growsBy.keepsNodes.size_le fun _ => rfl
  construct s node new g hnew _ _ _ :=
    .of_contexts hnew.growsBy.keepsNodes.size_le fun _ => rfl
  unite := by
    rintro s es t ⟨new, g, hnew, -, rfl⟩
    exact .of_contexts hnew.growsBy.keepsNodes.size_le fun _ => rfl
  lookup s name t h := by
    rcases findOrInsertTable_leaves h with rfl | ⟨schema, -, hnone, rfl⟩
    · exact .of_contexts le_rfl fun _ => rfl
    · have hsize := (insertTable_growsBy s.outGraph schema).keepsNodes.size_le
      have hother : ∀ other, other ≠ name → (Origin.table other).node { s with
          outGraph := insertTable s.outGraph schema
          fileTableContext := s.fileTableContext.insert name
            (s.outGraph.size + schema.columns.length : ℕ) } = (Origin.table other).node s := by
        intro other hne
        simp only [Origin.node, findIdent, OrderedMap.find_insert, if_neg hne]
        rfl
      refine ⟨hsize, fun other i hi => ?_, fun other i hi hnew => ?_⟩
      · by_cases hname : other = name
        · rw [hname, Origin.node, if_pos hnone] at hi
          cases hi
        · rwa [hother other hname]
      · by_cases hname : other = name
        · subst hname
          rw [node_table_of_find (by rw [OrderedMap.find_insert, if_pos rfl])
            (ne_nodeNone_of_nonneg (Nat.cast_nonneg _))] at hnew
          have := Option.some.inj hnew
          omega
        · rw [hother other hname, hi] at hnew
          cases hnew
  enter s es u relation tableNodeId t hu _ h := by
    obtain ⟨tableAlias, ctx, -, -, rfl⟩ := enterTable_leaves h
    exact hu.trans (.of_contexts le_rfl fun _ => rfl)
  name s es u origin nodeId name t hu _ h := by
    obtain ⟨g, hg, rfl⟩ := setName_leaves h
    exact hu.trans (.of_contexts (setNodeName_keepsNodes hg).size_le fun _ => rfl)
  select s es t h := ⟨h.size_le, h.node_eq, h.new⟩

end Parse

end DistStorage
