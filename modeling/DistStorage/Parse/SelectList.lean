import DistStorage.Parse.ColumnNodes

/-!
# The select list and the clauses of a select statement

A run of a select statement that returns is cut here in three: `FROM`, the
select list, and the clauses, whose nodes are put over the nodes of the list.
The select list is read with the aliases that its elements give: they rename
nodes, one after the other, and nothing after the list renames any.
-/

namespace DistStorage

namespace Parse

open Cpp Query QueryGraph

/-- A node of a select list, with the alias of its element. -/
structure Item where
  aliasName : Option Bytes
  node : ℤ
  deriving DecidableEq, Repr

def SelectElement.aliasName : SelectElement → Option Bytes
  | .globalStar => none
  | .tableStar _ => none
  | .expression _ aliasName => aliasName

def SelectStatement.elements : SelectStatement → List SelectElement
  | .mk selectElement rest _ _ _ _ _ _ => selectElement :: rest

def SelectStatement.fromClause : SelectStatement → Option FromClause
  | .mk _ _ fromClause _ _ _ _ _ => fromClause

def visitItems (env : Environment) : List SelectElement → Visit (List Item)
  | [] => pure []
  | selectElement :: rest => do
      let nodeIds ← visitSelectElement env selectElement
      let items ← visitItems env rest
      pure (nodeIds.map (Item.mk selectElement.aliasName) ++ items)

/-- The part of a select statement after its select list. -/
def visitClauses (env : Environment) (tableNodeIds columnNodeIds joinFilters : List ℤ) :
    SelectStatement → Visit ℤ
  | .mk _ _ _ whereExpr groupByExprs sortItems limitExpr offsetExpr => do
      let whereNodeId ← visitOptional env whereExpr
      let groupNodeIds ← visitExpressions env groupByExprs
      let orderNodeIds ← visitSortItems env sortItems
      let offsetNodeId ← visitOptional env offsetExpr
      let limitNodeId ← visitOptional env limitExpr
      constructSelect tableNodeIds columnNodeIds (joinFilters ++ whereNodeId.toList)
        groupNodeIds orderNodeIds (offsetNodeId.getD nodeNone) (limitNodeId.getD nodeNone)

/-- The names of the nodes after the aliases of some items were given. -/
def renamed (names : ℤ → Option Bytes) (items : List Item) : ℤ → Option Bytes :=
  items.foldl (fun names item =>
    item.aliasName.elim names fun name => Function.update names item.node (some name)) names

theorem visitItems_eq_returned {env : Environment} {l : List SelectElement} {ids : List ℤ}
    {s t : VisitorState} (h : visitSelectElements env l s = .returned ids t) :
    ∃ items, visitItems env l s = .returned items t ∧ items.map Item.node = ids := by
  induction l generalizing s ids with
  | nil =>
      rw [visitSelectElements] at h
      obtain ⟨rfl, rfl⟩ := Action.pure_eq_returned.mp h
      exact ⟨[], rfl, rfl⟩
  | cons selectElement rest ih =>
      rw [visitSelectElements] at h
      obtain ⟨nodeIds, u, hfirst, h⟩ := Action.bind_eq_returned.mp h
      obtain ⟨otherIds, v, hrest, h⟩ := Action.bind_eq_returned.mp h
      obtain ⟨rfl, rfl⟩ := Action.pure_eq_returned.mp h
      obtain ⟨items, hitems, rfl⟩ := ih hrest
      refine ⟨nodeIds.map (Item.mk selectElement.aliasName) ++ items, ?_, ?_⟩
      · rw [visitItems, Action.bind_of_returned hfirst, Action.bind_of_returned hitems]
        rfl
      · simp [Function.comp_def]

theorem inScope_eq_returned {α : Type} {enter : VisitorState → VisitorState}
    {leave : VisitorState → VisitorState → VisitorState} {m : Visit α} {a : α}
    {s u : VisitorState} : inScope enter leave m s = .returned a u ↔
      ∃ t, m (enter s) = .returned a t ∧ u = leave s t := by
  change ((m.tryCatch fun e => do
      Action.modify (leave s)
      Action.throw e) >>= fun a => do
        Action.modify (leave s)
        pure a) (enter s) = .returned a u ↔ _
  rw [Action.bind_eq_returned]
  constructor
  · rintro ⟨b, t, htry, hrest⟩
    cases hm : m (enter s) with
    | returned c v =>
        rw [Action.tryCatch_of_returned hm] at htry
        cases htry
        cases hrest
        exact ⟨t, rfl, rfl⟩
    | thrown e v =>
        rw [Action.tryCatch_of_thrown hm] at htry
        cases htry
    | undefined => simp [Action.tryCatch, hm] at htry
  · rintro ⟨t, hm, rfl⟩
    exact ⟨a, t, Action.tryCatch_of_returned hm, rfl⟩

/-- A select statement that returns ran its three parts. -/
theorem visitSelectStatement_eq_returned {env : Environment} {x : SelectStatement} {a : Any}
    {s u : VisitorState} (h : visitSelectStatement env x s = .returned a u) :
    ∃ p s₁ items s₂ n t, visitFrom env x.fromClause (enterSelect s) = .returned p s₁ ∧
      visitItems env x.elements s₁ = .returned items s₂ ∧
      visitClauses env p.1 (items.map Item.node) p.2 x s₂ = .returned n t ∧
      a = some n ∧ u = leaveSelect s t := by
  obtain ⟨selectElement, rest, fromClause, whereExpr, groupByExprs, sortItems, limitExpr,
    offsetExpr⟩ := x
  rw [visitSelectStatement] at h
  obtain ⟨n, v, hscope, hpure⟩ := Action.bind_eq_returned.mp h
  obtain ⟨rfl, rfl⟩ := Action.pure_eq_returned.mp hpure
  obtain ⟨t, hbody, rfl⟩ := inScope_eq_returned.mp hscope
  obtain ⟨p, s₁, hfrom, hbody⟩ := Action.bind_eq_returned.mp hbody
  obtain ⟨columnIds, s', hfirst, hbody⟩ := Action.bind_eq_returned.mp hbody
  obtain ⟨otherIds, s₂, hrest, hbody⟩ := Action.bind_eq_returned.mp hbody
  have helements : visitSelectElements env (selectElement :: rest) s₁ =
      .returned (columnIds ++ otherIds) s₂ := by
    rw [visitSelectElements, Action.bind_of_returned hfirst, Action.bind_of_returned hrest]
    rfl
  obtain ⟨items, hitems, hids⟩ := visitItems_eq_returned helements
  refine ⟨p, s₁, items, s₂, n, t, hfrom, hitems, ?_, rfl, rfl⟩
  rw [hids]
  exact hbody

section Renamed

variable {names : ℤ → Option Bytes} {items : List Item} {i : ℤ}

theorem renamed_cons (item : Item) : renamed names (item :: items) =
    renamed (item.aliasName.elim names fun name =>
      Function.update names item.node (some name)) items := rfl

theorem renamed_append (items items' : List Item) :
    renamed names (items ++ items') = renamed (renamed names items) items' :=
  List.foldl_append

theorem renamed_of_none (h : ∀ item ∈ items, item.aliasName = none) :
    renamed names items = names := by
  induction items with
  | nil => rfl
  | cons item items ih =>
      rw [renamed_cons, h item List.mem_cons_self, Option.elim_none]
      exact ih fun item' hitem' => h item' (List.mem_cons_of_mem item hitem')

theorem renamed_eq_of_forall (h : ∀ item ∈ items, item.node = i → item.aliasName = none) :
    renamed names items i = names i := by
  induction items generalizing names with
  | nil => rfl
  | cons item items ih =>
      rw [renamed_cons, ih fun item' hitem' => h item' (List.mem_cons_of_mem item hitem')]
      rcases halias : item.aliasName with _ | name
      · rfl
      · have hne : i ≠ item.node := by
          rintro rfl
          simp [h item List.mem_cons_self rfl] at halias
        exact Function.update_of_ne hne (some name) names

theorem renamed_eq_some {name : Bytes}
    (hone : ∀ item ∈ items, item.node = i → ∀ c, item.aliasName = some c → c = name)
    (hsome : ∃ item ∈ items, item.node = i ∧ item.aliasName ≠ none) :
    renamed names items i = some name := by
  induction items generalizing names with
  | nil => simp at hsome
  | cons item items ih =>
      have hrest := fun item' hitem' => hone item' (List.mem_cons_of_mem item hitem')
      by_cases hlater : ∃ item' ∈ items, item'.node = i ∧ item'.aliasName ≠ none
      · rw [renamed_cons]
        exact ih hrest hlater
      · have hforall : ∀ item' ∈ items, item'.node = i → item'.aliasName = none := by
          intro item' hitem' hnode
          by_contra hne
          exact hlater ⟨item', hitem', hnode, hne⟩
        obtain ⟨item', hitem', hnode, hne⟩ := hsome
        rcases List.mem_cons.mp hitem' with rfl | hitem'
        · obtain ⟨c, hc⟩ := Option.ne_none_iff_exists'.mp hne
          rw [renamed_cons, renamed_eq_of_forall hforall, hc, Option.elim_some, ← hnode,
            Function.update_self, hone item' List.mem_cons_self hnode c hc]
        · exact absurd ⟨item', hitem', hnode, hne⟩ hlater

end Renamed

/-- The setting after the aliases of some items were given. -/
def Setting.rename (K : Setting) (items : List Item) : Setting :=
  { K with names := renamed K.names items }

theorem visitItems_appends (env : Environment) (l : List SelectElement) :
    Appends False [] (visitItems env l) fun items => items.map Item.node := by
  induction l with
  | nil => exact Appends.pure (List.nil_subset _)
  | cons selectElement rest ih =>
      refine (visitSelectElement_appends env selectElement).seq fun nodeIds => ?_
      refine ih.of_nil.seq fun items => Appends.pure ?_
      rw [List.map_append, List.map_map, show Item.node ∘ Item.mk _ = id from rfl, List.map_id]
      grind

theorem setName_holds {K : Setting} {s t : VisitorState} {i : ℤ} {name : Bytes}
    (hs : s.outGraph.Coherent) (hK : K.Holds s) (h : setName i name s = .returned () t) :
    (K.rename [⟨some name, i⟩]).Holds t := by
  obtain ⟨u, s', hread, h⟩ := Action.bind_eq_returned.mp h
  cases hread
  rcases hset : s.outGraph.setNodeName i name with _ | g
  · rw [hset] at h
    cases h
  · rw [hset] at h
    cases h
    obtain ⟨hcoherent, -, hsize⟩ := setNodeName_coherent hs hset
    refine ⟨hK.vars_eq, ?_, hK.base_le.trans hsize.ge, fun _ => hcoherent.lengths⟩
    rw [nameOf_setNodeName hs hset, hK.names_eq]
    rfl

/-- A node in the variables, or a new one. -/
def Setting.Comes (K : Setting) (i : ℤ) : Prop := i ∈ K.vars.values ∨ (K.base : ℤ) ≤ i

theorem Setting.Denotes.comes {K : Setting} {varName : Option Bytes} {i : ℤ}
    (h : K.Denotes varName i) : K.Comes i := by
  cases varName with
  | none => exact .inr h
  | some varName => exact .inl (OrderedMap.mem_values_of_find h)

theorem visitSelectElement_after {env : Environment} {x : SelectElement} {K : Setting}
    {s t : VisitorState} {ids : List ℤ} (hs : s.Sound []) (hK : K.Holds s)
    (h : visitSelectElement env x s = .returned ids t) :
    (K.rename (ids.map (Item.mk x.aliasName))).Holds t ∧ ∀ i ∈ ids, K.Comes i := by
  have hplain : ∀ u : VisitorState, K.Holds u →
      (K.rename (ids.map (Item.mk none))).Holds u := by
    intro u hu
    refine ⟨hu.vars_eq, ?_, hu.base_le, hu.lengths_of⟩
    rw [hu.names_eq]
    exact (renamed_of_none (by simp)).symm
  cases x with
  | globalStar =>
      rw [visitSelectElement] at h
      obtain ⟨u, s', hread, h⟩ := Action.bind_eq_returned.mp h
      cases hread
      obtain ⟨rfl, rfl⟩ := Action.pure_eq_returned.mp h
      refine ⟨hplain _ hK, fun i hi => .inl ?_⟩
      rw [← hK.vars_eq]
      exact globalStar_subset _ hi
  | tableStar tableName =>
      rw [visitSelectElement] at h
      obtain ⟨rfl, rfl⟩ := Action.pure_eq_returned.mp h
      exact ⟨hplain _ hK, by simp⟩
  | expression expression aliasName =>
      cases aliasName with
      | none =>
          rw [visitSelectElement] at h
          obtain ⟨i, u, hvisit, h⟩ := Action.bind_eq_returned.mp h
          obtain ⟨rfl, rfl⟩ := Action.pure_eq_returned.mp h
          obtain ⟨hu, hi⟩ := (visitExpression_after env expression).castNode s i u hK hvisit
          exact ⟨hplain _ hu, by simpa using hi.comes⟩
      | some name =>
          rw [visitSelectElement] at h
          obtain ⟨i, u, hvisit, h⟩ := Action.bind_eq_returned.mp h
          obtain ⟨⟨⟩, v, hname, h⟩ := Action.bind_eq_returned.mp h
          obtain ⟨rfl, rfl⟩ := Action.pure_eq_returned.mp h
          obtain ⟨hu, hi⟩ := (visitExpression_after env expression).castNode s i u hK hvisit
          have hsound := (visitExpression_visits env expression).castNode.keeps s i u hs hvisit
          exact ⟨setName_holds hsound.coherent hu hname, by simpa using hi.comes⟩

/-- What a select list leaves of the names, and where its nodes come from. -/
theorem visitItems_after {env : Environment} {l : List SelectElement} {K : Setting}
    {s t : VisitorState} {items : List Item} (hs : s.Sound []) (hK : K.Holds s)
    (h : visitItems env l s = .returned items t) :
    (K.rename items).Holds t ∧ ∀ item ∈ items, K.Comes item.node := by
  induction l generalizing s K items with
  | nil =>
      obtain ⟨rfl, rfl⟩ := Action.pure_eq_returned.mp h
      exact ⟨hK, by simp⟩
  | cons selectElement rest ih =>
      rw [visitItems] at h
      obtain ⟨ids, u, hfirst, h⟩ := Action.bind_eq_returned.mp h
      obtain ⟨others, v, hrest, h⟩ := Action.bind_eq_returned.mp h
      obtain ⟨rfl, rfl⟩ := Action.pure_eq_returned.mp h
      obtain ⟨hu, hids⟩ := visitSelectElement_after hs hK hfirst
      have hsound : u.Sound [] := ((visitSelectElement_appends env selectElement).keeps s ids u hs
        hfirst).subset (List.nil_subset _)
      obtain ⟨hv, hothers⟩ := ih hsound hu hrest
      refine ⟨⟨hv.vars_eq, ?_, hv.base_le, hv.lengths_of⟩, ?_⟩
      · rw [hv.names_eq]
        exact (renamed_append _ _).symm
      · intro item hitem
        rcases List.mem_append.mp hitem with hitem | hitem
        · obtain ⟨i, hi, rfl⟩ := List.mem_map.mp hitem
          exact hids i hi
        · exact hothers item hitem

end Parse

end DistStorage
