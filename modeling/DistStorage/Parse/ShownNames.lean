import DistStorage.Parse.QueryNode

/-!
# The names that a relation shows

A query expression used as a relation is accepted, and shows the items of its
select list under their names, when its node is over that list, so when it has
no other clause, and the names are unambiguous: no two nodes have one name and
no node has two, since a node bears its last alias everywhere. With another
clause it shows what the outermost clause lists.
-/

namespace DistStorage

namespace Parse

open Cpp Query QueryGraph

/-- What a later reference to the node `n` depends on is as it was. -/
structure Kept (n : ℤ) (g g' : QueryGraph) : Prop where
  op_eq : (g'.operation n).op = (g.operation n).op
  children_eq : g'.children n = g.children n
  names_eq : ∀ i ∈ g.children n, g'.nameOf i = g.nameOf i

/-- The relations that stand for a query expression whose visit from `s` returned
the node `n` in the state `u`, with the states in which they are visited: the
parenthesized expression itself, and a name that leads to its node. -/
inductive StandsFor (x : QueryExpression) (n : ℤ) (s u : VisitorState) :
    Relation → VisitorState → Prop
  | subquery (aliasName : Option Bytes) : StandsFor x n s u (.subquery x aliasName) s
  | cte (name : Bytes) (aliasName : Option Bytes) (w : VisitorState) (hw : w.Sound [])
      (hfind : findIdent name [w.fileTableContext, w.withTableContext] = n)
      (hkept : Kept n u.outGraph w.outGraph) : StandsFor x n s u (.table name aliasName) w

/-- In an enclosing select over the relation, which is accepted, the names stand
for their nodes, alone and after the alias of the relation. -/
def Shows (env : Environment) (relation : Relation) (names : List (Bytes × ℤ))
    (w : VisitorState) : Prop :=
  ∃ p t, visitFromClause env (.mk relation []) w = .returned p t ∧ ∀ name i, (name, i) ∈ names →
    visitColumnExpr none name t = .returned (some i) t ∧
      ∀ tableAlias, relation.aliasName = some tableAlias → tableAlias ≠ [] →
        visitColumnExpr (some tableAlias) name t = .returned (some i) t

/-- No two nodes have one name and no node has two. -/
def Unambiguous (names : List (Bytes × ℤ)) : Prop :=
  ∀ p ∈ names, ∀ q ∈ names, p.1 = q.1 ↔ p.2 = q.2

instance (names : List (Bytes × ℤ)) : Decidable (Unambiguous names) :=
  inferInstanceAs (Decidable (∀ p ∈ names, ∀ q ∈ names, p.1 = q.1 ↔ p.2 = q.2))

/-- A relation by name is to be a table operation. -/
def QueryExpression.acceptedAs (x : QueryExpression) : Relation → Bool
  | .table _ _ => isTableOperation x.top
  | .subquery _ _ => true

/-- The query expression is accepted as the relation, has no `OFFSET` without
`LIMIT`, and either is a select list with unambiguous names, or has an outermost
clause in which each item of its select list is the last column of its name. -/
def QueryExpression.Lists (x : QueryExpression) (relation : Relation) (names : SelectNames) :
    Prop :=
  x.acceptedAs relation = true ∧ x.lacksLimit = false ∧
    if x.top = .DF then Unambiguous names.items
    else ∀ p ∈ names.items, lastNamed p.1 names.keys = some p.2

instance (x : QueryExpression) (relation : Relation) (names : SelectNames) :
    Decidable (x.Lists relation names) :=
  inferInstanceAs (Decidable (_ ∧ _ ∧ ite _ _ _))

section Items

variable {names : ℤ → Option Bytes} {items : List Item}

theorem mem_namedItems {name : Bytes} {i : ℤ} : (name, i) ∈ namedItems names items ↔
    ∃ item ∈ items, item.node = i ∧ item.aliasName.or (names i) = some name := by
  simp only [namedItems, List.mem_filterMap, Option.map_eq_some_iff, Prod.mk.injEq]
  constructor
  · rintro ⟨item, hitem, c, hc, rfl, rfl⟩
    exact ⟨item, hitem, rfl, hc⟩
  · rintro ⟨item, hitem, rfl, hc⟩
    exact ⟨item, hitem, name, hc, rfl, rfl⟩

/-- Where the names of the items are unambiguous, they are the names that the
nodes bear in the end. -/
theorem mem_namedItems_iff (h : Unambiguous (namedItems names items)) {name : Bytes} {i : ℤ} :
    (name, i) ∈ namedItems names items ↔
      i ∈ items.map Item.node ∧ renamed names items i = some name := by
  by_cases haliased : ∃ item ∈ items, item.node = i ∧ item.aliasName ≠ none
  · obtain ⟨item, hitem, hnode, hne⟩ := haliased
    obtain ⟨c, hc⟩ := Option.ne_none_iff_exists'.mp hne
    have hmem : ∀ item' ∈ items, item'.node = i → ∀ c', item'.aliasName = some c' →
        (c', i) ∈ namedItems names items :=
      fun item' hitem' hnode' c' hc' => mem_namedItems.mpr ⟨item', hitem', hnode', by simp [hc']⟩
    have hone : ∀ item' ∈ items, item'.node = i → ∀ c', item'.aliasName = some c' → c' = c :=
      fun item' hitem' hnode' c' hc' =>
        (h _ (hmem item' hitem' hnode' c' hc') _ (hmem item hitem hnode c hc)).mpr rfl
    rw [renamed_eq_some hone ⟨item, hitem, hnode, hne⟩, Option.some.injEq]
    constructor
    · intro hname
      exact ⟨List.mem_map.mpr ⟨item, hitem, hnode⟩,
        ((h _ hname _ (hmem item hitem hnode c hc)).mpr rfl).symm⟩
    · rintro ⟨-, rfl⟩
      exact hmem item hitem hnode c hc
  · have hforall : ∀ item ∈ items, item.node = i → item.aliasName = none := by
      intro item hitem hnode
      by_contra hne
      exact haliased ⟨item, hitem, hnode, hne⟩
    rw [renamed_eq_of_forall hforall, mem_namedItems, List.mem_map]
    constructor
    · rintro ⟨item, hitem, hnode, hname⟩
      rw [hforall item hitem hnode, Option.none_or] at hname
      exact ⟨⟨item, hitem, hnode⟩, hname⟩
    · rintro ⟨⟨item, hitem, hnode⟩, hname⟩
      exact ⟨item, hitem, hnode, by rw [hforall item hitem hnode, Option.none_or, hname]⟩

/-- A node over some tables and the items of a select list shows the items under
their names exactly when the names are unambiguous. -/
theorem unambiguous_iff (tableNodeIds : List ℤ) : Unambiguous (namedItems names items) ↔
    ∀ p ∈ namedItems names items, lastNamed p.1 (namedNodes (renamed names items)
      (tableNodeIds ++ items.map Item.node)) = some p.2 := by
  constructor
  · rintro h ⟨name, i⟩ hp
    have hlast : lastNamed name (namedNodes (renamed names items) (items.map Item.node)) =
        some i := by
      refine lastNamed_eq_some (mem_namedNodes.mpr ((mem_namedItems_iff h).mp hp)) fun j hj => ?_
      exact (h _ ((mem_namedItems_iff h).mpr (mem_namedNodes.mp hj)) _ hp).mp rfl
    rw [namedNodes_append, lastNamed_append, hlast, Option.some_or]
  · intro h p hp q hq
    constructor
    · intro hname
      have hlast := h p hp
      rw [hname, h q hq] at hlast
      exact (Option.some.inj hlast).symm
    · intro hnode
      have hpname := (mem_namedNodes.mp (mem_of_lastNamed (h p hp))).2
      have hqname := (mem_namedNodes.mp (mem_of_lastNamed (h q hq))).2
      rw [hnode, hqname] at hpname
      exact (Option.some.inj hpname).symm

end Items

theorem Kept.refl (n : ℤ) (g : QueryGraph) : Kept n g g :=
  ⟨rfl, rfl, fun _ _ => rfl⟩

theorem Kept.trans {n : ℤ} {g g' g'' : QueryGraph} (h : Kept n g g') (h' : Kept n g' g'') :
    Kept n g g'' where
  op_eq := h'.op_eq.trans h.op_eq
  children_eq := h'.children_eq.trans h.children_eq
  names_eq i hi := (h'.names_eq i (h.children_eq ▸ hi)).trans (h.names_eq i hi)

/-- A node is not one of its children, so naming it keeps their names. -/
theorem kept_setNodeName {g g' : QueryGraph} (hg : g.Coherent) {n : ℤ} {name : Bytes}
    (hset : g.setNodeName n name = some g') : Kept n g g' := by
  have hnames := nameOf_setNodeName hg hset
  obtain ⟨o, ho, rfl⟩ := Option.map_eq_some_iff.mp hset
  have ho' : Cpp.index g.operations n = some o := ho
  refine ⟨?_, rfl, fun i hi => ?_⟩
  · change ((Cpp.index (Cpp.modify g.operations n _) n).getD default).op = _
    rw [Cpp.index_modify, if_pos rfl, OpGraph.operation, ho']
    rfl
  · have hne : i ≠ n := by
      rcases (hg.child hi).2 with rfl | hchild
      · exact (ne_nodeNone_of_valid (hg.child hi).1).symm
      · exact hchild.2.ne
    rw [hnames, Function.update_of_ne hne]

theorem nameRelation_returned {n : ℤ} {s : VisitorState} (hs : s.Sound [n])
    (aliasName : Option Bytes) : ∃ v, nameRelation n aliasName s = .returned (some n) v ∧
      Kept n s.outGraph v.outGraph ∧ v.exprVarContext = s.exprVarContext ∧ v.Sound [n] := by
  have hn : s.outGraph.Valid n := hs.nodes n (by simp)
  obtain ⟨exprName, hname⟩ := getNodeName_isSome hs.coherent hn
  obtain ⟨g, hg⟩ := setNodeName_isSome hn (aliasName.getD [])
  have hkeeps := (nameRelation_appends (List.mem_singleton_self n) aliasName).keeps s
  have hrun : nameRelation n aliasName s = (do
      if exprName = [] ∧ aliasName.getD [] ≠ [] then setName n (aliasName.getD [])
      pure (some n) : Visit Any) s := by
    change (Action.ofOption (s.outGraph.getNodeName n) >>= _) s = _
    rw [hname]
    rfl
  by_cases hnamed : exprName = [] ∧ aliasName.getD [] ≠ []
  · have hset : setName n (aliasName.getD []) s = .returned () { s with outGraph := g } := by
      change (Action.ofOption (s.outGraph.setNodeName n (aliasName.getD [])) >>= _) s = _
      rw [hg]
      rfl
    rw [if_pos hnamed, Action.bind_of_returned hset] at hrun
    refine ⟨_, hrun, kept_setNodeName hs.coherent hg, rfl, ?_⟩
    exact (hkeeps _ _ hs hrun).subset (List.subset_append_right _ _)
  · rw [if_neg hnamed] at hrun
    exact ⟨s, hrun, .refl n _, rfl, hs⟩

/-- What a name stands for after a relation was entered. -/
structure Entered (n : ℤ) (tableAlias : Option Bytes) (s t : VisitorState) : Prop where
  find_eq : ∀ name, Undotted name → t.exprVarContext.find name =
    (lastNamed name (namedNodes s.outGraph.nameOf (s.outGraph.children n))).or
      (s.exprVarContext.find name)
  find_qualified : ∀ tableName, tableAlias = some tableName → tableName ≠ [] → ∀ name,
    t.exprVarContext.find (tableName ++ bytes "." ++ name) =
      (lastNamed name (namedNodes s.outGraph.nameOf (s.outGraph.children n))).or
        (s.exprVarContext.find (tableName ++ bytes "." ++ name))

theorem enterTable_returned {n : ℤ} {s : VisitorState} (hs : s.Sound [n])
    (habsent : nodeNone ∉ s.outGraph.children n)
    (hnames : ∀ i ∈ s.outGraph.children n, ∀ name, s.outGraph.nameOf i = some name → Undotted name)
    (aliasName : Option Bytes) :
    ∃ t, enterTable n aliasName s = .returned () t ∧ Entered n aliasName s t := by
  have hn : s.outGraph.Valid n := hs.nodes n (by simp)
  obtain ⟨tableAlias, halias⟩ : ∃ tableAlias,
      aliasName.or (s.outGraph.getNodeName n) = some tableAlias := by
    obtain ⟨name, hname⟩ := getNodeName_isSome hs.coherent hn
    cases aliasName with
    | none => exact ⟨name, hname⟩
    | some aliasName => exact ⟨aliasName, rfl⟩
  obtain ⟨ctx, hload⟩ := Option.ne_none_iff_exists'.mp fun hnone =>
    habsent ((loadTableNames_eq_none_iff hs.coherent hn tableAlias s.exprVarContext).mp hnone)
  have hcolumns : s.outGraph.loadColumnNames tableAlias (s.outGraph.children n) s.exprVarContext =
      some ctx := by
    obtain ⟨cols, hcols, hcolumns⟩ := Option.bind_eq_some_iff.mp hload
    rw [OpGraph.children, hcols, Option.getD_some]
    exact hcolumns
  have hrun : enterTable n aliasName s = (do
      Action.modify fun s : VisitorState => { s with exprVarContext := ctx }
      if tableAlias ≠ [] then
        Action.modify fun s => { s with
          exprTableContext := s.exprTableContext.insert tableAlias n } : Visit Unit) s := by
    change (Action.ofOption (aliasName.or (s.outGraph.getNodeName n)) >>= _) s = _
    rw [halias]
    change (Action.ofOption (loadTableNames s.exprVarContext s.outGraph n tableAlias) >>= _) s = _
    rw [hload]
    rfl
  have hentered : ∀ t : VisitorState, t.exprVarContext = ctx → Entered n aliasName s t := by
    intro t ht
    refine ⟨fun name hname => ?_, fun tableName htable hne name => ?_⟩
    · rw [ht]
      exact find_loadColumnNames hcolumns fun i _ c _ ctx => find_enterColumn hname ctx
    · have heq : tableAlias = tableName := by
        rw [htable, Option.some_or] at halias
        exact (Option.some.inj halias).symm
      subst heq
      rw [ht]
      exact find_loadColumnNames hcolumns fun i hi c hc ctx =>
        find_enterColumn_qualified hne (hnames i hi c hc) ctx
  by_cases hempty : tableAlias = []
  · rw [hempty] at hrun
    exact ⟨_, hrun, hentered _ rfl⟩
  · rw [if_pos hempty] at hrun
    exact ⟨_, hrun, hentered _ rfl⟩

section Relation

variable {env : Environment} {x : QueryExpression} {n : ℤ} {s u w : VisitorState}
  {relation : Relation}

variable (env) in
theorem findOrInsertTable_of_find {name : Bytes} (hw : w.Sound []) (hn : n ≠ nodeNone)
    (hfind : findIdent name [w.fileTableContext, w.withTableContext] = n) :
    w.Sound [n] ∧ findOrInsertTable env name w =
      if isTableOperation (w.outGraph.operation n).op then .returned n w
      else .thrown (.sqlCompileError (bytes "Invalid table name: " ++ name)) w := by
  subst hfind
  obtain ⟨m, hm, hmem⟩ := findIdent_mem hn
  have hvalid : w.outGraph.Valid (findIdent name [w.fileTableContext, w.withTableContext]) := by
    rcases List.mem_pair.mp hm with rfl | rfl
    · exact hw.files _ hmem
    · exact hw.ctes _ hmem
  exact ⟨⟨hw.coherent, by simpa using hvalid, hw.files, hw.ctes, hw.vars⟩,
    findOrInsertTable_of_known env hvalid rfl⟩

/-- A relation that stands for a query expression gives its node if it is
accepted. -/
theorem visitRelation_standsFor (hu : u.Sound [n])
    (hvisit : visitQueryExpression env x s = .returned (some n) u)
    (hop : (u.outGraph.operation n).op = x.top) (hvars : u.exprVarContext = s.exprVarContext)
    (hrel : StandsFor x n s u relation w) :
    if x.acceptedAs relation then ∃ v, castNode (visitRelation env relation) w = .returned n v ∧
      Kept n u.outGraph v.outGraph ∧ v.exprVarContext = w.exprVarContext ∧ v.Sound [n]
    else ∀ m v, castNode (visitRelation env relation) w ≠ .returned m v := by
  cases hrel with
  | subquery aliasName =>
      rw [QueryExpression.acceptedAs, if_pos rfl]
      obtain ⟨v, hname, hkept, hvars', hv⟩ := nameRelation_returned hu aliasName
      refine ⟨v, castNode_eq_returned.mpr ?_, hkept, hvars'.trans hvars, hv⟩
      rw [visitRelation, Action.bind_of_returned (castNode_eq_returned.mpr hvisit)]
      exact hname
  | cte name aliasName w hw hfind hkept =>
      obtain ⟨hwn, htable⟩ := findOrInsertTable_of_find env hw
        (ne_nodeNone_of_valid (hu.nodes n (by simp))) hfind
      rw [hkept.op_eq, hop] at htable
      rw [QueryExpression.acceptedAs]
      split_ifs with haccepted
      · rw [if_pos haccepted] at htable
        obtain ⟨v, hname, hkept', hvars', hv⟩ := nameRelation_returned hwn aliasName
        refine ⟨v, castNode_eq_returned.mpr ?_, hkept.trans hkept', hvars', hv⟩
        rw [visitRelation, Action.bind_of_returned htable]
        exact hname
      · intro m v hrun
        rw [castNode_eq_returned, visitRelation] at hrun
        rw [if_neg haccepted] at htable
        rw [Action.bind_of_thrown htable] at hrun
        cases hrun

theorem visitFromClause_eq_returned {p : List ℤ × List ℤ} {t : VisitorState} :
    visitFromClause env (.mk relation []) w = .returned p t ↔
      ∃ m v, castNode (visitRelation env relation) w = .returned m v ∧
        enterTable m relation.aliasName v = .returned () t ∧ p = ([m], []) := by
  rw [visitFromClause, Action.bind_eq_returned]
  refine exists_congr fun m => exists_congr fun v => and_congr_right fun _ => ?_
  rw [Action.bind_eq_returned]
  constructor
  · rintro ⟨⟨⟩, t', henter, h⟩
    rw [visitJoins] at h
    obtain ⟨rfl, rfl⟩ := Action.pure_eq_returned.mp h
    exact ⟨henter, rfl⟩
  · rintro ⟨henter, rfl⟩
    refine ⟨(), t, henter, ?_⟩
    rw [visitJoins]
    rfl

end Relation

theorem selectNames_eq_returned {env : Environment} {x : QueryExpression} {names : SelectNames}
    {s t : VisitorState} (h : selectNames env x s = .returned names t) :
    ∃ p s₁ items, visitFrom env x.select.fromClause s = .returned p s₁ ∧
      visitItems env x.select.elements s₁ = .returned items t ∧
      names = ⟨namedItems s₁.outGraph.nameOf items, (Setting.of t).columns x.keys⟩ := by
  obtain ⟨p, s₁, hfrom, h⟩ := Action.bind_eq_returned.mp h
  obtain ⟨_, _, hread, h⟩ := Action.bind_eq_returned.mp h
  cases hread
  obtain ⟨items, s₂, hitems, h⟩ := Action.bind_eq_returned.mp h
  obtain ⟨_, _, hread, h⟩ := Action.bind_eq_returned.mp h
  cases hread
  obtain ⟨rfl, rfl⟩ := Action.pure_eq_returned.mp h
  exact ⟨p, s₁, items, hfrom, hitems, rfl⟩

theorem QueryEnd.shown {x : QueryExpression} {p : List ℤ × List ℤ} {items : List Item}
    {s s₁ s₂ u : VisitorState} {n : ℤ} (h : QueryEnd x p items s s₁ s₂ n u) :
    (∀ name i, (name, i) ∈ namedItems s₁.outGraph.nameOf items →
      lastNamed name (namedNodes u.outGraph.nameOf (u.outGraph.children n)) = some i) ↔
    if x.top = .DF then Unambiguous (namedItems s₁.outGraph.nameOf items)
    else ∀ p ∈ namedItems s₁.outGraph.nameOf items,
      lastNamed p.1 ((Setting.of s₂).columns x.keys) = some p.2 := by
  split_ifs with hdf
  · obtain ⟨hkids, hnames⟩ := h.kids_eq hdf
    rw [unambiguous_iff p.1, hkids, hnames, h.names_eq]
    exact ⟨fun hall q hq => hall q.1 q.2 hq, fun hall name i hi => hall (name, i) hi⟩
  · have hvalid : ∀ name i, (name, i) ∈ namedItems s₁.outGraph.nameOf items →
        s₂.outGraph.Valid i := by
      intro name i hi
      obtain ⟨item, hitem, rfl, -⟩ := mem_namedItems.mp hi
      exact h.valid item hitem
    constructor
    · exact fun hall q hq => (h.shown_iff hdf q.1 q.2 (hvalid q.1 q.2 hq)).mp (hall q.1 q.2 hq)
    · intro hall name i hi
      exact (h.shown_iff hdf name i (hvalid name i hi)).mpr (hall (name, i) hi)

def itemQuery (whereExpr : Option Expression) : QueryExpression :=
  .mk (.mk (.expression (.ofPrimary (.columnExpr none (bytes "a"))) (some (bytes "x"))) []
    (some (.mk (.table (bytes "t") none) [])) whereExpr [] [] none none) []

def whereQuery : QueryExpression := itemQuery (some (.ofPrimary (.literalExpr .trueKw)))

end Parse

end DistStorage
