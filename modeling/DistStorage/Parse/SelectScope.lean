import DistStorage.Parse.Origins

/-!
# The contexts after a select statement

A select statement is to leave `exprTableContext`, `exprVarContext` and
`withTableContext` as it found them. It puts `exprVarContext` back twice and
`exprTableContext` never, so `exprTableContext` is left with the relations that
were entered last: those entered after the last select statement inside began.
It is as before exactly when these are the tables that it had, under the same
names, so when none of them is a subquery or a table first met inside.
-/

namespace DistStorage

namespace Parse

open Cpp Cpp.Action Query QueryGraph

/-- The three contexts of `t` are those of `s`. -/
structure ContextsRestored (s t : VisitorState) : Prop where
  exprTableContext : t.exprTableContext = s.exprTableContext
  exprVarContext : t.exprVarContext = s.exprVarContext
  withTableContext : t.withTableContext = s.withTableContext

/-- The name under which a relation is entered: its alias, or else that of its
node. A subquery has no other name. -/
def Origin.tableAlias (origin : Origin) (aliasName : Option Bytes) (s : VisitorState) : Bytes :=
  aliasName.getD (((origin.node s).bind s.outGraph.getNodeName).getD [])

/-- The relations entered so far under a name, from those before an event. -/
def Event.entered (l : List (Bytes × Origin)) (e : Event) : List (Bytes × Origin) :=
  match e.step with
  | .select => []
  | .enter origin aliasName =>
      let tableAlias := origin.tableAlias aliasName e.before
      if tableAlias = [] then l else l ++ [(tableAlias, origin)]
  | _ => l

/-- The relations entered under a name since the last select statement began. -/
def lastEntered (es : List Event) : List (Bytes × Origin) := es.foldl Event.entered []

/-- The relations entered last are the tables that `exprTableContext` has, under
the same names, and the state before knows them. -/
structure Reenters (s : VisitorState) (es : List Event) : Prop where
  entered : ∀ name origin, lastNamed name (lastEntered es) = some origin →
    ∃ i, origin.node s = some i ∧ s.exprTableContext.find name = some i
  absent : ∀ name, lastNamed name (lastEntered es) = none → s.exprTableContext.find name = none

/-- What `exprTableContext` has for a relation: the node of a table that `s`
knows, or a new one. -/
def StandsIn (s : VisitorState) (o : Option Origin) (found : Option ℤ) : Prop :=
  match o with
  | some origin => ∃ i, found = some i ∧
      (origin.node s = some i ∨ origin.node s = none ∧ (s.outGraph.size : ℤ) ≤ i)
  | none => found = none

/-- Every name stands for the relation entered last under it. -/
def Tracks (s₀ s : VisitorState) (es : List Event) (t : VisitorState) : Prop :=
  ∀ name l, StandsIn s₀ (lastNamed name l) (s.exprTableContext.find name) →
    StandsIn s₀ (lastNamed name (es.foldl Event.entered l)) (t.exprTableContext.find name)

section Entering

variable {env : Environment} {s₀ s t u : VisitorState} {es es' : List Event}

theorem Tracks.trans (h : Tracks s₀ s es u) (h' : Tracks s₀ u es' t) :
    Tracks s₀ s (es ++ es') t := by
  intro name l hl
  rw [List.foldl_append]
  exact h' name _ (h name l hl)

theorem Tracks.of_eq (htables : t.exprTableContext = s.exprTableContext)
    (hes : ∀ l, es.foldl Event.entered l = l) : Tracks s₀ s es t := by
  intro name l hl
  rwa [hes, htables]

/-- Entering a relation puts its node under its name. -/
theorem tracks_enter {relation : Relation} {i : ℤ} (hs : Knows s₀ s) (hu : Knows s₀ u)
    (hvisit : castNode (visitRelation env relation) s = .returned i u)
    (h : Leaves (enterTable i relation.aliasName) u t) :
    Tracks s₀ u (record (.enter relation.origin relation.aliasName) u) t := by
  obtain ⟨tableAlias, ctx, halias, -, rfl⟩ := enterTable_leaves h
  have horigin := visitRelation_origin hvisit
  have hname : relation.origin.tableAlias relation.aliasName u = tableAlias := by
    rw [Origin.tableAlias]
    cases hnone : relation.aliasName with
    | some aliasName =>
        rw [hnone] at halias
        exact Option.some.inj halias
    | none =>
        rw [hnone, Option.none_or] at halias
        rcases horigin with hnode | ⟨hmade, -, hempty⟩
        · rw [hnode, Option.bind_some, halias]
          rfl
        · rw [hempty hnone] at halias
          rw [hmade]
          exact Option.some.inj halias
  -- The node is that of a table known before, or new.
  have hstands : StandsIn s₀ (some relation.origin) (some i) := by
    refine ⟨i, rfl, ?_⟩
    rcases horigin with hnode | ⟨hmade, hnew, -⟩
    · cases relation with
      | table name aliasName =>
          cases hbefore : (Origin.table name).node s₀ with
          | none => exact .inr ⟨hbefore, hu.new name i hbefore hnode⟩
          | some j =>
              refine .inl (hbefore.trans ?_)
              rw [← hu.node_eq name j hbefore]
              exact hnode
      | subquery queryExpression aliasName => cases hnode
    · have hle := hs.size_le
      rw [hmade]
      exact .inr ⟨rfl, by omega⟩
  intro name l hl
  change StandsIn s₀ (lastNamed name (if _ = [] then l else l ++ [(_, relation.origin)])) _
  rw [hname]
  by_cases hempty : tableAlias = []
  · rw [if_pos hempty, if_pos hempty]
    exact hl
  · rw [if_neg hempty, if_neg hempty, OrderedMap.find_insert, lastNamed_append,
      lastNamed_singleton]
    split_ifs
    · exact hstands
    · exact hl

end Entering

/-- A visit leaves in the context of tables what it enters last, and the common
table expressions alone. -/
theorem contexts_traced (env : Environment) (s₀ : VisitorState) : Traced env (fun s es t =>
    Knows s₀ s → Knows s₀ t ∧ Tracks s₀ s es t ∧ t.withTableContext = s.withTableContext)
    Unbound where
  refl s hs := ⟨hs, .of_eq rfl fun _ => rfl, rfl⟩
  trans h h' hs := by
    obtain ⟨hu, htracks, hctes⟩ := h hs
    obtain ⟨ht, htracks', hctes'⟩ := h' hu
    exact ⟨ht, htracks.trans htracks', hctes'.trans hctes⟩
  grow s es t h hs := by
    have hknows := (knows_traced env).grow s es t h
    obtain ⟨new, g, -, -, rfl⟩ := h
    exact ⟨hs.trans hknows, .of_eq rfl fun _ => rfl, rfl⟩
  construct s node new g hnew hop hmarked hover hs :=
    ⟨hs.trans ((knows_traced env).construct s node new g hnew hop hmarked hover),
      .of_eq rfl fun _ => rfl, rfl⟩
  unite s es t h hs := by
    have hknows := (knows_traced env).unite s es t h
    obtain ⟨new, g, -, -, rfl⟩ := h
    exact ⟨hs.trans hknows, .of_eq rfl fun _ => rfl, rfl⟩
  lookup s name t h hs := by
    have hknows := hs.trans ((knows_traced env).lookup s name t h)
    rcases findOrInsertTable_leaves h with rfl | ⟨schema, -, -, rfl⟩
    · exact ⟨hknows, .of_eq rfl fun _ => rfl, rfl⟩
    · exact ⟨hknows, .of_eq rfl fun _ => rfl, rfl⟩
  enter s es u relation tableNodeId t hu hvisit h hs := by
    obtain ⟨hknows, htracks, hctes⟩ := hu hs
    refine ⟨?_, htracks.trans (tracks_enter hs hknows hvisit h), ?_⟩
    · obtain ⟨tableAlias, ctx, -, -, rfl⟩ := enterTable_leaves h
      exact hknows.trans (.of_contexts le_rfl fun _ => rfl)
    · obtain ⟨tableAlias, ctx, -, -, rfl⟩ := enterTable_leaves h
      exact hctes
  name s es u origin nodeId name t hu _ h hs := by
    obtain ⟨hknows, htracks, hctes⟩ := hu hs
    obtain ⟨g, hg, rfl⟩ := setName_leaves h
    exact ⟨hknows.trans (.of_contexts (setNodeName_keepsNodes hg).size_le fun _ => rfl),
      htracks.trans (.of_eq rfl fun _ => rfl), hctes⟩
  select s es t h hs := by
    obtain ⟨⟨hsize, hnode, hnew⟩, htracks, hctes⟩ := h ⟨hs.size_le, hs.node_eq, hs.new⟩
    exact ⟨⟨hsize, hnode, hnew⟩, fun name l _ => htracks name [] rfl, hctes⟩

theorem visitSelectStatement_vars {env : Environment} {x : SelectStatement} {s t : VisitorState}
    (h : Leaves (visitSelectStatement env x) s t) : t.exprVarContext = s.exprVarContext := by
  obtain ⟨selectElement, rest, fromClause, whereExpr, groupByExprs, sortItems, limitExpr,
    offsetExpr⟩ := x
  rw [visitSelectStatement] at h
  have hscope : ∀ {m : Visit ℤ} {u : VisitorState},
      Leaves (inScope enterSelect leaveSelect m) s u → u.exprVarContext = s.exprVarContext := by
    intro m u hu
    obtain ⟨v, -, rfl⟩ := leaves_of_inScope hu
    rfl
  rcases leaves_of_bind h with ⟨i, u, hreturned, h⟩ | ⟨e, hthrown⟩
  · rw [← eq_of_leaves_pure h]
    exact hscope (.returned i hreturned)
  · exact hscope (.thrown e hthrown)

/-- The contexts of tables have nodes of the graph. -/
structure InGraph (s : VisitorState) : Prop where
  files : ∀ name i, s.fileTableContext.find name = some i → i < s.outGraph.size
  ctes : ∀ name i, s.withTableContext.find name = some i → i < s.outGraph.size
  exprTables : ∀ name i, s.exprTableContext.find name = some i → i < s.outGraph.size

namespace InGraph

variable {s : VisitorState}

theorem start : InGraph {} where
  files _ _ h := by cases h
  ctes _ _ h := by cases h
  exprTables _ _ h := by cases h

theorem keeps (h : InGraph s) {g : QueryGraph} (hkeeps : KeepsNodes s.outGraph g) :
    InGraph { s with outGraph := g } := by
  have hle : (s.outGraph.size : ℤ) ≤ g.size := by exact_mod_cast hkeeps.size_le
  exact ⟨fun name i hi => (h.files name i hi).trans_le hle,
    fun name i hi => (h.ctes name i hi).trans_le hle,
    fun name i hi => (h.exprTables name i hi).trans_le hle⟩

end InGraph

theorem inGraph_traced (env : Environment) :
    Traced env (fun s es t => InGraph s → InGraph t ∧ ∀ e ∈ es, InGraph e.before)
      (fun s es => InGraph s → ∀ e ∈ es, InGraph e.before) := by
  refine traced_of_invariant (fun s g hkeeps hs => hs.keeps hkeeps) ?_ ?_
    (fun s hs => ⟨hs.files, hs.ctes, fun _ _ h => by cases h⟩)
    (fun s t ht => ⟨ht.files, ht.ctes, ht.exprTables⟩)
  · intro s name t h hs
    rcases findOrInsertTable_leaves h with rfl | ⟨schema, -, -, rfl⟩
    · exact hs
    · have hkept := hs.keeps (insertTable_growsBy s.outGraph schema).keepsNodes
      refine ⟨fun other i hi => ?_, hkept.ctes, hkept.exprTables⟩
      rw [OrderedMap.find_insert] at hi
      split_ifs at hi
      · rw [← Option.some.inj hi]
        change _ < ((insertTable s.outGraph schema).size : ℤ)
        rw [size_insertTable]
        omega
      · exact hkept.files other i hi
  · intro s u relation tableNodeId t hvisit h hu
    obtain ⟨tableAlias, ctx, -, -, rfl⟩ := enterTable_leaves h
    refine ⟨hu.files, hu.ctes, fun name i hi => ?_⟩
    change i < u.outGraph.size
    dsimp only at hi
    split_ifs at hi
    · exact hu.exprTables name i hi
    · rw [OrderedMap.find_insert] at hi
      split_ifs at hi
      · rw [← Option.some.inj hi]
        exact visitRelation_lt_size hvisit
      · exact hu.exprTables name i hi

/-- A select statement begins without tables, whatever there was before. -/
theorem visitSelectStatement_forgets (env : Environment) (x : SelectStatement) (s : VisitorState)
    (ctx : Context) : visitSelectStatement env x { s with exprTableContext := ctx } =
        visitSelectStatement env x s ∧
      lastEntered (x.events env { s with exprTableContext := ctx }) =
        lastEntered (x.events env s) := by
  obtain ⟨selectElement, rest, fromClause, whereExpr, groupByExprs, sortItems, limitExpr,
    offsetExpr⟩ := x
  rw [visitSelectStatement, SelectStatement.events]
  exact ⟨rfl, rfl⟩

/-- What a select statement leaves of the context of tables. -/
theorem visitSelectStatement_tables {env : Environment} {x : SelectStatement}
    {s t : VisitorState} (h : Leaves (visitSelectStatement env x) s t) :
    (∀ name, StandsIn s (lastNamed name (lastEntered (x.events env s)))
      (t.exprTableContext.find name)) ∧
      t.withTableContext = s.withTableContext := by
  let s' : VisitorState := { s with exprTableContext := ∅ }
  obtain ⟨hvisit, hevents⟩ := visitSelectStatement_forgets env x s ∅
  have hleaves : Leaves (visitSelectStatement env x) s' t := by
    cases h with
    | returned a h => exact .returned a (hvisit.trans h)
    | thrown e h => exact .thrown e (hvisit.trans h)
  obtain ⟨-, htracks, hctes⟩ := (visitSelectStatement_follows (contexts_traced env s) x s').leaves
    t hleaves (.of_contexts le_rfl fun _ => rfl)
  refine ⟨fun name => ?_, hctes⟩
  rw [← hevents]
  exact htracks name [] rfl

/-- A select statement restores the contexts exactly when it enters last the
tables that `exprTableContext` had. -/
theorem contextsRestored_iff (env : Environment) (x : SelectStatement) (s t : VisitorState)
    (hs : InGraph s) (h : Leaves (visitSelectStatement env x) s t) :
    ContextsRestored s t ↔ Reenters s (x.events env s) := by
  obtain ⟨htables, hctes⟩ := visitSelectStatement_tables h
  constructor
  · intro hrestored
    refine ⟨fun name origin hentered => ?_, fun name habsent => ?_⟩
    · have hstands := htables name
      rw [hrestored.exprTableContext, hentered] at hstands
      obtain ⟨i, hfound, hknown | ⟨-, hnew⟩⟩ := hstands
      · exact ⟨i, hknown, hfound⟩
      · have := hs.exprTables name i hfound
        omega
    · have hstands := htables name
      rwa [hrestored.exprTableContext, habsent] at hstands
  · intro hreenters
    refine ⟨OrderedMap.ext_find fun name => ?_, visitSelectStatement_vars h, hctes⟩
    have hstands := htables name
    cases hentered : lastNamed name (lastEntered (x.events env s)) with
    | none =>
        rw [hentered] at hstands
        exact hstands.trans (hreenters.absent name hentered).symm
    | some origin =>
        rw [hentered] at hstands
        obtain ⟨i, hfound, hi⟩ := hstands
        obtain ⟨j, hj, hbefore⟩ := hreenters.entered name origin hentered
        rw [hfound, hbefore]
        rcases hi with hi | ⟨hnone, -⟩
        · exact hi.symm.trans hj
        · rw [hnone] at hj
          cases hj

def selectOne : SelectStatement :=
  .mk (.expression (.ofInt "1") none) [] none none [] [] none none

def selectOneFrom : SelectStatement :=
  .mk (.expression (.ofInt "1") none) [] (some (.mk (.table (bytes "t") (some (bytes "x"))) []))
    none [] [] none none

/-- After `FROM t AS x` the statement `SELECT 1 FROM t AS x` restores the
contexts: it enters the same table under the same name. -/
theorem contextsRestored_iff_sample : ∃ p s t n,
    visitFrom sampleEnvironment selectOneFrom.fromClause (enterSelect {}) = .returned p s ∧
    Leaves (visitSelectStatement sampleEnvironment selectOneFrom) s t ∧
    s.exprTableContext.find (bytes "x") = some n ∧ ContextsRestored s t := by
  have hfrom : (visitFrom sampleEnvironment selectOneFrom.fromClause (enterSelect {})).returns
      fun _ s => (visitSelectStatement sampleEnvironment selectOneFrom s).returns fun _ _ =>
        s.exprTableContext.entries = [(bytes "x", 1)] &&
          (Origin.table (bytes "t")).node s = some 1 &&
          lastEntered (selectOneFrom.events sampleEnvironment s) =
            [(bytes "x", .table (bytes "t"))] := by
    decide +kernel
  obtain ⟨p, s, hvisit, hselect⟩ := Outcome.exists_of_returns hfrom
  obtain ⟨a, t, hrun, hs⟩ := Outcome.exists_of_returns hselect
  simp only [Bool.and_eq_true, decide_eq_true_eq] at hs
  obtain ⟨⟨hentries, hnode⟩, hlast⟩ := hs
  have hgraph : InGraph s := by
    have hstart : InGraph (enterSelect {}) := .start
    exact ((visitFrom_follows (inGraph_traced _) _ _).leaves s (.returned p hvisit) hstart).1
  have hfind : ∀ name i, s.exprTableContext.find name = some i ↔ name = bytes "x" ∧ i = 1 := by
    intro name i
    rw [← OrderedMap.mem_entries_iff, hentries, List.mem_singleton, Prod.mk.injEq]
  refine ⟨p, s, t, 1, hvisit, .returned a hrun, (hfind _ _).mpr ⟨rfl, rfl⟩, ?_⟩
  refine (contextsRestored_iff sampleEnvironment selectOneFrom s t hgraph
    (.returned a hrun)).mpr ⟨fun name origin h => ?_, fun name h => ?_⟩
  · rw [hlast, lastNamed_singleton] at h
    split_ifs at h with hname
    obtain rfl := Option.some.inj h
    exact ⟨1, hnode, (hfind name 1).mpr ⟨hname, rfl⟩⟩
  · rw [hlast, lastNamed_singleton] at h
    split_ifs at h with hname
    rw [Option.eq_none_iff_forall_ne_some]
    exact fun i hi => hname ((hfind name i).mp hi).1

/-- After `FROM t AS x JOIN (SELECT 1)` the table `x` is lost. -/
theorem scope_lost : ∃ n s₁ s t,
    castNode (visitRelation sampleEnvironment (.table (bytes "t") (some (bytes "x"))))
      (enterSelect {}) = .returned n s₁ ∧
    enterTable n (some (bytes "x")) s₁ = .returned () s ∧
    Leaves (visitSelectStatement sampleEnvironment selectOne) s t ∧ ¬ContextsRestored s t := by
  have hrelation : (castNode (visitRelation sampleEnvironment
      (.table (bytes "t") (some (bytes "x")))) (enterSelect {})).returns fun n s₁ =>
        (enterTable n (some (bytes "x")) s₁).returns fun _ s =>
          (visitSelectStatement sampleEnvironment selectOne s).returns fun _ t =>
            s.exprTableContext.find (bytes "x") = some n &&
              t.exprTableContext.find (bytes "x") = none := by
    decide +kernel
  obtain ⟨n, s₁, hvisit, henter⟩ := Outcome.exists_of_returns hrelation
  obtain ⟨⟨⟩, s, hentered, hselect⟩ := Outcome.exists_of_returns henter
  obtain ⟨a, t, hrun, hfind⟩ := Outcome.exists_of_returns hselect
  simp only [Bool.and_eq_true, decide_eq_true_eq] at hfind
  refine ⟨n, s₁, s, t, hvisit, hentered, .returned a hrun, fun hrestored => ?_⟩
  rw [hrestored.exprTableContext, hfind.1] at hfind
  cases hfind.2

end Parse

end DistStorage
