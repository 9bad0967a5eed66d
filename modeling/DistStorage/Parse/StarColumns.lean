import DistStorage.Parse.SelectScope
import DistStorage.Parse.ShownNames

/-!
# The columns of a star

A global star lists the variables without a dot in their name, in the order of
their names. `FROM` enters every named child of each relation, so the star loses
a column whose name another one has or that has no name, lists a table that is a
named child of a subquery, and follows the order of names and not that of the
declaration. `ListedByName` says when nothing of this happens.
-/

namespace DistStorage

namespace Parse

open Cpp Query QueryGraph

def isRelation (op : ColumnOperation) : Bool := isTableOperation op || op = .GROUP

/-- The columns of a relation, down to some depth. -/
def columnsWithin (g : OpGraph) : ℕ → ℤ → List ℤ
  | 0, _ => []
  | depth + 1, i =>
      match (g.operation i).op with
      | .TABLE => g.children i
      | .DF => (g.children i).filter fun c => !isRelation (g.operation c).op
      | _ =>
        match g.children i with
        | [] => []
        | c :: _ => columnsWithin g depth c

/-- The columns of a relation in their declared order: those of a schema table,
the select list of a data frame, and else those of the node below. -/
def relationColumns (g : OpGraph) (i : ℤ) : List ℤ := columnsWithin g g.size i

/-- The relations of `JOIN`, each with the graph in which it is entered. -/
def joinsEntered (env : Environment) :
    List JoinClause → VisitorState → List (QueryGraph × ℤ)
  | [] => fun _ => []
  | .mk relation onExpr :: rest =>
      Action.eventsThen (fun _ => []) (visitRelation env relation) fun _ =>
        Action.eventsThen (fun _ => []) (castNode (visitRelation env relation)) fun tableNodeId =>
        Action.eventsThen (fun s => [(s.outGraph, tableNodeId)])
          (enterTable tableNodeId relation.aliasName) fun _ =>
        Action.eventsThen (fun _ => []) (castNode (visitExpression env onExpr)) fun _ =>
        joinsEntered env rest

/-- The relations of `FROM`, each with the graph in which it is entered. -/
def fromEntered (env : Environment) : Option FromClause → VisitorState → List (QueryGraph × ℤ)
  | none => fun _ => []
  | some (.mk baseTable joins) =>
      Action.eventsThen (fun _ => []) (castNode (visitRelation env baseTable)) fun tableNodeId =>
        Action.eventsThen (fun s => [(s.outGraph, tableNodeId)])
          (enterTable tableNodeId baseTable.aliasName) fun _ => joinsEntered env joins

/-- The named children of the relations, as they are entered. -/
def enteredColumns (entered : List (QueryGraph × ℤ)) : List (Bytes × ℤ) :=
  entered.flatMap fun relation =>
    namedNodes relation.1.nameOf (relation.1.children relation.2)

/-- The columns have strictly increasing names without a dot, each was entered
last under its name, and no other name without a dot was entered. -/
def ListedByName (entries : List (Bytes × ℤ)) (columns : List ℤ) : Prop :=
  ∃ names : List Bytes, names.Pairwise (· < ·) ∧
    (∀ name, name ∈ names ↔ Undotted name ∧ name ∈ entries.map Prod.fst) ∧
    names.map (fun name => lastNamed name entries) = columns.map some

section Columns

variable {g : QueryGraph} {i c : ℤ} {rest : List ℤ}

theorem columnsWithin_over (htable : (g.operation i).op ≠ .TABLE) (hdf : (g.operation i).op ≠ .DF)
    (depth : ℕ) : columnsWithin g.toOpGraph (depth + 1) i =
      match g.children i with
      | [] => []
      | c :: _ => columnsWithin g.toOpGraph depth c := by
  rw [columnsWithin]
  split
  · contradiction
  · contradiction
  · rfl

theorem child_lt (hg : g.Coherent) (hc : c ∈ g.children i) : c < i := by
  obtain ⟨hi, rfl | hchild⟩ := hg.child hc
  · exact lt_of_lt_of_le (by decide) hi.1
  · exact hchild.2

theorem columnsWithin_eq (hg : g.Coherent) {depth depth' : ℕ} (h : i < depth) (h' : i < depth') :
    columnsWithin g.toOpGraph depth i = columnsWithin g.toOpGraph depth' i := by
  have hnegative : ∀ (d : ℕ) (j : ℤ), j < 0 → columnsWithin g.toOpGraph d j = [] := by
    intro d j hj
    have hvalid : ¬g.Valid j := fun hvalid => absurd hvalid.1 (not_le.mpr hj)
    cases d with
    | zero => rfl
    | succ d =>
        rw [columnsWithin, OpGraph.operation, Cpp.index_eq_none hvalid,
          OpGraph.children_of_not_valid hg.lengths hvalid]
        rfl
  induction depth generalizing i depth' with
  | zero => rw [hnegative _ i h, hnegative _ i h]
  | succ depth ih =>
      cases depth' with
      | zero => rw [hnegative _ i h', hnegative _ i h']
      | succ depth' =>
          by_cases hop : (g.operation i).op = .TABLE ∨ (g.operation i).op = .DF
          · rcases hop with hop | hop <;> rw [columnsWithin, columnsWithin, hop]
          · rw [not_or] at hop
            rw [columnsWithin_over hop.1 hop.2, columnsWithin_over hop.1 hop.2]
            cases hchildren : g.children i with
            | nil => rfl
            | cons c rest =>
                have hlt := child_lt hg (hchildren ▸ List.mem_cons_self)
                exact ih (by omega) (by omega)

/-- A node over another relation has the columns of that relation. -/
theorem relationColumns_over (hg : g.Coherent) (htable : (g.operation i).op ≠ .TABLE)
    (hdf : (g.operation i).op ≠ .DF) (hchildren : g.children i = c :: rest) :
    relationColumns g.toOpGraph i = relationColumns g.toOpGraph c := by
  have hmem : c ∈ g.children i := hchildren ▸ List.mem_cons_self
  have hlt := child_lt hg hmem
  obtain ⟨h0, hi⟩ := (hg.child hmem).1
  obtain ⟨n, hn⟩ : ∃ n, g.size = n + 1 := Nat.exists_eq_add_one.mpr (by omega)
  rw [relationColumns, hn, columnsWithin_over htable hdf, hchildren, relationColumns]
  exact columnsWithin_eq hg (by omega) (by omega)

end Columns

section Star

theorem undotted_iff (name : Bytes) : Undotted name ↔ name.contains (byte '.') = false := by
  have hdot : bytes "." = [byte '.'] := rfl
  rw [Undotted, hdot, List.singleton_infix_iff, ← Bool.not_eq_true, List.contains_iff_mem]

theorem lastNamed_isSome_iff {name : Bytes} {entries : List (Bytes × ℤ)} :
    (lastNamed name entries).isSome = true ↔ name ∈ entries.map Prod.fst := by
  rw [lastNamed, List.lookup_isSome_iff]
  simp

theorem globalStar_eq_iff {ctx : Context} {entries : List (Bytes × ℤ)}
    (hctx : ∀ name, Undotted name → ctx.find name = lastNamed name entries) (columns : List ℤ) :
    globalStar ctx = columns ↔ ListedByName entries columns := by
  have hshown : ∀ col ∈ ctx.entries.filter (fun col => !col.1.contains (byte '.')),
      Undotted col.1 ∧ lastNamed col.1 entries = some col.2 := by
    rintro ⟨name, i⟩ hcol
    obtain ⟨hmem, hdot⟩ := List.mem_filter.mp hcol
    have hname : Undotted name := (undotted_iff name).mpr (by simpa using hdot)
    exact ⟨hname, (hctx name hname).symm.trans ((ctx.mem_entries_iff name i).mp hmem)⟩
  let keys := (ctx.entries.filter fun col => !col.1.contains (byte '.')).map Prod.fst
  have hsorted : keys.Pairwise (· < ·) := List.pairwise_map.mpr (ctx.sorted.filter _)
  have hmem : ∀ name, name ∈ keys ↔ Undotted name ∧ name ∈ entries.map Prod.fst := by
    intro name
    constructor
    · intro hname
      obtain ⟨col, hcol, rfl⟩ := List.mem_map.mp hname
      obtain ⟨hundotted, hlast⟩ := hshown col hcol
      exact ⟨hundotted, lastNamed_isSome_iff.mp (by rw [hlast]; rfl)⟩
    · rintro ⟨hundotted, hentered⟩
      obtain ⟨i, hi⟩ := Option.isSome_iff_exists.mp (lastNamed_isSome_iff.mpr hentered)
      have hfind := (ctx.mem_entries_iff name i).mpr ((hctx name hundotted).trans hi)
      refine List.mem_map.mpr ⟨(name, i), List.mem_filter.mpr ⟨hfind, ?_⟩, rfl⟩
      rw [(undotted_iff name).mp hundotted]
      rfl
  have hlast : keys.map (fun name => lastNamed name entries) = (globalStar ctx).map some := by
    rw [List.map_map, globalStar, List.map_map]
    exact List.map_congr_left fun col hcol => (hshown col hcol).2
  constructor
  · rintro rfl
    exact ⟨keys, hsorted, hmem, hlast⟩
  · rintro ⟨names, hnames, hiff, hcolumns⟩
    have heq : names = keys := hnames.eq_of_mem_iff hsorted fun name =>
      (hiff name).trans (hmem name).symm
    rw [heq, hlast] at hcolumns
    exact List.map_injective_iff.mpr (Option.some_injective ℤ) hcolumns

end Star

theorem enteredColumns_cons (g : QueryGraph) (i : ℤ) (entered : List (QueryGraph × ℤ)) :
    enteredColumns ((g, i) :: entered) =
      namedNodes g.nameOf (g.children i) ++ enteredColumns entered :=
  List.flatMap_cons

section Variables

variable {env : Environment} {s t : VisitorState} {name : Bytes}

theorem find_enterTable {tableNodeId : ℤ} {aliasName : Option Bytes} (hname : Undotted name)
    (h : enterTable tableNodeId aliasName s = .returned () t) :
    t.exprVarContext.find name = (lastNamed name (namedNodes s.outGraph.nameOf
      (s.outGraph.children tableNodeId))).or (s.exprVarContext.find name) := by
  obtain ⟨tableAlias, ctx, -, hload, rfl⟩ := enterTable_leaves (.returned () h)
  obtain ⟨cols, hcols, hcolumns⟩ := Option.bind_eq_some_iff.mp hload
  rw [OpGraph.children, hcols, Option.getD_some]
  exact find_loadColumnNames hcolumns fun i _ c _ ctx => find_enterColumn hname ctx

theorem visitExpression_vars {x : Expression} {i : ℤ}
    (h : castNode (visitExpression env x) s = .returned i t) :
    t.exprVarContext = s.exprVarContext := by
  obtain ⟨new, g, -, -, rfl⟩ := visitExpression_grown h
  rfl

theorem visitSelectStatements_vars {l : List SelectStatement} {ids : List ℤ}
    (h : visitSelectStatements env l s = .returned ids t) :
    t.exprVarContext = s.exprVarContext := by
  induction l generalizing s ids with
  | nil =>
      rw [visitSelectStatements] at h
      obtain ⟨-, rfl⟩ := Action.pure_eq_returned.mp h
      rfl
  | cons x rest ih =>
      rw [visitSelectStatements] at h
      obtain ⟨i, u, hfirst, h⟩ := Action.bind_eq_returned.mp h
      obtain ⟨others, v, hrest, h⟩ := Action.bind_eq_returned.mp h
      obtain ⟨-, rfl⟩ := Action.pure_eq_returned.mp h
      exact (ih hrest).trans
        (visitSelectStatement_vars (.returned _ (castNode_eq_returned.mp hfirst)))

theorem visitQueryExpression_vars {x : QueryExpression} {a : Any}
    (h : visitQueryExpression env x s = .returned a t) :
    t.exprVarContext = s.exprVarContext := by
  obtain ⟨select, rest⟩ := x
  rw [visitQueryExpression] at h
  obtain ⟨i, u, hfirst, h⟩ := Action.bind_eq_returned.mp h
  obtain ⟨ids, v, hrest, h⟩ := Action.bind_eq_returned.mp h
  obtain ⟨n, w, hunion, h⟩ := Action.bind_eq_returned.mp h
  obtain ⟨-, rfl⟩ := Action.pure_eq_returned.mp h
  obtain ⟨new, g, -, -, rfl⟩ :=
    (Grown.appendUnlessSingle (p := fun o => o.op = .UNION) rfl (i :: ids) v).leaves w
      (.returned n hunion)
  exact (visitSelectStatements_vars hrest).trans
    (visitSelectStatement_vars (.returned _ (castNode_eq_returned.mp hfirst)))

theorem nameRelation_vars {tableNodeId : ℤ} {aliasName : Option Bytes} {a : Any}
    (h : nameRelation tableNodeId aliasName s = .returned a t) :
    t.exprVarContext = s.exprVarContext := by
  obtain ⟨s', u, hget, hrun⟩ := Action.bind_eq_returned.mp h
  cases hget
  obtain ⟨exprName, v, hname, hrest⟩ := Action.bind_eq_returned.mp hrun
  have hread : v = s := by
    cases hget : s.outGraph.getNodeName tableNodeId with
    | none =>
        rw [hget] at hname
        cases hname
    | some c =>
        rw [hget] at hname
        cases hname
        rfl
  subst hread
  by_cases hnamed : exprName = [] ∧ aliasName.getD [] ≠ []
  · rw [if_pos hnamed] at hrest
    obtain ⟨⟨⟩, w, hset, hpure⟩ := Action.bind_eq_returned.mp hrest
    obtain ⟨-, rfl⟩ := Action.pure_eq_returned.mp hpure
    obtain ⟨g, -, rfl⟩ := setName_leaves (.returned () hset)
    rfl
  · rw [if_neg hnamed] at hrest
    cases hrest
    rfl

theorem visitRelation_vars {x : Relation} {a : Any}
    (h : visitRelation env x s = .returned a t) : t.exprVarContext = s.exprVarContext := by
  cases x with
  | table name aliasName =>
      rw [visitRelation] at h
      obtain ⟨i, u, hfind, h⟩ := Action.bind_eq_returned.mp h
      refine (nameRelation_vars h).trans ?_
      rcases findOrInsertTable_leaves (.returned i hfind) with rfl | ⟨schema, -, -, rfl⟩ <;> rfl
  | subquery queryExpression aliasName =>
      rw [visitRelation] at h
      obtain ⟨i, u, hvisit, h⟩ := Action.bind_eq_returned.mp h
      exact (nameRelation_vars h).trans
        (visitQueryExpression_vars (castNode_eq_returned.mp hvisit))

theorem visitSelectElement_vars {x : SelectElement} {ids : List ℤ}
    (h : visitSelectElement env x s = .returned ids t) :
    t.exprVarContext = s.exprVarContext := by
  rcases x with _ | tableName | ⟨expression, _ | name⟩
  · rw [visitSelectElement] at h
    cases h
    rfl
  · rw [visitSelectElement] at h
    cases h
    rfl
  · rw [visitSelectElement] at h
    obtain ⟨i, u, hvisit, h⟩ := Action.bind_eq_returned.mp h
    obtain ⟨-, rfl⟩ := Action.pure_eq_returned.mp h
    exact visitExpression_vars hvisit
  · rw [visitSelectElement] at h
    obtain ⟨i, u, hvisit, h⟩ := Action.bind_eq_returned.mp h
    obtain ⟨⟨⟩, v, hset, h⟩ := Action.bind_eq_returned.mp h
    obtain ⟨-, rfl⟩ := Action.pure_eq_returned.mp h
    have hu := visitExpression_vars hvisit
    obtain ⟨g, -, rfl⟩ := setName_leaves (.returned () hset)
    exact hu

theorem visitSelectElements_vars {l : List SelectElement} {ids : List ℤ}
    (h : visitSelectElements env l s = .returned ids t) :
    t.exprVarContext = s.exprVarContext := by
  induction l generalizing s ids with
  | nil =>
      rw [visitSelectElements] at h
      obtain ⟨-, rfl⟩ := Action.pure_eq_returned.mp h
      rfl
  | cons x rest ih =>
      rw [visitSelectElements] at h
      obtain ⟨nodeIds, u, hfirst, h⟩ := Action.bind_eq_returned.mp h
      obtain ⟨others, v, hrest, h⟩ := Action.bind_eq_returned.mp h
      obtain ⟨-, rfl⟩ := Action.pure_eq_returned.mp h
      exact (ih hrest).trans (visitSelectElement_vars hfirst)

/-- The relations of `JOIN` are those entered, and a name stands for the last of
their children that bears it. -/
theorem visitJoins_entered {l : List JoinClause} {p : List ℤ × List ℤ}
    (h : visitJoins env l s = .returned p t) :
    p.1 = (joinsEntered env l s).map Prod.snd ∧ ∀ name, Undotted name →
      t.exprVarContext.find name =
        (lastNamed name (enteredColumns (joinsEntered env l s))).or
          (s.exprVarContext.find name) := by
  induction l generalizing s p with
  | nil =>
      rw [visitJoins] at h
      obtain ⟨rfl, rfl⟩ := Action.pure_eq_returned.mp h
      exact ⟨rfl, fun _ _ => rfl⟩
  | cons join rest ih =>
      obtain ⟨relation, onExpr⟩ := join
      rw [visitJoins] at h
      obtain ⟨q, u, hjoin, h⟩ := Action.bind_eq_returned.mp h
      obtain ⟨ps, v, hrest, h⟩ := Action.bind_eq_returned.mp h
      obtain ⟨rfl, rfl⟩ := Action.pure_eq_returned.mp h
      rw [visitJoinClause] at hjoin
      obtain ⟨a, u₁, hfirst, hjoin⟩ := Action.bind_eq_returned.mp hjoin
      obtain ⟨n, u₂, hsecond, hjoin⟩ := Action.bind_eq_returned.mp hjoin
      obtain ⟨⟨⟩, u₃, henter, hjoin⟩ := Action.bind_eq_returned.mp hjoin
      obtain ⟨f, u₄, hfilter, hjoin⟩ := Action.bind_eq_returned.mp hjoin
      obtain ⟨rfl, rfl⟩ := Action.pure_eq_returned.mp hjoin
      have hentered : joinsEntered env (.mk relation onExpr :: rest) s =
          (u₂.outGraph, n) :: joinsEntered env rest u₄ := by
        rw [joinsEntered, Action.eventsThen_of_returned hfirst,
          Action.eventsThen_of_returned hsecond, Action.eventsThen_of_returned henter,
          Action.eventsThen_of_returned hfilter]
        rfl
      obtain ⟨htables, hfind⟩ := ih hrest
      rw [hentered]
      refine ⟨?_, fun name hname => ?_⟩
      · rw [List.map_cons, ← htables]
      · rw [hfind name hname, visitExpression_vars hfilter, find_enterTable hname henter,
          visitRelation_vars (castNode_eq_returned.mp hsecond), visitRelation_vars hfirst,
          enteredColumns_cons, lastNamed_append, Option.or_assoc]

/-- After `FROM` a name without a dot stands for the last child of a relation
that bears it. -/
theorem visitFrom_entered {x : Option FromClause} {p : List ℤ × List ℤ}
    (h : visitFrom env x (enterSelect s) = .returned p t) :
    p.1 = (fromEntered env x (enterSelect s)).map Prod.snd ∧ ∀ name, Undotted name →
      t.exprVarContext.find name =
        lastNamed name (enteredColumns (fromEntered env x (enterSelect s))) := by
  rcases x with _ | ⟨baseTable, joins⟩
  · rw [visitFrom] at h
    obtain ⟨rfl, rfl⟩ := Action.pure_eq_returned.mp h
    exact ⟨rfl, fun _ _ => rfl⟩
  · rw [visitFrom, visitFromClause] at h
    obtain ⟨n, u₁, hbase, h⟩ := Action.bind_eq_returned.mp h
    obtain ⟨⟨⟩, u₂, henter, h⟩ := Action.bind_eq_returned.mp h
    obtain ⟨ps, v, hjoins, h⟩ := Action.bind_eq_returned.mp h
    obtain ⟨rfl, rfl⟩ := Action.pure_eq_returned.mp h
    have hentered : fromEntered env (some (.mk baseTable joins)) (enterSelect s) =
        (u₁.outGraph, n) :: joinsEntered env joins u₂ := by
      rw [fromEntered, Action.eventsThen_of_returned hbase, Action.eventsThen_of_returned henter]
      rfl
    obtain ⟨htables, hfind⟩ := visitJoins_entered hjoins
    rw [hentered]
    refine ⟨?_, fun name hname => ?_⟩
    · rw [List.map_cons, ← htables]
    · rw [hfind name hname, find_enterTable hname henter,
        visitRelation_vars (castNode_eq_returned.mp hbase), enteredColumns_cons,
        lastNamed_append, ← Option.or_assoc]
      exact Option.or_none

end Variables

/-- A select statement that returned, cut at a star of its select list: the
relations of `FROM`, the nodes that the star contributes, and the children of
the data frame. -/
def StarVisit (env : Environment) (x : SelectStatement) (before after : List SelectElement)
    (s t : VisitorState) (tableNodeIds star : List ℤ) : Prop :=
  ∃ filters s₁ s₂ s₃ beforeIds afterIds dfNodeId,
    visitFrom env x.fromClause (enterSelect s) = .returned (tableNodeIds, filters) s₁ ∧
    visitSelectElements env before s₁ = .returned beforeIds s₂ ∧
    visitSelectElement env .globalStar s₂ = .returned star s₂ ∧
    visitSelectElements env after s₂ = .returned afterIds s₃ ∧
    (t.outGraph.operation dfNodeId).op = .DF ∧
    t.outGraph.children dfNodeId = tableNodeIds ++ (beforeIds ++ (star ++ afterIds))

section Statement

variable {env : Environment} {s t : VisitorState}

theorem visitSelectElements_of_items {l : List SelectElement} {items : List Item}
    (h : visitItems env l s = .returned items t) :
    visitSelectElements env l s = .returned (items.map Item.node) t := by
  induction l generalizing s items with
  | nil =>
      obtain ⟨rfl, rfl⟩ := Action.pure_eq_returned.mp h
      rw [visitSelectElements]
      rfl
  | cons x rest ih =>
      obtain ⟨ids, u, hfirst, h⟩ := Action.bind_eq_returned.mp h
      obtain ⟨others, v, hrest, h⟩ := Action.bind_eq_returned.mp h
      obtain ⟨rfl, rfl⟩ := Action.pure_eq_returned.mp h
      rw [visitSelectElements, Action.bind_of_returned hfirst, Action.bind_of_returned (ih hrest),
        List.map_append, List.map_map]
      have hids : ids.map (Item.node ∘ Item.mk x.aliasName) = ids := List.map_id ids
      rw [hids]
      rfl

theorem visitSelectElements_append {l l' : List SelectElement} {ids : List ℤ}
    (h : visitSelectElements env (l ++ l') s = .returned ids t) :
    ∃ firstIds u otherIds, visitSelectElements env l s = .returned firstIds u ∧
      visitSelectElements env l' u = .returned otherIds t ∧ ids = firstIds ++ otherIds := by
  induction l generalizing s ids with
  | nil =>
      refine ⟨[], s, ids, ?_, h, rfl⟩
      rw [visitSelectElements]
      rfl
  | cons x rest ih =>
      rw [List.cons_append, visitSelectElements] at h
      obtain ⟨xIds, u, hfirst, h⟩ := Action.bind_eq_returned.mp h
      obtain ⟨restIds, v, hrest, h⟩ := Action.bind_eq_returned.mp h
      obtain ⟨rfl, rfl⟩ := Action.pure_eq_returned.mp h
      obtain ⟨firstIds, w, otherIds, hfirstIds, hother, rfl⟩ := ih hrest
      refine ⟨xIds ++ firstIds, w, otherIds, ?_, hother, (List.append_assoc _ _ _).symm⟩
      rw [visitSelectElements, Action.bind_of_returned hfirst, Action.bind_of_returned hfirstIds]
      rfl

/-- The clauses leave the data frame over the relations and the select list. -/
theorem visitClauses_frame {x : SelectStatement} {tableNodeIds columnNodeIds filters : List ℤ}
    {n : ℤ} (hlengths : s.outGraph.graphMapping.length = s.outGraph.operations.length)
    (h : visitClauses env tableNodeIds columnNodeIds filters x s = .returned n t) :
    ∃ dfNodeId, (t.outGraph.operation dfNodeId).op = .DF ∧
      t.outGraph.children dfNodeId = tableNodeIds ++ columnNodeIds := by
  obtain ⟨selectElement, rest, fromClause, whereExpr, groupByExprs, sortItems, limitExpr,
    offsetExpr⟩ := x
  obtain ⟨whereId, s₁, hwhere, h⟩ := Action.bind_eq_returned.mp h
  obtain ⟨groupIds, s₂, hgroup, h⟩ := Action.bind_eq_returned.mp h
  obtain ⟨orderIds, s₃, horder, h⟩ := Action.bind_eq_returned.mp h
  obtain ⟨offset, s₄, hoffset, h⟩ := Action.bind_eq_returned.mp h
  obtain ⟨limit, s₅, hlimit, h⟩ := Action.bind_eq_returned.mp h
  have hT := keepsNodes_traced env
  have hkeeps : KeepsNodes s.outGraph s₅.outGraph :=
    (keepsNodes_of_follows (visitOptional_follows hT whereExpr) _ _ _ hwhere).trans <|
    (keepsNodes_of_follows (visitExpressions_follows hT groupByExprs) _ _ _ hgroup).trans <|
    (keepsNodes_of_follows (visitSortItems_follows hT sortItems) _ _ _ horder).trans <|
    (keepsNodes_of_follows (visitOptional_follows hT offsetExpr) _ _ _ hoffset).trans <|
    keepsNodes_of_follows (visitOptional_follows hT limitExpr) _ _ _ hlimit
  obtain ⟨node, new, g, hnew, hchildren, hop, -, -, rfl⟩ := constructSelect_leaves (.returned n h)
  have hfirst : (node :: new)[0]? = some (node.1, node.2) := rfl
  refine ⟨s₅.outGraph.size, ?_, ?_⟩
  · have hoperation := OpGraph.operation_append_fresh s₅.outGraph.toOpGraph hfirst
    rw [← hnew.graph_eq, Nat.cast_zero, add_zero] at hoperation
    exact (congrArg Operation.op hoperation).trans hop
  · have hkids := OpGraph.children_append_fresh (hkeeps.lengths hlengths) hfirst
    rw [← hnew.graph_eq, Nat.cast_zero, add_zero] at hkids
    exact hkids.trans hchildren

theorem visitGlobalStar_eq_returned {ids : List ℤ}
    (h : visitSelectElement env .globalStar s = .returned ids t) :
    ids = globalStar s.exprVarContext ∧ t = s := by
  rw [visitSelectElement] at h
  cases h
  exact ⟨rfl, rfl⟩

/-- A star lists the columns of the relations in their order exactly when their
names without a dot, in increasing order, are those of the columns. -/
theorem star_eq_columns_iff {x : SelectStatement} {before after : List SelectElement} {a : Any}
    (hx : x.elements = before ++ .globalStar :: after)
    (hlengths : s.outGraph.graphMapping.length = s.outGraph.operations.length)
    (h : visitSelectStatement env x s = .returned a t) :
    let entered := fromEntered env x.fromClause (enterSelect s)
    let columns := (entered.map Prod.snd).flatMap (relationColumns t.outGraph.toOpGraph)
    ∃ star, StarVisit env x before after s t (entered.map Prod.snd) star ∧
      (star = columns ↔ ListedByName (enteredColumns entered) columns) := by
  intro entered columns
  obtain ⟨⟨tableNodeIds, filters⟩, s₁, items, s₄, n, u, hfrom, hitems, hclauses, rfl, rfl⟩ :=
    visitSelectStatement_eq_returned h
  have helements := visitSelectElements_of_items hitems
  rw [hx] at helements
  obtain ⟨beforeIds, s₂, listIds, hbefore, hlist, hids⟩ := visitSelectElements_append helements
  rw [visitSelectElements] at hlist
  obtain ⟨star, s₃, hstar, hlist⟩ := Action.bind_eq_returned.mp hlist
  obtain ⟨afterIds, s₅, hafter, hlist⟩ := Action.bind_eq_returned.mp hlist
  obtain ⟨rfl, rfl⟩ := Action.pure_eq_returned.mp hlist
  obtain ⟨hglobal, rfl⟩ := visitGlobalStar_eq_returned hstar
  have htables : tableNodeIds = entered.map Prod.snd := (visitFrom_entered hfrom).1
  subst htables
  have hT := keepsNodes_traced env
  have hkeeps : KeepsNodes s.outGraph s₅.outGraph :=
    (keepsNodes_of_follows (visitFrom_follows hT x.fromClause) _ _ _ hfrom).trans
      (keepsNodes_of_follows (visitSelectElements_follows hT _) _ _ _ helements)
  obtain ⟨dfNodeId, hop, hchildren⟩ := visitClauses_frame (hkeeps.lengths hlengths) hclauses
  rw [hids] at hchildren
  refine ⟨star, ⟨filters, s₁, s₃, s₅, beforeIds, afterIds, dfNodeId, hfrom, hbefore, hstar, hafter,
    hop, hchildren⟩, ?_⟩
  rw [hglobal]
  refine globalStar_eq_iff (fun name hname => ?_) columns
  rw [visitSelectElements_vars hbefore]
  exact (visitFrom_entered hfrom).2 name hname

end Statement

def starSelect : SelectStatement :=
  .mk .globalStar [] (some (.mk (.table (bytes "t") none) [])) none [] [] none none

def disorderedEnvironment : Environment where
  tables := [{ name := bytes "t", columns :=
    [{ name := bytes "b", type := .Int64 }, { name := bytes "a", type := .Int64 }] }]
  stod _ := .error .invalidArgument

/-- Two tables, `t` with the column `a` and `u` with the column `b`. -/
def orderedEnvironment : Environment where
  tables := [{ name := bytes "t", columns := [{ name := bytes "a", type := .Int64 }] },
    { name := bytes "u", columns := [{ name := bytes "b", type := .Int64 }] }]
  stod _ := .error .invalidArgument

def starJoin : SelectStatement :=
  .mk .globalStar [] (some (.mk (.table (bytes "t") none)
    [.mk (.table (bytes "u") none) (.ofPrimary (.literalExpr .trueKw))])) none [] [] none none

/-- The star over the join lists `a` and `b`. -/
theorem star_eq_columns_iff_sample : ∃ t star,
    StarVisit orderedEnvironment starJoin [] [] {} t [1, 3] star ∧ star = [0, 2] ∧
      star = [1, 3].flatMap (relationColumns t.outGraph.toOpGraph) := by
  have hrun : (visitSelectStatement orderedEnvironment starJoin {}).returns fun _ t =>
      [1, 3].flatMap (relationColumns t.outGraph.toOpGraph) = [0, 2] := by
    decide +kernel
  obtain ⟨a, t, h, hcolumns⟩ := Outcome.exists_of_returns hrun
  have htables : (fromEntered orderedEnvironment starJoin.fromClause (enterSelect {})).map
      Prod.snd = [1, 3] := by
    decide +kernel
  have hentered : enteredColumns (fromEntered orderedEnvironment starJoin.fromClause
      (enterSelect {})) = [(bytes "a", 0), (bytes "b", 2)] := by
    decide +kernel
  have hparts : starJoin.elements = [] ++ .globalStar :: [] := rfl
  obtain ⟨star, hstar, hiff⟩ := star_eq_columns_iff hparts rfl h
  rw [htables] at hstar
  rw [htables, hentered, of_decide_eq_true hcolumns] at hiff
  have hnames : star = [0, 2] := by
    refine hiff.mpr ⟨[bytes "a", bytes "b"], by decide, fun name => ?_, by decide⟩
    rw [List.mem_pair, List.map_cons, List.map_cons, List.map_nil, List.mem_pair]
    refine ⟨fun hname => ⟨?_, hname⟩, And.right⟩
    rcases hname with rfl | rfl <;> decide
  exact ⟨t, star, hstar, hnames, hnames.trans (of_decide_eq_true hcolumns).symm⟩

/-- The star over `t` lists `a` before `b`. -/
theorem star_disordered : ∃ t star,
    StarVisit disorderedEnvironment starSelect [] [] {} t [2] star ∧
      star = [1, 0] ∧ relationColumns t.outGraph.toOpGraph 2 = [0, 1] := by
  have hvisit : (visitSelectStatement disorderedEnvironment starSelect {}).returns fun _ t =>
      relationColumns t.outGraph.toOpGraph 2 = [0, 1] ∧
        (t.outGraph.operation 3).op = .DF ∧ t.outGraph.children 3 = [2, 1, 0] := by
    decide +kernel
  have hfrom : (visitFrom disorderedEnvironment starSelect.fromClause (enterSelect {})).returns
      fun p s₁ => p.1 = [2] ∧ globalStar s₁.exprVarContext = [1, 0] := by
    decide +kernel
  obtain ⟨a, t, -, ht⟩ := Outcome.exists_of_returns hvisit
  obtain ⟨⟨tableNodeIds, filters⟩, s₁, hrun, hs₁⟩ := Outcome.exists_of_returns hfrom
  obtain ⟨hcolumns, hop, hchildren⟩ := of_decide_eq_true ht
  obtain ⟨rfl, hstar⟩ := of_decide_eq_true hs₁
  refine ⟨t, [1, 0], ⟨filters, s₁, s₁, s₁, [], [], 3, hrun, ?_, ?_, ?_, hop, hchildren⟩, rfl,
    hcolumns⟩
  · rw [visitSelectElements]
    rfl
  · rw [visitSelectElement, ← hstar]
    rfl
  · rw [visitSelectElements]
    rfl

end Parse

end DistStorage
