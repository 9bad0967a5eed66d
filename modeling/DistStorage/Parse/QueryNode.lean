import DistStorage.Parse.SelectNode

/-!
# The node a query expression stands for

A query expression stands for the node of its select statement, or for a `UNION`
over several. `SelectNames` has the two lists of names that matter when the
expression is used as a relation: the names of the items of its select list,
which it is to show, and the names of the columns in its outermost clause, which
it shows unless that clause is the select list itself.
-/

namespace DistStorage

namespace Parse

open Cpp Query QueryGraph

/-- The names of a select list, and those of the outermost clause. -/
structure SelectNames where
  items : List (Bytes × ℤ)
  keys : List (Bytes × ℤ)
  deriving DecidableEq, Repr

def QueryExpression.select : QueryExpression → SelectStatement
  | .mk selectStatement _ => selectStatement

def QueryExpression.top : QueryExpression → ColumnOperation
  | .mk selectStatement [] => selectStatement.top
  | .mk _ (_ :: _) => .UNION

def QueryExpression.keys : QueryExpression → List (Option Bytes)
  | .mk selectStatement [] => selectStatement.keys
  | .mk _ (_ :: _) => []

def QueryExpression.lacksLimit : QueryExpression → Bool
  | .mk selectStatement [] => selectStatement.lacksLimit
  | .mk _ (_ :: _) => false

/-- An item is named by its alias, else by the name that its node has after
`FROM`. -/
def namedItems (names : ℤ → Option Bytes) (items : List Item) : List (Bytes × ℤ) :=
  items.filterMap fun item =>
    (item.aliasName.or (names item.node)).map fun name => (name, item.node)

/-- The names of a query expression: those of its first select list, and those
that the columns of its outermost clause have after it. -/
def selectNames (env : Environment) (x : QueryExpression) : Visit SelectNames := do
  let _ ← visitFrom env x.select.fromClause
  let s₁ ← Action.get
  let items ← visitItems env x.select.elements
  let s₂ ← Action.get
  pure
    { items := namedItems s₁.outGraph.nameOf items
      keys := (Setting.of s₂).columns x.keys }

theorem Appends.size_le {α : Type} {gap : Prop} {m : Visit α} {gives : α → List ℤ}
    (h : Appends gap [] m gives) {s t : VisitorState} {a : α} (hs : s.Sound [])
    (hm : m s = .returned a t) : s.outGraph.size ≤ t.outGraph.size := by
  rcases Nat.eq_zero_or_pos s.outGraph.size with hzero | hpos
  · omega
  · -- The last node stays a node.
    have hlast : s.outGraph.Valid (s.outGraph.size - 1 : ℤ) := ⟨by omega, by omega⟩
    have hstart : Building [(s.outGraph.size - 1 : ℤ)] s.outGraph.HasGap s :=
      ⟨⟨hs.coherent, by simpa using hlast, hs.files, hs.ctes, hs.vars⟩, Iff.rfl⟩
    have hend := ((h [(s.outGraph.size - 1 : ℤ)] _ (List.nil_subset _)).returned hstart hm).1
    have hvalid := (hend.nodes (s.outGraph.size - 1 : ℤ) (by simp)).2
    omega

theorem Appends.sound {α : Type} {gap : Prop} {m : Visit α} {gives : α → List ℤ}
    (h : Appends gap [] m gives) {s t : VisitorState} {a : α} (hs : s.Sound [])
    (hm : m s = .returned a t) : t.Sound [] :=
  (h.keeps s a t hs hm).subset (List.nil_subset _)

section From

variable {env : Environment}

theorem visitJoins_length {joins : List JoinClause} {p : List ℤ × List ℤ} {s t : VisitorState}
    (h : visitJoins env joins s = .returned p t) : p.2.length = joins.length := by
  induction joins generalizing s p with
  | nil =>
      rw [visitJoins] at h
      obtain ⟨rfl, -⟩ := Action.pure_eq_returned.mp h
      rfl
  | cons joinClause rest ih =>
      rw [visitJoins] at h
      obtain ⟨q, u, -, h⟩ := Action.bind_eq_returned.mp h
      obtain ⟨qs, v, hrest, h⟩ := Action.bind_eq_returned.mp h
      obtain ⟨rfl, rfl⟩ := Action.pure_eq_returned.mp h
      exact congrArg Nat.succ (ih hrest)

/-- There is one filter for each join. -/
theorem visitFrom_length {x : Option FromClause} {p : List ℤ × List ℤ} {s t : VisitorState}
    (h : visitFrom env x s = .returned p t) : p.2.length = (joinConditions x).length := by
  cases x with
  | none =>
      rw [visitFrom] at h
      obtain ⟨rfl, -⟩ := Action.pure_eq_returned.mp h
      rfl
  | some fromClause =>
      obtain ⟨baseTable, joins⟩ := fromClause
      rw [visitFrom, visitFromClause] at h
      obtain ⟨tableNodeId, u, -, h⟩ := Action.bind_eq_returned.mp h
      obtain ⟨⟨⟩, v, -, h⟩ := Action.bind_eq_returned.mp h
      obtain ⟨q, w, hjoins, h⟩ := Action.bind_eq_returned.mp h
      obtain ⟨rfl, rfl⟩ := Action.pure_eq_returned.mp h
      have hlength := visitJoins_length hjoins
      rw [joinConditions, List.length_map]
      exact hlength

/-- The visit of a single join ends with its condition. -/
theorem visitFrom_single {x : Option FromClause} {tableNodeIds : List ℤ} {i : ℤ}
    {expression : Expression} {s t : VisitorState} (hs : s.Sound [])
    (hconditions : joinConditions x = [expression])
    (h : visitFrom env x s = .returned (tableNodeIds, [i]) t) :
    ∃ u : VisitorState, u.Sound [] ∧ (Setting.of u).Holds t ∧
      (Setting.of u).Denotes expression.varName i := by
  rcases x with _ | ⟨baseTable, joins⟩
  · cases hconditions
  · obtain ⟨⟨relation, onExpr⟩, rfl, rfl⟩ := List.map_eq_singleton_iff.mp hconditions
    rw [visitFrom, visitFromClause] at h
    obtain ⟨tableNodeId, s₁, hbase, h⟩ := Action.bind_eq_returned.mp h
    obtain ⟨⟨⟩, s₂, henter, h⟩ := Action.bind_eq_returned.mp h
    obtain ⟨q, s₃, hjoins, h⟩ := Action.bind_eq_returned.mp h
    obtain ⟨hp, rfl⟩ := Action.pure_eq_returned.mp h
    rw [visitJoins] at hjoins
    obtain ⟨r, s₄, hjoin, hjoins⟩ := Action.bind_eq_returned.mp hjoins
    rw [visitJoins] at hjoins
    obtain ⟨qs, s₅, hnil, hjoins⟩ := Action.bind_eq_returned.mp hjoins
    obtain ⟨rfl, rfl⟩ := Action.pure_eq_returned.mp hnil
    obtain ⟨rfl, rfl⟩ := Action.pure_eq_returned.mp hjoins
    rw [visitJoinClause] at hjoin
    obtain ⟨a, s₆, hfirst, hjoin⟩ := Action.bind_eq_returned.mp hjoin
    obtain ⟨joinNodeId, s₇, hsecond, hjoin⟩ := Action.bind_eq_returned.mp hjoin
    obtain ⟨⟨⟩, s₈, henter', hjoin⟩ := Action.bind_eq_returned.mp hjoin
    obtain ⟨filter, s₉, hon, hjoin⟩ := Action.bind_eq_returned.mp hjoin
    obtain ⟨rfl, rfl⟩ := Action.pure_eq_returned.mp hjoin
    obtain rfl : filter = i := by simpa using congrArg Prod.snd hp
    have h₁ := (visitRelation_appends env baseTable).castNode.sound hs hbase
    have h₂ := (enterTable_appends tableNodeId _).sound h₁ henter
    have h₆ := (visitRelation_appends env relation).sound h₂ hfirst
    have h₇ := (visitRelation_appends env relation).castNode.sound h₆ hsecond
    have h₈ := (enterTable_appends joinNodeId _).sound h₇ henter'
    obtain ⟨holds, hdenotes⟩ := (visitExpression_after env onExpr).castNode s₈ filter _
      (Setting.holds_of s₈) hon
    exact ⟨s₈, h₈, holds, hdenotes⟩

end From

/-- The condition of a single join is a column, or has no name: no item of the
select list is the node of a condition. -/
theorem namedNodes_joinFilter {v s₁ s₂ : VisitorState} {items : List Item} {varName : Option Bytes}
    {i : ℤ} (hv : v.Sound []) (hK : (Setting.of v).Holds s₁)
    (hdenotes : (Setting.of v).Denotes varName i)
    (hvars : s₂.exprVarContext = s₁.exprVarContext)
    (hnames : s₂.outGraph.nameOf = renamed s₁.outGraph.nameOf items)
    (hvalid : s₁.outGraph.Valid i) (hcomes : ∀ item ∈ items, (Setting.of s₁).Comes item.node) :
    namedNodes s₂.outGraph.nameOf [i] = (Setting.of s₂).columns [varName] := by
  cases varName with
  | some varName =>
      have hfind : (Setting.of s₂).Denotes (some varName) i := by
        change s₂.exprVarContext.find varName = some i
        rw [hvars, hK.vars_eq]
        exact hdenotes
      exact namedNodes_eq_columns (Setting.fresh_of s₂) (.cons hfind .nil)
  | none =>
      have hnew : (v.outGraph.size : ℤ) ≤ i := hdenotes
      have hkept : renamed s₁.outGraph.nameOf items i = s₁.outGraph.nameOf i := by
        refine renamed_eq_of_forall fun item hitem hnode => ?_
        rcases hcomes item hitem with hvar | hlater
        · have hmem : item.node ∈ s₁.exprVarContext.values := hvar
          rw [hK.vars_eq] at hmem
          have hold := (hv.vars _ hmem).2
          omega
        · have hbase : (s₁.outGraph.size : ℤ) ≤ item.node := hlater
          have := hvalid.2
          omega
      refine namedNodes_cons_of_none ?_ []
      rw [hnames, hkept, hK.names_eq]
      exact (Setting.fresh_of v).names_eq_none hnew

/-- What a select statement leaves behind: a node over `kids`, with the names as
they were after the select list. -/
structure SelectEnd (x : SelectStatement) (p : List ℤ × List ℤ) (items : List Item)
    (s₁ s₂ : VisitorState) (kids : List ℤ) (n : ℤ) (t : VisitorState) : Prop where
  tops : Tops (Setting.of s₂) x.top kids n t
  kids_eq : x.top = .DF → kids = p.1 ++ items.map Item.node
  named_eq : x.top ≠ .DF → namedNodes s₂.outGraph.nameOf kids = (Setting.of s₂).columns x.keys
  absent_iff : nodeNone ∈ kids ↔ x.lacksLimit = true
  names_eq : s₂.outGraph.nameOf = renamed s₁.outGraph.nameOf items
  valid : ∀ item ∈ items, s₂.outGraph.Valid item.node
  valid_tables : ∀ i ∈ p.1, s₂.outGraph.Valid i

theorem visitSelectStatement_end {env : Environment} {x : SelectStatement} {a : Any}
    {s u : VisitorState} (hs : s.Sound []) (h : visitSelectStatement env x s = .returned a u) :
    ∃ p s₁ items s₂ kids n t, visitFrom env x.fromClause (enterSelect s) = .returned p s₁ ∧
      visitItems env x.elements s₁ = .returned items s₂ ∧
      SelectEnd x p items s₁ s₂ kids n t ∧ s.outGraph.size ≤ s₂.outGraph.size ∧
      a = some n ∧ u = leaveSelect s t := by
  obtain ⟨p, s₁, items, s₂, n, t, hfrom, hitems, hclauses, rfl, rfl⟩ :=
    visitSelectStatement_eq_returned h
  have hentered := (enterSelect_sound [] s hs).1
  have h₁ : s₁.Sound ((p.1 ++ p.2) ++ []) :=
    (visitFrom_appends env x.fromClause).keeps _ _ _ hentered hfrom
  have h₂ : s₂.Sound (items.map Item.node ++ ((p.1 ++ p.2) ++ [])) :=
    (visitItems_appends env x.elements).of_nil.keeps _ _ _ h₁ hitems
  have hsize : (enterSelect s).outGraph.size ≤ s₁.outGraph.size :=
    (visitFrom_appends env x.fromClause).size_le hentered hfrom
  have hsize' : s₁.outGraph.size ≤ s₂.outGraph.size :=
    (visitItems_appends env x.elements).size_le (h₁.subset (List.nil_subset _)) hitems
  obtain ⟨holds, hcomes⟩ := visitItems_after (h₁.subset (List.nil_subset _))
    (Setting.holds_of s₁) hitems
  have hvars : s₂.exprVarContext = s₁.exprVarContext := holds.vars_eq
  have hnames : s₂.outGraph.nameOf = renamed s₁.outGraph.nameOf items := holds.names_eq
  have hgiven : (Setting.of s₂).Given (joinConditions x.fromClause)
      (p.1 ++ items.map Item.node) p.2 := by
    refine ⟨Setting.fresh_of s₂, fun i hi => ne_nodeNone_of_valid (h₂.vars i hi), ?_,
      visitFrom_length hfrom, ?_⟩
    · intro i hi
      exact ne_nodeNone_of_valid (h₂.nodes i (by grind))
    · rintro i expression hi hconditions
      obtain ⟨tableNodeIds, joinFilters⟩ := p
      obtain rfl : joinFilters = [i] := hi
      obtain ⟨v, hv, hK, hdenotes⟩ := visitFrom_single hentered hconditions hfrom
      exact namedNodes_joinFilter hv hK hdenotes hvars hnames (h₁.nodes i (by simp)) hcomes
  obtain ⟨kids, htops, hdf, hkeys, habsent⟩ :=
    visitClauses_tops h₂.coherent.lengths (Setting.holds_of s₂) hgiven hclauses
  refine ⟨p, s₁, items, s₂, kids, n, t, hfrom, hitems, ⟨htops, hdf, hkeys, habsent, hnames, ?_, ?_⟩,
    hsize.trans hsize', rfl, rfl⟩
  · exact fun item hitem => h₂.nodes _ (List.mem_append_left _ (List.mem_map_of_mem hitem))
  · exact fun i hi => h₂.nodes i (by grind)

theorem castNode_eq_returned {m : Visit Any} {i : ℤ} {s t : VisitorState} :
    castNode m s = .returned i t ↔ m s = .returned (some i) t := by
  rw [castNode, Action.bind_eq_returned]
  constructor
  · rintro ⟨a, u, hm, hcast⟩
    cases a with
    | none => cases hcast
    | some j =>
        obtain ⟨rfl, rfl⟩ := Action.pure_eq_returned.mp hcast
        exact hm
  · exact fun hm => ⟨some i, t, hm, rfl⟩

/-- The further select statements of a union put new nodes below it. -/
theorem visitSelectStatements_new {env : Environment} {l : List SelectStatement} {ids : List ℤ}
    {s t : VisitorState} (hs : s.Sound []) (h : visitSelectStatements env l s = .returned ids t) :
    (∀ i ∈ ids, (s.outGraph.size : ℤ) ≤ i) ∧ ids.length = l.length ∧
      t.exprVarContext = s.exprVarContext := by
  induction l generalizing s ids with
  | nil =>
      rw [visitSelectStatements] at h
      obtain ⟨rfl, rfl⟩ := Action.pure_eq_returned.mp h
      exact ⟨by simp, rfl, rfl⟩
  | cons x rest ih =>
      rw [visitSelectStatements] at h
      obtain ⟨i, u, hfirst, h⟩ := Action.bind_eq_returned.mp h
      obtain ⟨others, v, hrest, h⟩ := Action.bind_eq_returned.mp h
      obtain ⟨rfl, rfl⟩ := Action.pure_eq_returned.mp h
      have hu := (visitSelectStatement_appends env x).castNode.sound hs hfirst
      have hsize := (visitSelectStatement_appends env x).castNode.size_le hs hfirst
      obtain ⟨p, s₁, items, s₂, kids, n, w, -, -, hend, hle, hi, rfl⟩ :=
        visitSelectStatement_end hs (castNode_eq_returned.mp hfirst)
      obtain rfl := Option.some.inj hi
      obtain ⟨hothers, hlength, hvars⟩ := ih hu hrest
      refine ⟨List.forall_mem_cons.mpr ⟨?_, ?_⟩, congrArg Nat.succ hlength, hvars⟩
      · have hnew : (s₂.outGraph.size : ℤ) ≤ i := hend.tops.new
        omega
      · intro j hj
        have := hothers j hj
        omega

/-- What a query expression leaves behind: a node that shows the names of the
select list or those of its outermost clause. -/
structure QueryEnd (x : QueryExpression) (p : List ℤ × List ℤ) (items : List Item)
    (s s₁ s₂ : VisitorState) (n : ℤ) (u : VisitorState) : Prop where
  op_eq : (u.outGraph.operation n).op = x.top
  kids_eq : x.top = .DF → u.outGraph.children n = p.1 ++ items.map Item.node ∧
    u.outGraph.nameOf = s₂.outGraph.nameOf
  shown_iff : x.top ≠ .DF → ∀ name i, s₂.outGraph.Valid i →
    (lastNamed name (namedNodes u.outGraph.nameOf (u.outGraph.children n)) = some i ↔
      lastNamed name ((Setting.of s₂).columns x.keys) = some i)
  absent_iff : nodeNone ∈ u.outGraph.children n ↔ x.lacksLimit = true
  names_eq : s₂.outGraph.nameOf = renamed s₁.outGraph.nameOf items
  valid : ∀ item ∈ items, s₂.outGraph.Valid item.node
  vars_eq : u.exprVarContext = s.exprVarContext

theorem visitQueryExpression_end {env : Environment} {x : QueryExpression} {a : Any}
    {s u : VisitorState} (hs : s.Sound []) (h : visitQueryExpression env x s = .returned a u) :
    ∃ p s₁ items s₂ n, visitFrom env x.select.fromClause (enterSelect s) = .returned p s₁ ∧
      visitItems env x.select.elements s₁ = .returned items s₂ ∧ a = some n ∧
      QueryEnd x p items s s₁ s₂ n u := by
  obtain ⟨select, rest⟩ := x
  rw [visitQueryExpression] at h
  obtain ⟨i, v, hfirst, h⟩ := Action.bind_eq_returned.mp h
  obtain ⟨ids, w, hrest, h⟩ := Action.bind_eq_returned.mp h
  obtain ⟨n, w', hunion, h⟩ := Action.bind_eq_returned.mp h
  obtain ⟨rfl, rfl⟩ := Action.pure_eq_returned.mp h
  have hv := (visitSelectStatement_appends env select).castNode.sound hs hfirst
  obtain ⟨p, s₁, items, s₂, kids, m, t, hfrom, hitems, hend, -, hi, rfl⟩ :=
    visitSelectStatement_end hs (castNode_eq_returned.mp hfirst)
  obtain rfl := Option.some.inj hi
  refine ⟨p, s₁, items, s₂, n, hfrom, hitems, rfl, ?_⟩
  obtain ⟨hnew, hlength, hvars⟩ := visitSelectStatements_new hv hrest
  cases rest with
  | nil =>
      obtain rfl := List.eq_nil_of_length_eq_zero hlength
      rw [visitSelectStatements] at hrest
      obtain ⟨-, rfl⟩ := Action.pure_eq_returned.mp hrest
      obtain ⟨rfl, rfl⟩ := Action.pure_eq_returned.mp hunion
      have hnames : t.outGraph.nameOf = s₂.outGraph.nameOf := hend.tops.holds.names_eq
      refine ⟨hend.tops.op_eq, fun hdf => ⟨?_, hnames⟩, fun hdf name j _ => ?_, ?_, hend.names_eq,
        hend.valid, rfl⟩
      · exact hend.tops.children_eq.trans (hend.kids_eq hdf)
      · change lastNamed name (namedNodes t.outGraph.nameOf (t.outGraph.children i)) = some j ↔ _
        rw [hend.tops.children_eq, hnames, hend.named_eq hdf]
        exact Iff.rfl
      · exact (hend.tops.children_eq ▸ hend.absent_iff :)
  | cons other rest =>
      obtain ⟨j, others, rfl⟩ := List.exists_cons_of_ne_nil
        (List.ne_nil_of_length_pos (by rw [hlength]; exact Nat.succ_pos _))
      have hw := (visitSelectStatements_appends env (other :: rest)).sound hv hrest
      have htops := build_tops hw.coherent.lengths (Setting.holds_of w) hunion
      have hsize : (s₂.outGraph.size : ℤ) ≤ t.outGraph.size := by
        exact_mod_cast hend.tops.holds.base_le
      have hkids : ∀ k ∈ i :: j :: others, (s₂.outGraph.size : ℤ) ≤ k := by
        refine List.forall_mem_cons.mpr ⟨hend.tops.new, fun k hk => ?_⟩
        have hlater : (t.outGraph.size : ℤ) ≤ k := hnew k hk
        omega
      refine ⟨htops.op_eq, fun hdf => ?_, fun _ name k hk => ?_, ?_, hend.names_eq, hend.valid,
        htops.holds.vars_eq.trans hvars⟩
      · cases hdf
      · -- The parts of a union are newer than the items of its first select list.
        refine iff_of_false (fun hshown => ?_) (fun hkey => ?_)
        · have hmem := (mem_namedNodes.mp (mem_of_lastNamed hshown)).1
          rw [htops.children_eq] at hmem
          have := hkids k hmem
          have := hk.2
          omega
        · exact absurd (mem_of_lastNamed hkey) List.not_mem_nil
      · rw [htops.children_eq]
        exact iff_of_false (fun hmem => ne_nodeNone_of_le (hkids nodeNone hmem) rfl)
          Bool.false_ne_true

end Parse

end DistStorage
