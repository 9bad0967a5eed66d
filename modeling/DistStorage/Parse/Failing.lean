import DistStorage.Parse.Clauses

/-!
# Reasoning about the exceptions of a visit

The visitor reports what is wrong with a query by a `SqlCompileError`. A visit
fails if it ends in another exception or in undefined behaviour.
`FailsWhen need m p` is the specification of an action: from a sound state with
the nodes `need` in hand it fails exactly in the states of `p`.

`OrAfter p m q` is the condition of a sequence: `p` holds before the action `m`,
or `m` returns and `q` holds of what it returns. Many actions of the visitor
never fail.
-/

namespace DistStorage

namespace Parse

open Cpp Query QueryGraph

/-- The exception that the visitor reports errors with. -/
def Exception.Reported : Exception → Prop
  | .sqlCompileError _ => True
  | _ => False

/-- A visit fails: nothing is returned and no error is reported. -/
abbrev Fails {α : Type} (m : Visit α) (s : VisitorState) : Prop :=
  Action.Fails Exception.Reported m s

/-- The condition of a sequence of two actions. -/
def OrAfter {α : Type} (p : VisitorState → Prop) (m : Visit α) (q : α → VisitorState → Prop)
    (s : VisitorState) : Prop :=
  p s ∨ Action.After m q s

/-- The condition of a cast of what is returned, which may be known to be no
node. -/
def AsNode (p : VisitorState → Prop) (m : Visit Any) (nodeless : Bool) : VisitorState → Prop :=
  OrAfter p m fun _ _ => nodeless = true

/-- The specification of an action by the states in which it fails. -/
def FailsWhen {α : Type} (need : List ℤ) (m : Visit α) (p : VisitorState → Prop) : Prop :=
  ∀ s, s.Sound need → (Fails m s ↔ p s)

def NeverFails {α : Type} (need : List ℤ) (m : Visit α) : Prop :=
  ∀ s, s.Sound need → ¬Fails m s

def Safe {α : Type} (m : Visit α) : Prop := ∀ s, ¬Fails m s

/-- The nodes in hand after an action returns. -/
def Keeps {α : Type} (need : List ℤ) (m : Visit α) (gives : α → List ℤ) : Prop :=
  ∀ s a t, s.Sound need → m s = .returned a t → t.Sound (gives a ++ need)

theorem Appends.keeps {α : Type} {gap : Prop} {need : List ℤ} {m : Visit α} {gives : α → List ℤ}
    (h : Appends gap need m gives) : Keeps need m gives := by
  intro s a t hs hm
  have hstart : Building need s.outGraph.HasGap s := ⟨hs, Iff.rfl⟩
  exact ((h need _ (List.Subset.refl need)).returned hstart hm).1

theorem Visits.keeps {m : Visit Any} (h : Visits m) : Keeps [] m fun _ => [] := by
  intro s a t hs hm
  have hstart : Building [] s.outGraph.HasGap s := ⟨hs, Iff.rfl⟩
  exact ((h [] _).returned hstart hm).1

/-- A visit that returns a node, or one that returns nothing. -/
def Answers (node : Bool) (m : Visit Any) : Prop :=
  ∀ s a t, m s = .returned a t → a.isSome = node

namespace Answers

variable {α : Type} {node : Bool}

protected theorem pure (a : Any) : Answers a.isSome (pure a) := by
  intro s b t h
  obtain ⟨rfl, -⟩ := Action.pure_eq_returned.mp h
  rfl

protected theorem bind {m : Visit α} {f : α → Visit Any} (hf : ∀ a, Answers node (f a)) :
    Answers node (m >>= f) := by
  intro s b t h
  obtain ⟨a, u, -, h⟩ := Action.bind_eq_returned.mp h
  exact hf a u b t h

theorem throw (e : Exception) : Answers node (Action.throw e) := by
  intro s a t h
  cases h

theorem get_bind {f : VisitorState → Visit Any} (h : ∀ s, Answers node (f s)) :
    Answers node (Action.get >>= f) :=
  Answers.bind h

protected theorem toAny (m : Visit ℤ) : Answers true (toAny m) :=
  Answers.bind fun i => Answers.pure (some i)

end Answers

section Rules

variable {α β : Type} {need : List ℤ} {m : Visit α} {f : α → Visit β} {gives : α → List ℤ}
  {p : VisitorState → Prop} {q : α → VisitorState → Prop}

namespace Safe

theorem neverFails (h : Safe m) : NeverFails need m :=
  fun s _ => h s

protected theorem pure (a : α) : Safe (pure a) :=
  Action.fails_pure _ a

theorem report (what : Bytes) : Safe (Action.throw (.sqlCompileError what) : Visit α) :=
  fun _ h => h trivial

protected theorem build (f : QueryGraph → ℤ × QueryGraph) : Safe (build f) :=
  fun _ => id

theorem modify (φ : VisitorState → VisitorState) : Safe (Action.modify φ) :=
  fun _ => id

protected theorem bind (hm : Safe m) (hf : ∀ a, Safe (f a)) : Safe (m >>= f) := by
  intro s h
  rcases Action.fails_bind.mp h with h | ⟨a, t, -, h⟩
  · exact hm s h
  · exact hf a t h

theorem get_bind {f : VisitorState → Visit β} (h : ∀ s, Safe (f s)) :
    Safe (Action.get >>= f) :=
  fun s => h s s

protected theorem toAny {m : Visit ℤ} (h : Safe m) : Safe (toAny m) :=
  h.bind fun i => Safe.pure (some i)

end Safe

namespace NeverFails

theorem failsWhen (h : NeverFails need m) : FailsWhen need m fun _ => False :=
  fun s hs => iff_false_intro (h s hs)

theorem seq (hm : NeverFails need m) (hf : ∀ a, Safe (f a)) : NeverFails need (m >>= f) := by
  intro s hs h
  rcases Action.fails_bind.mp h with h | ⟨a, t, -, h⟩
  · exact hm s hs h
  · exact hf a t h

theorem get_bind {f : VisitorState → Visit β}
    (h : ∀ s : VisitorState, s.Sound need → ¬Fails (f s) s) : NeverFails need (Action.get >>= f) :=
  fun s hs hfails => h s hs hfails

end NeverFails

namespace FailsWhen

protected theorem bind (hm : FailsWhen need m p) (hkeeps : Keeps need m gives)
    (hf : ∀ a, FailsWhen (gives a ++ need) (f a) (q a)) :
    FailsWhen need (m >>= f) (OrAfter p m q) := by
  intro s hs
  refine Action.fails_bind.trans (or_congr (hm s hs) ?_)
  constructor
  · exact fun h => h.imp fun a t hms hfails => (hf a t (hkeeps s a t hs hms)).mp hfails
  · exact fun h => h.imp fun a t hms hq => (hf a t (hkeeps s a t hs hms)).mpr hq

theorem finish (hm : FailsWhen need m p) (hkeeps : Keeps need m gives)
    (hf : ∀ a, NeverFails (gives a ++ need) (f a)) : FailsWhen need (m >>= f) p := by
  intro s hs
  refine Action.fails_bind.trans ((or_iff_left ?_).trans (hm s hs))
  rintro ⟨a, t, hms, hfails⟩
  exact hf a t (hkeeps s a t hs hms) hfails

theorem start (hm : NeverFails need m) (hkeeps : Keeps need m gives)
    (hf : ∀ a, FailsWhen (gives a ++ need) (f a) (q a)) :
    FailsWhen need (m >>= f) (Action.After m q) := by
  intro s hs
  refine (hm.failsWhen.bind hkeeps hf s hs).trans (or_iff_right id)

theorem last (hm : FailsWhen need m p) (hf : ∀ a, Safe (f a)) : FailsWhen need (m >>= f) p := by
  intro s hs
  refine Action.fails_bind.trans ((or_iff_left ?_).trans (hm s hs))
  rintro ⟨a, t, -, hfails⟩
  exact hf a t hfails

protected theorem toAny {m : Visit ℤ} (h : FailsWhen need m p) : FailsWhen need (toAny m) p :=
  h.last fun i => Safe.pure (some i)

theorem weaken {need' : List ℤ} (h : FailsWhen need m p) (hsub : need ⊆ need') :
    FailsWhen need' m p :=
  fun s hs => h s (hs.subset hsub)

theorem of_nil (h : FailsWhen [] m p) : FailsWhen need m p :=
  h.weaken (List.nil_subset need)

protected theorem castNode {m : Visit Any} {nodeless : Bool} (h : FailsWhen need m p)
    (hanswers : Answers (!nodeless) m) :
    FailsWhen need (castNode m) (AsNode p m nodeless) := by
  intro s hs
  refine Action.fails_bind.trans (or_congr (h s hs) ?_)
  constructor
  · intro hafter
    refine hafter.imp fun a t hms hfails => ?_
    have hsome := hanswers s a t hms
    cases a with
    | none => simpa using hsome
    | some i => exact (Action.fails_pure _ _ _ hfails).elim
  · intro hafter
    refine hafter.imp fun a t hms hnodeless => ?_
    have hsome := hanswers s a t hms
    cases a with
    | none => exact id
    | some i => simp [hnodeless] at hsome

theorem castNode_of_node {m : Visit Any} (h : FailsWhen need m p) (hanswers : Answers true m) :
    FailsWhen need (Parse.castNode m) p := by
  have hcast : FailsWhen need (Parse.castNode m) (AsNode p m false) := h.castNode hanswers
  intro s hs
  refine (hcast s hs).trans (or_iff_left ?_)
  rintro ⟨a, t, -, hfalse⟩
  exact absurd hfalse Bool.false_ne_true

protected theorem inScope {enter : VisitorState → VisitorState}
    {leave : VisitorState → VisitorState → VisitorState} (h : FailsWhen [] m p)
    (henter : ∀ ids s, s.Sound ids → (enter s).Sound ids ∧ (enter s).outGraph = s.outGraph) :
    FailsWhen [] (inScope enter leave m) fun s => p (enter s) := by
  intro s hs
  refine Iff.trans ?_ (h (enter s) (henter [] s hs).1)
  have hbody : ∀ old, Fails (m.tryCatch fun e => do
      Action.modify (leave old)
      Action.throw e) (enter s) ↔ Fails m (enter s) :=
    fun old => Action.fails_tryCatch fun e t => Iff.rfl
  refine (Action.fails_bind (m := m.tryCatch _)).trans ((or_iff_left ?_).trans (hbody s))
  rintro ⟨a, t, -, hfails⟩
  exact hfails

end FailsWhen

end Rules

theorem fails_ofOption_bind {α β : Type} {o : Option α} {f : α → Visit β} {s : VisitorState}
    (hf : ∀ a, Safe (f a)) : Fails (Action.ofOption o >>= f) s ↔ o = none := by
  refine Action.fails_bind.trans ((or_iff_left ?_).trans Action.fails_ofOption)
  rintro ⟨a, t, -, hfails⟩
  exact hf a t hfails

/-- A relation has the mark of an absent node among its children. -/
def HasAbsentChild (tableNodeId : ℤ) (s : VisitorState) : Prop :=
  nodeNone ∈ s.outGraph.children tableNodeId

theorem index_isSome_of_valid {g : QueryGraph} {i : ℤ} (h : g.Valid i) :
    ∃ o ∈ g.operations, Cpp.index g.operations i = some o := by
  obtain ⟨o, ho⟩ := Option.isSome_iff_exists.mp ((Cpp.index_isSome_iff g.operations i).mpr h)
  exact ⟨o, Cpp.mem_of_index ho, ho⟩

theorem index_names {g : QueryGraph} {o : Operation} (h : g.NameInRange o)
    (hname : o.name ≠ nodeNone) : ∃ name, Cpp.index g.names o.name = some name :=
  Option.isSome_iff_exists.mp ((Cpp.index_isSome_iff g.names o.name).mpr (h.resolve_left hname))

theorem getNodeName_isSome {g : QueryGraph} (hg : g.Coherent) {i : ℤ} (h : g.Valid i) :
    ∃ name, g.getNodeName i = some name := by
  obtain ⟨o, hmem, ho⟩ := index_isSome_of_valid h
  rw [getNodeName, ho, Option.bind_some]
  split_ifs with hname
  · exact ⟨[], rfl⟩
  · exact index_names (hg.names o hmem) hname

theorem setNodeName_isSome {g : QueryGraph} {i : ℤ} (h : g.Valid i) (name : Bytes) :
    ∃ g', g.setNodeName i name = some g' := by
  obtain ⟨o, -, ho⟩ := index_isSome_of_valid h
  exact ⟨_, congrArg (Option.map _) ho⟩

theorem findOrInsertTable_of_known (env : Environment) {name : Bytes} {i : ℤ} {s : VisitorState}
    (hi : s.outGraph.Valid i)
    (hfind : findIdent name [s.fileTableContext, s.withTableContext] = i) :
    findOrInsertTable env name s =
      if isTableOperation (s.outGraph.operation i).op then .returned i s
      else .thrown (.sqlCompileError (bytes "Invalid table name: " ++ name)) s := by
  obtain ⟨o, -, ho⟩ := index_isSome_of_valid hi
  have hop : s.outGraph.operation i = o := by rw [OpGraph.operation, ho, Option.getD_some]
  subst hfind
  change (if findIdent name [s.fileTableContext, s.withTableContext] ≠ nodeNone then
    (Action.ofOption (Cpp.index s.outGraph.operations _) >>= _ : Visit ℤ) else _) s = _
  rw [if_pos (ne_nodeNone_of_valid hi), ho, hop]
  change (if isTableOperation o.op then pure _ else Action.throw _ : Visit ℤ) s = _
  split_ifs <;> rfl

/-- The columns of a table can be loaded unless one is absent. -/
theorem loadColumnNames_eq_none_iff {g : QueryGraph} (hg : g.Coherent) (tableName : Bytes)
    {cols : List ℤ} (hcols : ∀ c ∈ cols, c = nodeNone ∨ g.Valid c) (ctx : Context) :
    g.loadColumnNames tableName cols ctx = none ↔ nodeNone ∈ cols := by
  induction cols generalizing ctx with
  | nil => simp [loadColumnNames]
  | cons col rest ih =>
      have hrest := fun c hc => hcols c (List.mem_cons_of_mem col hc)
      rcases hcols col List.mem_cons_self with rfl | hcol
      · have hindex : Cpp.index g.operations nodeNone = none := rfl
        simp [loadColumnNames, hindex]
      · obtain ⟨o, hmem, ho⟩ := index_isSome_of_valid hcol
        have hne : nodeNone ≠ col := (ne_nodeNone_of_valid hcol).symm
        rw [List.mem_cons, or_iff_right hne, loadColumnNames, ho, Option.bind_some]
        split_ifs with hname htable
        · exact ih hrest ctx
        · obtain ⟨name, hindex⟩ := index_names (hg.names o hmem) hname
          rw [hindex, Option.bind_some]
          exact ih hrest _
        · obtain ⟨name, hindex⟩ := index_names (hg.names o hmem) hname
          rw [hindex, Option.bind_some]
          exact ih hrest _

theorem loadTableNames_eq_none_iff {g : QueryGraph} (hg : g.Coherent) {i : ℤ} (h : g.Valid i)
    (tableName : Bytes) (ctx : Context) :
    loadTableNames ctx g i tableName = none ↔ nodeNone ∈ g.children i := by
  have hindex : (Cpp.index g.graphMapping i).isSome = true := by
    rw [Cpp.index_isSome_iff, hg.lengths]
    exact h
  obtain ⟨cols, hcols⟩ := Option.isSome_iff_exists.mp hindex
  have hchildren : g.children i = cols := by rw [OpGraph.children, hcols, Option.getD_some]
  rw [loadTableNames, hcols, Option.bind_some, hchildren]
  refine loadColumnNames_eq_none_iff hg tableName (fun c hc => ?_) ctx
  exact (hg.child (hchildren ▸ hc)).2.imp_right And.left

theorem setName_neverFails {need : List ℤ} {nodeId : ℤ} (h : nodeId ∈ need) (name : Bytes) :
    NeverFails need (setName nodeId name) := by
  refine NeverFails.get_bind fun s hs => ?_
  obtain ⟨g', hg'⟩ := setNodeName_isSome (hs.nodes nodeId h) name
  rw [hg']
  exact id

theorem nameRelation_neverFails {need : List ℤ} {tableNodeId : ℤ} (h : tableNodeId ∈ need)
    (aliasName : Option Bytes) : NeverFails need (nameRelation tableNodeId aliasName) := by
  refine NeverFails.get_bind fun s hs => ?_
  obtain ⟨exprName, hname⟩ := getNodeName_isSome hs.coherent (hs.nodes tableNodeId h)
  have hrest : ¬Fails (do
      if exprName = [] ∧ aliasName.getD [] ≠ [] then setName tableNodeId (aliasName.getD [])
      pure (some tableNodeId) : Visit Any) s := by
    split_ifs
    · exact (setName_neverFails h _).seq (fun _ => Safe.pure _) s hs
    · exact Safe.pure _ s
  rw [hname]
  exact hrest

theorem enterTable_failsWhen {need : List ℤ} {tableNodeId : ℤ} (h : tableNodeId ∈ need)
    (aliasName : Option Bytes) :
    FailsWhen need (enterTable tableNodeId aliasName) (HasAbsentChild tableNodeId) := by
  intro s hs
  obtain ⟨name, hname⟩ := getNodeName_isSome hs.coherent (hs.nodes tableNodeId h)
  obtain ⟨tableAlias, halias⟩ : ∃ tableAlias,
      aliasName.or (s.outGraph.getNodeName tableNodeId) = some tableAlias := by
    cases aliasName with
    | none => exact ⟨name, hname⟩
    | some aliasName => exact ⟨aliasName, rfl⟩
  have hload := loadTableNames_eq_none_iff hs.coherent (hs.nodes tableNodeId h) tableAlias
    s.exprVarContext
  have hrest : ∀ exprVarContext : Context, Safe (do
      Action.modify fun s : VisitorState => { s with exprVarContext := exprVarContext }
      if tableAlias ≠ [] then
        Action.modify fun s =>
          { s with exprTableContext := s.exprTableContext.insert tableAlias tableNodeId }) := by
    intro exprVarContext
    split_ifs
    · exact (Safe.modify _).bind fun _ => Safe.modify _
    · exact (Safe.modify _).bind fun _ => Safe.pure _
  have hrun := fails_ofOption_bind (s := s) hrest
    (o := loadTableNames s.exprVarContext s.outGraph tableNodeId tableAlias)
  refine Iff.trans ?_ (hrun.trans hload)
  change Fails (Action.ofOption (aliasName.or (s.outGraph.getNodeName tableNodeId)) >>= _) s ↔ _
  rw [halias]
  exact Iff.rfl

theorem appendColumns_safe (columns : List Proto.ColumnSchema) : Safe (appendColumns columns) := by
  induction columns with
  | nil => exact Safe.pure []
  | cons col rest ih => exact (Safe.build _).bind fun _ => ih.bind fun _ => Safe.pure _

theorem findOrInsertTable_neverFails {need : List ℤ} (env : Environment) (name : Bytes) :
    NeverFails need (findOrInsertTable env name) := by
  refine NeverFails.get_bind fun s hs => ?_
  dsimp only
  split_ifs with hfound
  · obtain ⟨m, hm, hmem⟩ := findIdent_mem hfound
    have hvalid : s.outGraph.Valid (findIdent name [s.fileTableContext, s.withTableContext]) := by
      rcases List.mem_pair.mp hm with rfl | rfl
      · exact hs.files _ hmem
      · exact hs.ctes _ hmem
    obtain ⟨o, -, ho⟩ := index_isSome_of_valid hvalid
    have hfind : Safe (if isTableOperation o.op then
        pure (findIdent name [s.fileTableContext, s.withTableContext])
      else Action.throw (.sqlCompileError (bytes "Invalid table name: " ++ name))) := by
      split_ifs
      · exact Safe.pure _
      · exact Safe.report _
    rw [ho]
    exact hfind s
  · split
    · rename_i schema _
      have hinsert : Safe (insertTableColumnNodes schema) :=
        (appendColumns_safe schema.columns).bind fun _ => Safe.build _
      exact hinsert.bind (fun _ => (Safe.modify _).bind fun _ => Safe.pure _) s
    · exact Safe.report _ s

theorem appendOperation_safe (op : Bytes) (nodeArgs : List ℤ) :
    Safe (appendOperation op nodeArgs) := by
  unfold appendOperation
  split
  · exact Safe.build _
  · exact Safe.report _

theorem appendComparison_safe (op : CmpOp) (l r : ℤ) : Safe (appendComparison op l r) := by
  have hlookup : (opMap.lookup op.text).isSome = true := by
    cases op <;> decide
  unfold appendComparison
  split
  · exact Safe.build _
  · rename_i hnone
    simp [hnone] at hlookup

theorem appendUnlessSingle_safe (op : ColumnOperation) (nodeIds : List ℤ) :
    Safe (appendUnlessSingle op nodeIds) := by
  unfold appendUnlessSingle
  split
  · exact Safe.pure _
  · exact Safe.build _

theorem appendBetween_safe (notOp : Bool) (lower middle upper : ℤ) :
    Safe (appendBetween notOp lower middle upper) :=
  (Safe.build _).bind fun _ => (Safe.build _).bind fun _ => Safe.build _

theorem appendFilter_safe (dfNodeId : ℤ) (filters : List ℤ) :
    Safe (appendFilter dfNodeId filters) := by
  unfold appendFilter
  split
  · exact Safe.pure _
  · exact Safe.build _
  · exact (Safe.build _).bind fun _ => Safe.build _

theorem appendKeys_safe (op : ColumnOperation) (dfNodeId : ℤ) (keyNodeIds : List ℤ) :
    Safe (appendKeys op dfNodeId keyNodeIds) := by
  unfold appendKeys
  split_ifs
  · exact Safe.pure _
  · exact Safe.build _

theorem appendRange_safe (dfNodeId offsetNodeId limitNodeId : ℤ) :
    Safe (appendRange dfNodeId offsetNodeId limitNodeId) := by
  unfold appendRange
  split_ifs
  · exact (Safe.build _).bind fun _ => (Safe.build _).bind fun _ => Safe.build _
  · exact (Safe.pure _).bind fun _ => (Safe.build _).bind fun _ => Safe.build _
  · exact (Safe.build _).bind fun _ => (Safe.pure _).bind fun _ => Safe.build _
  · exact (Safe.pure _).bind fun _ => (Safe.pure _).bind fun _ => Safe.build _
  · exact Safe.pure _

theorem constructSelect_safe (tableNodeIds columnNodeIds filters groupNodeIds orderNodeIds : List ℤ)
    (offsetNodeId limitNodeId : ℤ) :
    Safe (constructSelect tableNodeIds columnNodeIds filters groupNodeIds orderNodeIds
      offsetNodeId limitNodeId) := by
  refine (Safe.build _).bind fun _ => (appendFilter_safe _ _).bind fun _ => ?_
  refine (appendKeys_safe _ _ _).bind fun _ => (appendKeys_safe _ _ _).bind fun _ => ?_
  exact appendRange_safe _ _ _

theorem visitColumnExpr_safe (tableName : Option Bytes) (columnName : Bytes) :
    Safe (visitColumnExpr tableName columnName) := by
  refine Safe.get_bind fun s => ?_
  dsimp only
  split_ifs
  · exact Safe.report _
  · exact Safe.pure _

/-- A literal that the C++ library cannot read. A string token always has its
quotes. -/
def Literal.Unreadable (env : Environment) : Literal → Prop
  | .string token => token = []
  | .int minus token => ∃ e, stoll ((if minus then bytes "-" else []) ++ token) = .error e
  | .float minus token =>
      ∃ e, env.stod ((if minus then bytes "-" else []) ++ token) = .error e ∧ ¬e.Reported
  | .nullKw => False
  | .trueKw => False
  | .falseKw => False

/-- Reading a text and going on with actions that never fail. -/
theorem FailsWhen.ofExcept_bind {α : Type} {need : List ℤ} {o : Except Exception α}
    {f : α → Visit Any} (hf : ∀ a, Safe (f a)) :
    FailsWhen need (ofExcept o >>= f) fun _ => ∃ e, o = .error e ∧ ¬e.Reported := by
  intro s _
  cases o with
  | ok a => exact iff_of_false (hf a s) (by simp)
  | error e =>
      have hthrow : Fails (ofExcept (.error e) >>= f) s ↔ ¬e.Reported := Iff.rfl
      simpa using hthrow

theorem not_reported_of_stoll {text : Bytes} {e : Exception} (h : stoll text = .error e) :
    ¬e.Reported := by
  simp only [stoll] at h
  split_ifs at h <;> cases h <;> exact id

theorem substr_error_iff {token : Bytes} {count : ℕ} :
    (∃ e, substr token 1 count = .error e ∧ ¬e.Reported) ↔ token = [] := by
  cases token with
  | nil => exact iff_of_true ⟨.outOfRange, rfl, id⟩ rfl
  | cons b rest => simp [substr]

theorem visitLiteralExpr_failsWhen {need : List ℤ} (env : Environment) (literal : Literal) :
    FailsWhen need (visitLiteralExpr env literal) fun _ => literal.Unreadable env := by
  cases literal with
  | string token =>
      intro s hs
      refine (FailsWhen.ofExcept_bind (fun _ => ?_) s hs).trans substr_error_iff
      exact (Safe.build _).toAny
  | int minus token =>
      intro s hs
      refine (FailsWhen.ofExcept_bind (fun _ => (Safe.build _).toAny) s hs).trans ?_
      exact exists_congr fun e => and_iff_left_of_imp not_reported_of_stoll
  | float minus token => exact FailsWhen.ofExcept_bind fun _ => (Safe.build _).toAny
  | nullKw => exact (Safe.build _).toAny.neverFails.failsWhen
  | trueKw => exact (Safe.build _).toAny.neverFails.failsWhen
  | falseKw => exact (Safe.build _).toAny.neverFails.failsWhen

end Parse

end DistStorage
