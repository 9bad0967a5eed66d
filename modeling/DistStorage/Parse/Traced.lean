import DistStorage.Parse.Clauses
import DistStorage.Parse.Steps

/-!
# Following the events of a visit

A relation between states along events that composes and that every step of the
visitor meets holds along the events of every visit, whether the visit returns
or throws: this is the rule by which what a visit leaves is read off its events.
`Traced` has the steps, and with them what holds of the events up to undefined
behaviour. Between the events only nodes without a name are appended, none of
which is a table operation.
-/

namespace DistStorage

namespace Parse

open Cpp Cpp.Action Query QueryGraph

/-- Nodes were appended, and nothing else has changed. -/
def Grown (p : Operation → Prop) (s : VisitorState) (_ : List Event) (t : VisitorState) : Prop :=
  ∃ new g, AddsNodes s.outGraph new g ∧ (∀ node ∈ new, p node.1) ∧ t = { s with outGraph := g }

/-- The visit of what has the origin returned the node. -/
inductive Gives (env : Environment) : Origin → VisitorState → ℤ → VisitorState → Prop
  | expression {x : Expression} {s t : VisitorState} {i : ℤ}
      (h : castNode (visitExpression env x) s = .returned i t) : Gives env x.origin s i t
  | table {name : Bytes} {s t : VisitorState} {i : ℤ}
      (h : findOrInsertTable env name s = .returned i t) : Gives env (.table name) s i t
  | subquery {x : QueryExpression} {s t : VisitorState} {i : ℤ}
      (h : castNode (visitQueryExpression env x) s = .returned i t) : Gives env .made s i t

/-- The steps of a visit. A relation is entered after its visit, and a node is
named after the visit that gives it. -/
structure Traced (env : Environment) (T : VisitorState → List Event → VisitorState → Prop)
    (P : VisitorState → List Event → Prop) : Prop extends Compositional T P where
  grow : ∀ s es t, Grown Operation.Plain s es t → T s [] t
  construct : ∀ s node new g, AddsNodes s.outGraph (node :: new) g → node.1.op = .DF →
    node.1.Marked → (∀ other ∈ new, other.1.Marked ∧ other.1.op ≠ .DF) →
    T s (record .construct s) { s with outGraph := g }
  unite : ∀ s es t, Grown (fun o => o.Marked ∧ o.op = .UNION) s es t → T s (record .unite s) t
  lookup : ∀ s name t, Leaves (findOrInsertTable env name) s t → T s (record (.lookup name) s) t
  enter : ∀ s es u relation tableNodeId t, T s es u →
    castNode (visitRelation env relation) s = .returned tableNodeId u →
    Leaves (enterTable tableNodeId relation.aliasName) u t →
    T s (es ++ record (.enter relation.origin relation.aliasName) u) t
  name : ∀ s es u origin nodeId name t, T s es u → Gives env origin s nodeId u →
    Leaves (setName nodeId name) u t → T s (es ++ record (.name origin name) u) t
  select : ∀ s es t, T (enterSelect s) es t → T s (record .select s ++ es) (leaveSelect s t)
  stop : ∀ s step, P s (record step s) := by intros; trivial
  select_stop : ∀ s es, P (enterSelect s) es → P s (record .select s ++ es) := by intros; trivial

abbrev Unbound (_ : VisitorState) (_ : List Event) : Prop := True

namespace Grown

variable {α β : Type} {p : Operation → Prop}

theorem compositional : Compositional (Grown p) Unbound where
  refl s := ⟨[], s.outGraph, .refl _, by simp, rfl⟩
  trans := by
    rintro s u t es es' ⟨new, g, hnew, hp, rfl⟩ ⟨new', g', hnew', hp', rfl⟩
    refine ⟨new ++ new', g', hnew.trans hnew', fun node hnode => ?_, rfl⟩
    exact (List.mem_append.mp hnode).elim (hp node) (hp' node)

theorem build {f : QueryGraph → ℤ × QueryGraph} {new : QueryGraph → List (Operation × List ℤ)}
    (hf : ∀ g, AddsNodes g (new g) (f g).2) (hp : ∀ g, ∀ node ∈ new g, p node.1) :
    Follows (Grown p) Unbound (build f) fun _ => [] := by
  refine fun s => ⟨fun t h => ?_, fun _ => trivial⟩
  rcases leaves_of_bind h with ⟨s', u, hread, h⟩ | ⟨e, hthrown⟩
  · cases hread
    rcases leaves_of_bind h with ⟨⟨⟩, u, hmodify, h⟩ | ⟨e, hthrown⟩
    · cases hmodify
      rw [← eq_of_leaves_pure h]
      exact ⟨new s.outGraph, _, hf s.outGraph, hp s.outGraph, rfl⟩
    · cases hthrown
  · cases hthrown

theorem appendNode {df : ℤ} {op : ColumnOperation} {type : ValueType}
    (h : p { op := op, df := df, type := type, sequence := .SINGLE }) (args : List ℤ) :
    Follows (Grown p) Unbound (Parse.build fun g => g.appendNode df op type args) fun _ => [] :=
  build (fun g => appendNode_addsNodes g df op type args) fun _ => by simpa using h

theorem appendUnlessSingle {op : ColumnOperation}
    (h : p { op := op, df := nodeNone, type := .Any, sequence := .SINGLE }) (nodeIds : List ℤ) :
    Follows (Grown p) Unbound (appendUnlessSingle op nodeIds) fun _ => [] := by
  unfold Parse.appendUnlessSingle
  split
  · exact Follows.pure compositional _
  · exact appendNode h _

end Grown

theorem plain_of {op : ColumnOperation} {type : ValueType} {df : ℤ}
    (hdf : df = if isLiteral op then 0 else nodeNone) (hop : isTableOperation op = false) :
    Operation.Plain { op := op, df := df, type := type, sequence := .SINGLE } :=
  ⟨hdf, hop⟩

/-- No operator of the language stands for a table operation. -/
theorem isTableOperation_of_lookup {text : Bytes} {op : ColumnOperation}
    (h : opMap.lookup text = some op) : isTableOperation op = false := by
  obtain ⟨l₁, l₂, hmap, -⟩ := List.lookup_eq_some_iff.mp h
  have hall : ∀ entry ∈ opMap, isTableOperation entry.2 = false := by decide
  exact hall (text, op) (by simp [hmap])

/-- A text does not stand for a literal. -/
def Operator (text : Bytes) : Prop :=
  ((opMap.lookup text).all fun op => !isLiteral op) = true

instance (text : Bytes) : Decidable (Operator text) :=
  inferInstanceAs (Decidable (_ = true))

theorem NotOp.operator (op : NotOp) : Operator (normalizeOp op.text) := by
  cases op <;> decide +kernel

theorem MulDivOp.operator (op : MulDivOp) : Operator (normalizeOp op.text) := by
  cases op <;> decide +kernel

theorem AddSubOp.operator (op : AddSubOp) : Operator (normalizeOp op.text) := by
  cases op <;> decide +kernel

theorem CmpOp.operator (op : CmpOp) : Operator op.text := by
  cases op <;> decide +kernel

theorem IsNullOp.operator (op : IsNullOp) : Operator (normalizeOp op.text) := by
  obtain ⟨_ | _⟩ := op <;> decide +kernel

theorem LikeOp.operator (op : LikeOp) : Operator (normalizeOp op.text) := by
  obtain ⟨_ | _, _ | _⟩ := op <;> decide +kernel

theorem isLiteral_of_operator {text : Bytes} (h : Operator text) {op : ColumnOperation}
    (hop : opMap.lookup text = some op) : isLiteral op = false := by
  rw [Operator, hop] at h
  simpa using h

section Expressions

variable {α : Type}

theorem appendOperation_grows {op : Bytes} (h : Operator (normalizeOp op)) (nodeArgs : List ℤ) :
    Follows (Grown Operation.Plain) Unbound (appendOperation op nodeArgs) fun _ => [] := by
  unfold appendOperation
  split
  · rename_i opValue hop
    refine Grown.appendNode (plain_of ?_ (isTableOperation_of_lookup hop)) nodeArgs
    rw [isLiteral_of_operator h hop]
    rfl
  · exact Follows.throw Grown.compositional _

theorem appendComparison_grows (op : CmpOp) (l r : ℤ) :
    Follows (Grown Operation.Plain) Unbound (appendComparison op l r) fun _ => [] := by
  unfold appendComparison
  split
  · rename_i opValue hop
    refine Grown.appendNode (plain_of ?_ (isTableOperation_of_lookup hop)) [l, r]
    rw [isLiteral_of_operator op.operator hop]
    rfl
  · exact Follows.throw Grown.compositional _

theorem appendBetween_grows (notOp : Bool) (lower middle upper : ℤ) :
    Follows (Grown Operation.Plain) Unbound (appendBetween notOp lower middle upper)
      fun _ => [] := by
  unfold appendBetween
  refine (Grown.appendNode (plain_of rfl rfl) _).last Grown.compositional fun cmp1Id => ?_
  refine (Grown.appendNode (plain_of rfl rfl) _).last Grown.compositional fun cmp2Id => ?_
  cases notOp
  · exact Grown.appendNode (plain_of rfl rfl) _
  · exact Grown.appendNode (plain_of rfl rfl) _

theorem Grown.toAny {p : Operation → Prop} {m : Visit ℤ}
    (h : Follows (Grown p) Unbound m fun _ => []) :
    Follows (Grown p) Unbound (toAny m) fun _ => [] :=
  h.last Grown.compositional fun _ => Follows.pure Grown.compositional _

theorem ofExcept_grows {p : Operation → Prop} (e : Except Exception α) :
    Follows (Grown p) Unbound (ofExcept e) fun _ => [] := by
  cases e with
  | ok a => exact Follows.pure Grown.compositional a
  | error e => exact Follows.throw Grown.compositional e

theorem visitLiteralExpr_grows (env : Environment) (literal : Literal) :
    Follows (Grown Operation.Plain) Unbound (visitLiteralExpr env literal) fun _ => [] := by
  cases literal with
  | string token =>
      refine (ofExcept_grows _).last Grown.compositional fun str => Grown.toAny ?_
      exact Grown.build (fun g => appendStringConstant_addsNodes g _) fun g => by
        simpa using ⟨rfl, rfl⟩
  | int minus token =>
      refine (ofExcept_grows _).last Grown.compositional fun num => Grown.toAny ?_
      exact Grown.build (fun g => appendInt64Constant_addsNodes g num) fun g => by
        simpa using ⟨rfl, rfl⟩
  | float minus token =>
      refine (ofExcept_grows _).last Grown.compositional fun num => Grown.toAny ?_
      exact Grown.build (fun g => appendFloat64Constant_addsNodes g num) fun g => by
        simpa using ⟨rfl, rfl⟩
  | nullKw => exact Grown.toAny (Grown.appendNode (plain_of rfl rfl) [])
  | trueKw => exact Grown.toAny (Grown.appendNode (plain_of rfl rfl) [])
  | falseKw => exact Grown.toAny (Grown.appendNode (plain_of rfl rfl) [])

theorem visitColumnExpr_grows (tableName : Option Bytes) (columnName : Bytes) :
    Follows (Grown Operation.Plain) Unbound (visitColumnExpr tableName columnName) fun _ => [] := by
  refine Follows.get_bind fun s => ?_
  dsimp only
  split_ifs
  · exact Follows.throw Grown.compositional _ s
  · exact Follows.pure Grown.compositional _ s

end Expressions

theorem appendFilter_grows (dfNodeId : ℤ) (filters : List ℤ) :
    Follows (Grown Operation.Over) Unbound (appendFilter dfNodeId filters) fun _ => [] := by
  unfold appendFilter
  split
  · exact Follows.pure Grown.compositional _
  · exact Grown.appendNode ⟨rfl, by simp⟩ _
  · refine (Grown.appendNode ⟨rfl, by simp⟩ _).last Grown.compositional fun filterNodeId => ?_
    exact Grown.appendNode ⟨rfl, by simp⟩ _

theorem appendKeys_grows {op : ColumnOperation} (hop : isLiteral op = false) (hdf : op ≠ .DF)
    (dfNodeId : ℤ) (keyNodeIds : List ℤ) :
    Follows (Grown Operation.Over) Unbound (appendKeys op dfNodeId keyNodeIds) fun _ => [] := by
  unfold appendKeys
  split_ifs
  · exact Follows.pure Grown.compositional _
  · refine Grown.appendNode ⟨?_, hdf⟩ _
    change nodeNone = if isLiteral op then 0 else nodeNone
    rw [hop]
    rfl

theorem appendRange_grows (dfNodeId offsetNodeId limitNodeId : ℤ) :
    Follows (Grown Operation.Over) Unbound (appendRange dfNodeId offsetNodeId limitNodeId)
      fun _ => [] := by
  have hzero : Follows (Grown Operation.Over) Unbound (build fun g => g.appendInt64Constant 0)
      fun _ => [] :=
    Grown.build (fun g => appendInt64Constant_addsNodes g 0) fun g => by simpa using ⟨rfl, by simp⟩
  have hnode : ∀ op ∈ [ColumnOperation.ADD, .RANGE], ∀ type args,
      Follows (Grown Operation.Over) Unbound
        (build fun g => g.appendNode nodeNone op type args) fun _ => [] := by
    intro op hop type args
    refine Grown.appendNode ?_ args
    fin_cases hop <;> exact ⟨rfl, by simp⟩
  have hpure : ∀ nodeId : ℤ, Follows (Grown Operation.Over) Unbound (pure nodeId : Visit ℤ)
      fun _ => [] :=
    fun nodeId => Follows.pure Grown.compositional nodeId
  unfold appendRange
  split_ifs
  · exact hzero.last Grown.compositional fun _ =>
      (hnode .ADD (by simp) _ _).last Grown.compositional fun _ => hnode .RANGE (by simp) _ _
  · exact (hpure _).last Grown.compositional fun _ =>
      (hnode .ADD (by simp) _ _).last Grown.compositional fun _ => hnode .RANGE (by simp) _ _
  · exact hzero.last Grown.compositional fun _ =>
      (hpure _).last Grown.compositional fun _ => hnode .RANGE (by simp) _ _
  · exact (hpure _).last Grown.compositional fun _ =>
      (hpure _).last Grown.compositional fun _ => hnode .RANGE (by simp) _ _
  · exact hpure _

theorem constructSelect_leaves {tableNodeIds columnNodeIds filters groupNodeIds
      orderNodeIds : List ℤ} {offsetNodeId limitNodeId : ℤ} {s t : VisitorState}
    (h : Leaves (constructSelect tableNodeIds columnNodeIds filters groupNodeIds orderNodeIds
      offsetNodeId limitNodeId) s t) :
    ∃ node new g, AddsNodes s.outGraph (node :: new) g ∧
      node.2 = tableNodeIds ++ columnNodeIds ∧ node.1.op = .DF ∧ node.1.Marked ∧
      (∀ other ∈ new, other.1.Marked ∧ other.1.op ≠ .DF) ∧ t = { s with outGraph := g } := by
  unfold constructSelect at h
  rcases leaves_of_bind h with ⟨dfNodeId, u, hbuild, h⟩ | ⟨e, hthrown⟩
  · cases hbuild
    have hover : ∀ dfNodeId, Follows (Grown Operation.Over) Unbound (do
        let dfNodeId ← appendFilter dfNodeId filters
        let dfNodeId ← appendKeys .GROUP dfNodeId groupNodeIds
        let dfNodeId ← appendKeys .SORT dfNodeId orderNodeIds
        appendRange dfNodeId offsetNodeId limitNodeId : Visit ℤ) fun _ => [] := by
      intro dfNodeId
      refine (appendFilter_grows _ _).last Grown.compositional fun _ => ?_
      refine (appendKeys_grows rfl (by simp) _ _).last Grown.compositional fun _ => ?_
      refine (appendKeys_grows rfl (by simp) _ _).last Grown.compositional fun _ => ?_
      exact appendRange_grows _ _ _
    obtain ⟨new, g, hnew, hover, rfl⟩ := (hover _ _).leaves t h
    have hframe := appendNode_addsNodes s.outGraph nodeNone .DF .Any
      (tableNodeIds ++ columnNodeIds)
    exact ⟨_, new, g, hframe.trans hnew, rfl, rfl, rfl, hover, rfl⟩
  · cases hthrown

theorem leaves_of_inScope {α : Type} {enter : VisitorState → VisitorState}
    {leave : VisitorState → VisitorState → VisitorState} {m : Visit α} {s t : VisitorState}
    (h : Leaves (inScope enter leave m) s t) : ∃ u, Leaves m (enter s) u ∧ t = leave s u := by
  unfold inScope at h
  rcases leaves_of_bind h with ⟨s', u, hread, h⟩ | ⟨e, hthrown⟩
  · cases hread
    rcases leaves_of_bind h with ⟨⟨⟩, u, henter, h⟩ | ⟨e, hthrown⟩
    · cases henter
      rcases leaves_of_bind h with ⟨a, u, htry, h⟩ | ⟨e, htry⟩
      · rcases leaves_of_bind h with ⟨⟨⟩, v, hleave, h⟩ | ⟨e, hthrown⟩
        · cases hleave
          rcases leaves_of_tryCatch (.returned a htry) with ⟨b, hm⟩ | ⟨e, v, hm, hhandler⟩
          · exact ⟨u, .returned b hm, (eq_of_leaves_pure h).symm⟩
          · rw [tryCatch_of_thrown hm] at htry
            cases htry
        · cases hthrown
      · rcases leaves_of_tryCatch (.thrown e htry) with ⟨b, hm⟩ | ⟨e', v, hm, hhandler⟩
        · rw [tryCatch_of_returned hm] at htry
          cases htry
        · rcases leaves_of_bind hhandler with ⟨⟨⟩, w, hleave, hhandler⟩ | ⟨e, hthrown⟩
          · cases hleave
            exact ⟨v, .thrown e' hm, (eq_of_leaves_throw hhandler).symm⟩
          · cases hthrown
    · cases hthrown
  · cases hthrown

theorem nameRelation_leaves (origin : Origin) {tableNodeId : ℤ} {aliasName : Option Bytes}
    {s t : VisitorState} (h : Leaves (nameRelation tableNodeId aliasName) s t) :
    nameRelationEvents origin aliasName tableNodeId s =
        record (.name origin (aliasName.getD [])) s ∧
      Leaves (setName tableNodeId (aliasName.getD [])) s t ∨
    nameRelationEvents origin aliasName tableNodeId s = [] ∧ t = s := by
  unfold nameRelation at h
  rcases leaves_of_bind h with ⟨s', u, hread, h⟩ | ⟨e, hthrown⟩
  · cases hread
    obtain ⟨exprName, hname, h⟩ := leaves_of_ofOption_bind h
    dsimp only at h
    rw [nameRelationEvents, hname]
    simp only [Option.some.injEq]
    split_ifs at h ⊢
    · exact .inl ⟨rfl, leaves_of_bind_pure h⟩
    · exact .inr ⟨rfl, (eq_of_leaves_pure h).symm⟩
  · cases hthrown

theorem undefined_of_inScope {α : Type} {enter : VisitorState → VisitorState}
    {leave : VisitorState → VisitorState → VisitorState} {m : Visit α} {s : VisitorState}
    (h : inScope enter leave m s = .undefined) : m (enter s) = .undefined := by
  unfold inScope at h
  rcases bind_eq_undefined h with ⟨s', u, hread, h⟩ | hread
  · cases hread
    rcases bind_eq_undefined h with ⟨⟨⟩, u, henter, h⟩ | henter
    · cases henter
      rcases bind_eq_undefined h with ⟨a, u, -, h⟩ | htry
      · rcases bind_eq_undefined h with ⟨⟨⟩, v, -, h⟩ | hleave
        · cases h
        · cases hleave
      · cases hm : m (enter s) with
        | returned a t =>
            rw [tryCatch_of_returned hm] at htry
            cases htry
        | thrown e t =>
            rw [tryCatch_of_thrown hm] at htry
            cases htry
        | undefined => rfl
    · cases henter
  · cases hread

namespace Traced

variable {env : Environment} {T : VisitorState → List Event → VisitorState → Prop}
  {P : VisitorState → List Event → Prop} {α β : Type}

theorem grows (hT : Traced env T P) {m : Visit α}
    (h : Follows (Grown Operation.Plain) Unbound m fun _ => []) : Follows T P m fun _ => [] :=
  fun s => ⟨fun t ht => hT.grow s [] t ((h s).leaves t ht), fun _ => hT.stuck s⟩

protected theorem castNode (hT : Traced env T P) {m : Visit Any} {p : VisitorState → List Event}
    (h : Follows T P m p) : Follows T P (castNode m) p := by
  refine h.last hT.toCompositional fun a => ?_
  cases a with
  | none => exact Follows.throw hT.toCompositional _
  | some i => exact Follows.pure hT.toCompositional i

protected theorem toAny (hT : Traced env T P) {m : Visit ℤ} {p : VisitorState → List Event}
    (h : Follows T P m p) : Follows T P (toAny m) p :=
  h.last hT.toCompositional fun i => Follows.pure hT.toCompositional (some i)

theorem findOrInsertTable (hT : Traced env T P) (name : Bytes) :
    Follows T P (findOrInsertTable env name) (record (.lookup name)) :=
  fun s => ⟨fun t h => hT.lookup s name t h, fun _ => hT.stop s _⟩

theorem setName (hT : Traced env T P) {m : Visit ℤ} {p : VisitorState → List Event}
    {origin : Origin} (hm : Follows T P m p)
    (hgives : ∀ s i u, m s = .returned i u → Gives env origin s i u) (name : Bytes) (f : ℤ → α) :
    Follows T P (do
      let nodeId ← m
      setName nodeId name
      pure (f nodeId)) (eventsThen p m fun _ => record (.name origin name)) :=
  hm.bind_from fun s i u hrun hu =>
    ⟨fun t h => hT.name s _ u origin i name t hu (hgives s i u hrun) (leaves_of_bind_pure h),
      fun _ => hT.stuck_trans hu (hT.stop u _)⟩

theorem nameRelation (hT : Traced env T P) {m : Visit ℤ} {p : VisitorState → List Event}
    {origin : Origin} (hm : Follows T P m p)
    (hgives : ∀ s i u, m s = .returned i u → Gives env origin s i u) (aliasName : Option Bytes) :
    Follows T P (m >>= fun tableNodeId => nameRelation tableNodeId aliasName)
      (eventsThen p m (nameRelationEvents origin aliasName)) := by
  refine hm.bind_from fun s i u hrun hu => ⟨fun t h => ?_, fun _ => ?_⟩
  · rcases nameRelation_leaves origin h with ⟨hevents, hname⟩ | ⟨hevents, rfl⟩
    · rw [hevents]
      exact hT.name s _ u origin i _ t hu (hgives s i u hrun) hname
    · rwa [hevents, List.append_nil]
  · refine hT.stuck_trans hu ?_
    rw [nameRelationEvents]
    split_ifs
    · exact hT.stop u _
    · exact hT.stuck u

theorem enterTable (hT : Traced env T P) {relation : Relation} {p : VisitorState → List Event}
    {k : ℤ → Visit α} {q : ℤ → VisitorState → List Event}
    (hm : Follows T P (castNode (visitRelation env relation)) p)
    (hk : ∀ i, Follows T P (k i) (q i)) :
    Follows T P (do
      let tableNodeId ← castNode (visitRelation env relation)
      enterTable tableNodeId relation.aliasName
      k tableNodeId) (eventsThen p (castNode (visitRelation env relation)) fun tableNodeId =>
        eventsThen (record (.enter relation.origin relation.aliasName))
          (enterTable tableNodeId relation.aliasName) fun _ => q tableNodeId) := by
  refine hm.bind_from fun s i u hrun hu => ⟨fun t h => ?_, fun h => ?_⟩
  · have henter := fun v => hT.enter s _ u relation i v hu hrun
    rcases leaves_of_bind h with ⟨⟨⟩, v, hreturned, h⟩ | ⟨e, hthrown⟩
    · rw [eventsThen_of_returned hreturned, ← List.append_assoc]
      exact hT.trans (henter v (.returned () hreturned)) ((hk i v).leaves t h)
    · rw [eventsThen_of_thrown hthrown]
      exact henter t (.thrown e hthrown)
  · rcases bind_eq_undefined h with ⟨⟨⟩, v, hreturned, h⟩ | hundefined
    · rw [eventsThen_of_returned hreturned, ← List.append_assoc]
      exact hT.stuck_trans (hT.enter s _ u relation i v hu hrun (.returned () hreturned))
        ((hk i v).stuck h)
    · rw [eventsThen_of_undefined hundefined]
      exact hT.stuck_trans hu (hT.stop u _)

theorem constructSelect (hT : Traced env T P) (tableNodeIds columnNodeIds filters groupNodeIds
      orderNodeIds : List ℤ) (offsetNodeId limitNodeId : ℤ) :
    Follows T P (constructSelect tableNodeIds columnNodeIds filters groupNodeIds orderNodeIds
      offsetNodeId limitNodeId) (record .construct) := by
  refine fun s => ⟨fun t h => ?_, fun _ => hT.stop s _⟩
  obtain ⟨node, new, g, hnew, -, hframe, hmarked, hover, rfl⟩ := constructSelect_leaves h
  exact hT.construct s node new g hnew hframe hmarked hover

theorem unite_follows (hT : Traced env T P) (nodeIds : List ℤ) :
    Follows T P (appendUnlessSingle .UNION nodeIds) (record .unite) :=
  fun s => ⟨fun t h => hT.unite s [] t
    ((Grown.appendUnlessSingle ⟨rfl, rfl⟩ nodeIds s).leaves t h), fun _ => hT.stop s _⟩

theorem inSelect (hT : Traced env T P) {m : Visit α} {p : VisitorState → List Event}
    (h : Follows T P m p) : Follows T P (inScope enterSelect leaveSelect m)
      fun s => record .select s ++ p (enterSelect s) := by
  refine fun s => ⟨fun t hleaves => ?_, fun hstuck => ?_⟩
  · obtain ⟨u, hu, rfl⟩ := leaves_of_inScope hleaves
    exact hT.select s _ u ((h (enterSelect s)).leaves u hu)
  · exact hT.select_stop s _ ((h (enterSelect s)).stuck (undefined_of_inScope hstuck))

end Traced

section Recursion

variable {env : Environment} {T : VisitorState → List Event → VisitorState → Prop}
  {P : VisitorState → List Event → Prop}
  (hT : Traced env T P)

include hT

-- One case for each constructor: the events of the parts in the order of their
-- visits. Casts and the nodes of expressions have none.
mutual

theorem visitQueryExpression_follows : (x : QueryExpression) →
    Follows T P (visitQueryExpression env x) (x.events env)
  | .mk selectStatement rest => by
      have hc := hT.toCompositional
      rw [visitQueryExpression, QueryExpression.events]
      refine (hT.castNode (visitSelectStatement_follows selectStatement)).bind hc fun first => ?_
      refine (visitSelectStatements_follows rest).bind hc fun nodeIds => ?_
      exact hT.toAny (hT.unite_follows (first :: nodeIds))

theorem visitSelectStatements_follows : (l : List SelectStatement) →
    Follows T P (visitSelectStatements env l) (selectStatementsEvents env l)
  | [] => by
      rw [visitSelectStatements, selectStatementsEvents]
      exact Follows.pure hT.toCompositional []
  | selectStatement :: rest => by
      have hc := hT.toCompositional
      rw [visitSelectStatements, selectStatementsEvents]
      refine (hT.castNode (visitSelectStatement_follows selectStatement)).bind hc fun _ => ?_
      exact (visitSelectStatements_follows rest).last hc fun _ => Follows.pure hc _

theorem visitSelectStatement_follows : (x : SelectStatement) →
    Follows T P (visitSelectStatement env x) (x.events env)
  | .mk selectElement rest fromClause whereExpr groupByExprs sortItems limitExpr offsetExpr => by
      have hc := hT.toCompositional
      rw [visitSelectStatement, SelectStatement.events]
      refine hT.toAny (hT.inSelect ?_)
      refine (visitFrom_follows fromClause).bind hc fun p => ?_
      refine (visitSelectElement_follows selectElement).bind hc fun _ => ?_
      refine (visitSelectElements_follows rest).bind hc fun _ => ?_
      refine (visitOptional_follows whereExpr).bind hc fun _ => ?_
      refine (visitExpressions_follows groupByExprs).bind hc fun _ => ?_
      refine (visitSortItems_follows sortItems).bind hc fun _ => ?_
      refine (visitOptional_follows offsetExpr).bind hc fun _ => ?_
      refine (visitOptional_follows limitExpr).bind hc fun _ => ?_
      exact hT.constructSelect _ _ _ _ _ _ _

theorem visitOptional_follows : (x : Option Expression) →
    Follows T P (visitOptional env x) (optionalEvents env x)
  | none => by
      rw [visitOptional, optionalEvents]
      exact Follows.pure hT.toCompositional none
  | some expression => by
      have hc := hT.toCompositional
      rw [visitOptional, optionalEvents]
      exact (hT.castNode (visitExpression_follows expression)).last hc fun _ => Follows.pure hc _

theorem visitFrom_follows : (x : Option FromClause) →
    Follows T P (visitFrom env x) (fromEvents env x)
  | none => by
      rw [visitFrom, fromEvents]
      exact Follows.pure hT.toCompositional ([], [])
  | some fromClause => by
      rw [visitFrom, fromEvents]
      exact visitFromClause_follows fromClause

theorem visitFromClause_follows : (x : FromClause) →
    Follows T P (visitFromClause env x) (x.events env)
  | .mk baseTable joins => by
      have hc := hT.toCompositional
      rw [visitFromClause, FromClause.events]
      refine hT.enterTable (hT.castNode (visitRelation_follows baseTable)) fun tableNodeId => ?_
      exact (visitJoins_follows joins).last hc fun _ => Follows.pure hc _

theorem visitJoins_follows : (l : List JoinClause) →
    Follows T P (visitJoins env l) (joinsEvents env l)
  | [] => by
      rw [visitJoins, joinsEvents]
      exact Follows.pure hT.toCompositional ([], [])
  | joinClause :: rest => by
      have hc := hT.toCompositional
      rw [visitJoins, joinsEvents]
      refine (visitJoinClause_follows joinClause).bind hc fun _ => ?_
      exact (visitJoins_follows rest).last hc fun _ => Follows.pure hc _

theorem visitJoinClause_follows : (x : JoinClause) →
    Follows T P (visitJoinClause env x) (x.events env)
  | .mk relation onExpr => by
      have hc := hT.toCompositional
      rw [visitJoinClause, JoinClause.events]
      refine (visitRelation_follows relation).bind hc fun _ => ?_
      refine hT.enterTable (hT.castNode (visitRelation_follows relation)) fun tableNodeId => ?_
      exact (hT.castNode (visitExpression_follows onExpr)).last hc fun _ => Follows.pure hc _

theorem visitRelation_follows : (x : Relation) →
    Follows T P (visitRelation env x) (x.events env)
  | .table name aliasName => by
      rw [visitRelation, Relation.events]
      exact hT.nameRelation (hT.findOrInsertTable name) (fun _ _ _ => .table) aliasName
  | .subquery queryExpression aliasName => by
      rw [visitRelation, Relation.events]
      exact hT.nameRelation (hT.castNode (visitQueryExpression_follows queryExpression))
        (fun _ _ _ => .subquery) aliasName

theorem visitSelectElement_follows : (x : SelectElement) →
    Follows T P (visitSelectElement env x) (x.events env)
  | .globalStar => by
      rw [visitSelectElement, SelectElement.events]
      exact Follows.get_bind fun s => Follows.pure hT.toCompositional _ s
  | .tableStar _ => by
      rw [visitSelectElement, SelectElement.events]
      exact Follows.pure hT.toCompositional []
  | .expression expression none => by
      have hc := hT.toCompositional
      rw [visitSelectElement, SelectElement.events]
      exact (hT.castNode (visitExpression_follows expression)).last hc fun _ => Follows.pure hc _
  | .expression expression (some aliasName) => by
      rw [visitSelectElement, SelectElement.events]
      exact hT.setName (hT.castNode (visitExpression_follows expression))
        (fun _ _ _ => .expression) aliasName fun nodeId => [nodeId]

theorem visitSelectElements_follows : (l : List SelectElement) →
    Follows T P (visitSelectElements env l) (selectElementsEvents env l)
  | [] => by
      rw [visitSelectElements, selectElementsEvents]
      exact Follows.pure hT.toCompositional []
  | selectElement :: rest => by
      have hc := hT.toCompositional
      rw [visitSelectElements, selectElementsEvents]
      refine (visitSelectElement_follows selectElement).bind hc fun _ => ?_
      exact (visitSelectElements_follows rest).last hc fun _ => Follows.pure hc _

theorem visitSortItem_follows : (x : SortItem) →
    Follows T P (visitSortItem env x) (x.events env)
  | .mk expression desc => by
      rw [visitSortItem, SortItem.events]
      refine (hT.castNode (visitExpression_follows expression)).last hT.toCompositional
        fun nodeId => ?_
      split_ifs
      · exact hT.grows (Grown.appendNode (plain_of rfl rfl) [nodeId])
      · exact Follows.pure hT.toCompositional nodeId

theorem visitSortItems_follows : (l : List SortItem) →
    Follows T P (visitSortItems env l) (sortItemsEvents env l)
  | [] => by
      rw [visitSortItems, sortItemsEvents]
      exact Follows.pure hT.toCompositional []
  | sortItem :: rest => by
      have hc := hT.toCompositional
      rw [visitSortItems, sortItemsEvents]
      refine (visitSortItem_follows sortItem).bind hc fun _ => ?_
      exact (visitSortItems_follows rest).last hc fun _ => Follows.pure hc _

theorem visitExpressions_follows : (l : List Expression) →
    Follows T P (visitExpressions env l) (expressionsEvents env l)
  | [] => by
      rw [visitExpressions, expressionsEvents]
      exact Follows.pure hT.toCompositional []
  | expression :: rest => by
      have hc := hT.toCompositional
      rw [visitExpressions, expressionsEvents]
      refine (hT.castNode (visitExpression_follows expression)).bind hc fun _ => ?_
      exact (visitExpressions_follows rest).last hc fun _ => Follows.pure hc _

theorem visitExpression_follows : (x : Expression) →
    Follows T P (visitExpression env x) (x.events env)
  | .mk orExpr => by
      rw [visitExpression, Expression.events]
      exact hT.toAny (hT.castNode (visitOrExpr_follows orExpr))

theorem visitOrExpr_follows : (x : OrExpr) → Follows T P (visitOrExpr env x) (x.events env)
  | .mk firstArg args => by
      have hc := hT.toCompositional
      rw [visitOrExpr, OrExpr.events]
      refine (hT.castNode (visitXorExpr_follows firstArg)).bind hc fun first => ?_
      exact (visitXorExprs_follows args).last hc fun _ =>
        hT.toAny (hT.grows (Grown.appendUnlessSingle (plain_of rfl rfl) _))

theorem visitXorExprs_follows : (l : List XorExpr) →
    Follows T P (visitXorExprs env l) (xorExprsEvents env l)
  | [] => by
      rw [visitXorExprs, xorExprsEvents]
      exact Follows.pure hT.toCompositional []
  | arg :: rest => by
      have hc := hT.toCompositional
      rw [visitXorExprs, xorExprsEvents]
      refine (hT.castNode (visitXorExpr_follows arg)).bind hc fun _ => ?_
      exact (visitXorExprs_follows rest).last hc fun _ => Follows.pure hc _

theorem visitXorExpr_follows : (x : XorExpr) → Follows T P (visitXorExpr env x) (x.events env)
  | .mk firstArg args => by
      have hc := hT.toCompositional
      rw [visitXorExpr, XorExpr.events]
      refine (hT.castNode (visitAndExpr_follows firstArg)).bind hc fun first => ?_
      exact (visitAndExprs_follows args).last hc fun _ =>
        hT.toAny (hT.grows (Grown.appendUnlessSingle (plain_of rfl rfl) _))

theorem visitAndExprs_follows : (l : List AndExpr) →
    Follows T P (visitAndExprs env l) (andExprsEvents env l)
  | [] => by
      rw [visitAndExprs, andExprsEvents]
      exact Follows.pure hT.toCompositional []
  | arg :: rest => by
      have hc := hT.toCompositional
      rw [visitAndExprs, andExprsEvents]
      refine (hT.castNode (visitAndExpr_follows arg)).bind hc fun _ => ?_
      exact (visitAndExprs_follows rest).last hc fun _ => Follows.pure hc _

theorem visitAndExpr_follows : (x : AndExpr) → Follows T P (visitAndExpr env x) (x.events env)
  | .mk firstArg args => by
      have hc := hT.toCompositional
      rw [visitAndExpr, AndExpr.events]
      refine (hT.castNode (visitNotExpr_follows firstArg)).bind hc fun first => ?_
      exact (visitNotExprs_follows args).last hc fun _ =>
        hT.toAny (hT.grows (Grown.appendUnlessSingle (plain_of rfl rfl) _))

theorem visitNotExprs_follows : (l : List NotExpr) →
    Follows T P (visitNotExprs env l) (notExprsEvents env l)
  | [] => by
      rw [visitNotExprs, notExprsEvents]
      exact Follows.pure hT.toCompositional []
  | arg :: rest => by
      have hc := hT.toCompositional
      rw [visitNotExprs, notExprsEvents]
      refine (hT.castNode (visitNotExpr_follows arg)).bind hc fun _ => ?_
      exact (visitNotExprs_follows rest).last hc fun _ => Follows.pure hc _

theorem visitNotExpr_follows : (x : NotExpr) → Follows T P (visitNotExpr env x) (x.events env)
  | .not op exprNot => by
      rw [visitNotExpr, NotExpr.events]
      exact (hT.castNode (visitNotExpr_follows exprNot)).last hT.toCompositional fun nodeId =>
        hT.toAny (hT.grows (appendOperation_grows op.operator [nodeId]))
  | .pass exprPass => by
      rw [visitNotExpr, NotExpr.events]
      exact hT.toAny (hT.castNode (visitCmpExpr_follows exprPass))

theorem visitCmpExpr_follows : (x : CmpExpr) → Follows T P (visitCmpExpr env x) (x.events env)
  | .comparisonExpr left tail => by
      have hc := hT.toCompositional
      rw [visitCmpExpr, CmpExpr.events]
      refine (hT.castNode (visitMathExpr_follows left)).bind hc fun leftNodeId => ?_
      exact (visitCmpTail_follows leftNodeId tail).last hc fun _ =>
        hT.toAny (hT.grows (Grown.appendUnlessSingle (plain_of rfl rfl) _))
  | .isNullExpr _ op => by
      rw [visitCmpExpr, CmpExpr.events]
      exact hT.toAny (hT.grows (appendOperation_grows op.operator []))
  | .inExpr left right => by
      rw [visitCmpExpr, CmpExpr.events]
      exact (visitMathExpr_follows left).bind hT.toCompositional fun _ =>
        visitArrayExpression_follows right
  | .likeExpr left op right => by
      have hc := hT.toCompositional
      rw [visitCmpExpr, CmpExpr.events]
      refine (hT.castNode (visitMathExpr_follows left)).bind hc fun leftNodeId => ?_
      exact (hT.castNode (visitMathExpr_follows right)).last hc fun rightNodeId =>
        hT.toAny (hT.grows (appendOperation_grows op.operator _))
  | .betweenExpr left notOp lower upper => by
      have hc := hT.toCompositional
      rw [visitCmpExpr, CmpExpr.events]
      refine (hT.castNode (visitMathExpr_follows lower)).bind hc fun lowerNodeId => ?_
      refine (hT.castNode (visitMathExpr_follows left)).bind hc fun middleNodeId => ?_
      exact (hT.castNode (visitMathExpr_follows upper)).last hc fun upperNodeId =>
        hT.toAny (hT.grows (appendBetween_grows notOp _ _ _))
  | .mathFallthrough mathExpr => by
      rw [visitCmpExpr, CmpExpr.events]
      exact visitMathExpr_follows mathExpr

theorem visitCmpTail_follows (leftNodeId : ℤ) : (x : CmpTail) →
    Follows T P (visitCmpTail env leftNodeId x) (x.events env leftNodeId)
  | .last op right => by
      have hc := hT.toCompositional
      rw [visitCmpTail, CmpTail.events]
      refine (hT.castNode (visitMathExpr_follows right)).last hc fun rightNodeId => ?_
      exact (hT.grows (appendComparison_grows op leftNodeId rightNodeId)).last hc fun _ =>
        Follows.pure hc _
  | .cons op right rest => by
      have hc := hT.toCompositional
      rw [visitCmpTail, CmpTail.events]
      refine (hT.castNode (visitMathExpr_follows right)).bind hc fun rightNodeId => ?_
      refine (hT.grows (appendComparison_grows op leftNodeId rightNodeId)).bind hc fun _ => ?_
      exact (visitCmpTail_follows rightNodeId rest).last hc fun _ => Follows.pure hc _

theorem visitMathExpr_follows : (x : MathExpr) → Follows T P (visitMathExpr env x) (x.events env)
  | .primaryBase primaryExpr => by
      rw [visitMathExpr, MathExpr.events]
      exact visitPrimaryExpr_follows primaryExpr
  | .castExpr left => by
      rw [visitMathExpr, MathExpr.events]
      exact (visitMathExpr_follows left).last hT.toCompositional fun _ =>
        Follows.pure hT.toCompositional none
  | .mulDivExpr left op right => by
      have hc := hT.toCompositional
      rw [visitMathExpr, MathExpr.events]
      refine (hT.castNode (visitMathExpr_follows left)).bind hc fun leftNodeId => ?_
      exact (hT.castNode (visitMathExpr_follows right)).last hc fun rightNodeId =>
        hT.toAny (hT.grows (appendOperation_grows op.operator _))
  | .addSubExpr left op right => by
      have hc := hT.toCompositional
      rw [visitMathExpr, MathExpr.events]
      refine (hT.castNode (visitMathExpr_follows left)).bind hc fun leftNodeId => ?_
      exact (hT.castNode (visitMathExpr_follows right)).last hc fun rightNodeId =>
        hT.toAny (hT.grows (appendOperation_grows op.operator _))

theorem visitPrimaryExpr_follows : (x : PrimaryExpr) →
    Follows T P (visitPrimaryExpr env x) (x.events env)
  | .parenthesizedExpr inside => by
      rw [visitPrimaryExpr, PrimaryExpr.events]
      exact hT.toAny (hT.castNode (visitExpression_follows inside))
  | .subqueryExpr queryExpression => by
      rw [visitPrimaryExpr, PrimaryExpr.events]
      exact (visitQueryExpression_follows queryExpression).last hT.toCompositional fun _ =>
        Follows.pure hT.toCompositional none
  | .functionExpr functionCall => by
      rw [visitPrimaryExpr, PrimaryExpr.events]
      exact visitFunctionCall_follows functionCall
  | .columnExpr tableName columnName => by
      rw [visitPrimaryExpr, PrimaryExpr.events]
      exact hT.grows (visitColumnExpr_grows tableName columnName)
  | .literalExpr literal => by
      rw [visitPrimaryExpr, PrimaryExpr.events]
      exact hT.grows (visitLiteralExpr_grows env literal)

theorem visitArrayExpression_follows : (x : ArrayExpression) →
    Follows T P (visitArrayExpression env x) (x.events env)
  | .query queryExpression => by
      rw [visitArrayExpression, ArrayExpression.events]
      exact (visitQueryExpression_follows queryExpression).last hT.toCompositional fun _ =>
        Follows.pure hT.toCompositional none
  | .list first rest => by
      rw [visitArrayExpression, ArrayExpression.events]
      exact (visitExpression_follows first).bind hT.toCompositional fun _ =>
        visitArrayElements_follows rest

theorem visitArrayElements_follows : (l : List Expression) →
    Follows T P (visitArrayElements env l) (arrayElementsEvents env l)
  | [] => by
      rw [visitArrayElements, arrayElementsEvents]
      exact Follows.pure hT.toCompositional none
  | expression :: rest => by
      rw [visitArrayElements, arrayElementsEvents]
      exact (visitExpression_follows expression).bind hT.toCompositional fun _ =>
        visitArrayElements_follows rest

theorem visitFunctionCall_follows : (x : FunctionCall) →
    Follows T P (visitFunctionCall env x) (x.events env)
  | .standardFunction expression => by
      rw [visitFunctionCall, FunctionCall.events]
      exact (visitExpression_follows expression).last hT.toCompositional fun _ =>
        Follows.pure hT.toCompositional none
  | .countStar => by
      rw [visitFunctionCall, FunctionCall.events]
      exact Follows.pure hT.toCompositional none
  | .countFunction expression => by
      rw [visitFunctionCall, FunctionCall.events]
      exact (visitExpression_follows expression).last hT.toCompositional fun _ =>
        Follows.pure hT.toCompositional none

end

end Recursion

/-- Every visit keeps the nodes of the graph. -/
theorem keepsNodes_traced (env : Environment) :
    Traced env (fun s _ t => KeepsNodes s.outGraph t.outGraph) Unbound where
  refl s := .refl _
  trans h h' := h.trans h'
  grow := by
    rintro s es t ⟨new, g, hnew, -, rfl⟩
    exact hnew.growsBy.keepsNodes
  construct s node new g hnew _ _ _ := hnew.growsBy.keepsNodes
  unite := by
    rintro s es t ⟨new, g, hnew, -, rfl⟩
    exact hnew.growsBy.keepsNodes
  lookup s name t h := by
    rcases findOrInsertTable_leaves h with rfl | ⟨schema, -, -, rfl⟩
    · exact .refl _
    · exact (insertTable_growsBy s.outGraph schema).keepsNodes
  enter s es u relation tableNodeId t hu _ h := by
    obtain ⟨tableAlias, ctx, -, -, rfl⟩ := enterTable_leaves h
    exact hu
  name s es u origin nodeId name t hu _ h := by
    obtain ⟨g, hg, rfl⟩ := setName_leaves h
    exact hu.trans (setNodeName_keepsNodes hg)
  select s es t h := h

/-- An invariant of the steps of a visit, when more or renamed nodes do not matter to
it, holds at every event. -/
theorem traced_of_invariant {env : Environment} {I : VisitorState → Prop}
    (hkeeps : ∀ s g, KeepsNodes s.outGraph g → I s → I { s with outGraph := g })
    (hlookup : ∀ s name t, Leaves (findOrInsertTable env name) s t → I s → I t)
    (henter : ∀ s u relation tableNodeId t,
      castNode (visitRelation env relation) s = .returned tableNodeId u →
      Leaves (enterTable tableNodeId relation.aliasName) u t → I u → I t)
    (hselect : ∀ s, I s → I (enterSelect s)) (hleave : ∀ s t, I t → I (leaveSelect s t)) :
    Traced env (fun s es t => I s → I t ∧ ∀ e ∈ es, I e.before)
      (fun s es => I s → ∀ e ∈ es, I e.before) where
  refl s hs := ⟨hs, by simp⟩
  trans := by
    intro s u t es es' h h' hs
    obtain ⟨hu, hes⟩ := h hs
    obtain ⟨ht, hes'⟩ := h' hu
    exact ⟨ht, fun e he => (List.mem_append.mp he).elim (hes e) (hes' e)⟩
  stuck s _ := by simp
  stuck_trans := by
    intro s u es es' h h' hs e he
    obtain ⟨hu, hes⟩ := h hs
    exact (List.mem_append.mp he).elim (hes e) (h' hu e)
  grow := by
    rintro s es t ⟨new, g, hnew, -, rfl⟩ hs
    exact ⟨hkeeps s g hnew.growsBy.keepsNodes hs, by simp⟩
  construct s node new g hnew _ _ _ hs :=
    ⟨hkeeps s g hnew.growsBy.keepsNodes hs, by simpa [record] using hs⟩
  unite := by
    rintro s es t ⟨new, g, hnew, -, rfl⟩ hs
    exact ⟨hkeeps s g hnew.growsBy.keepsNodes hs, by simpa [record] using hs⟩
  lookup s name t h hs := ⟨hlookup s name t h hs, by simpa [record] using hs⟩
  enter s es u relation tableNodeId t hu hvisit h hs := by
    obtain ⟨hu, hes⟩ := hu hs
    exact ⟨henter s u relation tableNodeId t hvisit h hu, forall_mem_record.mpr ⟨hes, hu⟩⟩
  name s es u origin nodeId name t hu _ h hs := by
    obtain ⟨hu, hes⟩ := hu hs
    obtain ⟨g, hg, rfl⟩ := setName_leaves h
    exact ⟨hkeeps u g (setNodeName_keepsNodes hg) hu, forall_mem_record.mpr ⟨hes, hu⟩⟩
  select s es t h hs := by
    obtain ⟨ht, hes⟩ := h (hselect s hs)
    refine ⟨hleave s t ht, fun e he => ?_⟩
    rcases List.mem_append.mp he with he | he
    · rw [List.mem_singleton.mp he]
      exact hs
    · exact hes e he
  stop s step hs := by simpa [record] using hs
  select_stop s es h hs e he := by
    rcases List.mem_append.mp he with he | he
    · rw [List.mem_singleton.mp he]
      exact hs
    · exact h (hselect s hs) e he

section KeepsNodes

variable {s t : VisitorState} {i : ℤ}

theorem setName_keeps {name : Bytes} {a : Unit} (h : setName i name s = .returned a t) :
    KeepsNodes s.outGraph t.outGraph := by
  obtain ⟨g, hg, rfl⟩ := setName_leaves (.returned a h)
  exact setNodeName_keepsNodes hg

theorem nameRelation_keeps {aliasName : Option Bytes} {a : Any}
    (h : nameRelation i aliasName s = .returned a t) : KeepsNodes s.outGraph t.outGraph := by
  rcases nameRelation_leaves .made (.returned a h) with ⟨-, hname⟩ | ⟨-, rfl⟩
  · obtain ⟨g, hg, rfl⟩ := setName_leaves hname
    exact setNodeName_keepsNodes hg
  · exact .refl _

theorem enterTable_keeps {aliasName : Option Bytes} {a : Unit}
    (h : enterTable i aliasName s = .returned a t) : KeepsNodes s.outGraph t.outGraph := by
  obtain ⟨tableAlias, ctx, -, -, rfl⟩ := enterTable_leaves (.returned a h)
  exact .refl _

end KeepsNodes

theorem keepsNodes_of_follows {α : Type} {m : Visit α} {p : VisitorState → List Event}
    (h : Follows (fun s _ t => KeepsNodes s.outGraph t.outGraph) Unbound m p) (s : VisitorState)
    (a : α) (t : VisitorState) (hm : m s = .returned a t) :
    KeepsNodes s.outGraph t.outGraph :=
  (h s).leaves t (.returned a hm)

end Parse

end DistStorage
