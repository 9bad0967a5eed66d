import DistStorage.Parse.Visitor
import DistStorage.Query.Coherent

/-!
# Reasoning about the nodes a visit appends

`Sound ids s` is the invariant of a visitor: its graph is coherent, and the
nodes in its contexts and in `ids`, the ones a visit has in hand, are nodes of
the graph. `Building ids gap s` adds that the graph has a gap exactly when
`gap` holds.

`Appends gap need m gives` is the specification of an action: given the nodes
`need`, it keeps every other node, returns the nodes `gives`, and makes a gap
exactly when `gap` holds; an exception leaves a sound state. A specification of
a sequence is put together from those of its parts by `Appends.bind`.
-/

namespace DistStorage

namespace Parse

open Cpp Query QueryGraph

/-- The invariant of a visitor with the nodes `ids` in hand. -/
structure VisitorState.Sound (ids : List ℤ) (s : VisitorState) : Prop where
  coherent : s.outGraph.Coherent
  nodes : ∀ i ∈ ids, s.outGraph.Valid i
  files : ∀ i ∈ s.fileTableContext.values, s.outGraph.Valid i
  ctes : ∀ i ∈ s.withTableContext.values, s.outGraph.Valid i
  vars : ∀ i ∈ s.exprVarContext.values, s.outGraph.Valid i

/-- The invariant, with what is known about gaps. -/
def Building (ids : List ℤ) (gap : Prop) (s : VisitorState) : Prop :=
  s.Sound ids ∧ (s.outGraph.HasGap ↔ gap)

/-- The specification of an action that appends nodes. -/
def Appends {α : Type} (gap : Prop) (need : List ℤ) (m : Visit α) (gives : α → List ℤ) : Prop :=
  ∀ ids g, need ⊆ ids →
    Action.Triple (Building ids g) m (fun a => Building (gives a ++ ids) (g ∨ gap))
      (fun _ => VisitorState.Sound ids)

/-- The specification of an action whose returned nodes do not matter. -/
def Runs {α : Type} (m : Visit α) : Prop :=
  ∀ ids, Action.Triple (VisitorState.Sound ids) m (fun _ => VisitorState.Sound ids)
    (fun _ => VisitorState.Sound ids)

/-- The specification of the visit of an expression: it may return no node, and
no gap was made when it returns one. -/
def Visits (m : Visit Any) : Prop :=
  ∀ ids g, Action.Triple (Building ids g) m
    (fun a s => s.Sound ids ∧ ∀ i, a = some i → Building (i :: ids) g s)
    (fun _ => VisitorState.Sound ids)

theorem VisitorState.Sound.subset {ids ids' : List ℤ} {s : VisitorState} (h : s.Sound ids')
    (hsub : ids ⊆ ids') : s.Sound ids :=
  ⟨h.coherent, fun i hi => h.nodes i (hsub hi), h.files, h.ctes, h.vars⟩

theorem VisitorState.sound_start : ({} : VisitorState).Sound [] where
  coherent := coherent_empty
  nodes := by simp
  files := by simp
  ctes := by simp
  vars := by simp

theorem Building.subset {ids ids' : List ℤ} {gap : Prop} {s : VisitorState}
    (h : Building ids' gap s) (hsub : ids ⊆ ids') : Building ids gap s :=
  ⟨h.1.subset hsub, h.2⟩

theorem VisitorState.Sound.graph {ids : List ℤ} {s : VisitorState} (h : s.Sound ids)
    {g : QueryGraph} (hcoherent : g.Coherent) (hsize : s.outGraph.size ≤ g.size) :
    ({ s with outGraph := g } : VisitorState).Sound ids := by
  have hvalid : ∀ i, s.outGraph.Valid i → g.Valid i := fun i hi =>
    ⟨hi.1, hi.2.trans_le (by exact_mod_cast hsize)⟩
  exact ⟨hcoherent, fun i hi => hvalid i (h.nodes i hi), fun i hi => hvalid i (h.files i hi),
    fun i hi => hvalid i (h.ctes i hi), fun i hi => hvalid i (h.vars i hi)⟩

namespace Appends

variable {α β : Type} {gap gap' : Prop} {need need' : List ℤ} {m : Visit α}
  {q : α → List ℤ} {r : β → List ℤ} {f : α → Visit β}

theorem congr (h : Appends gap need m q) (hgap : gap ↔ gap') : Appends gap' need m q := by
  rwa [propext hgap] at h

theorem weaken (h : Appends gap need m q) (hsub : need ⊆ need') : Appends gap need' m q :=
  fun ids g hneed => h ids g (List.Subset.trans hsub hneed)

theorem of_nil (h : Appends gap [] m q) : Appends gap need m q :=
  h.weaken (List.nil_subset need)

protected theorem pure {a : α} (h : q a ⊆ need) : Appends False need (pure a) q := by
  intro ids g hneed
  refine Action.Triple.pure a fun s hs => ?_
  rw [or_false]
  exact hs.subset (List.append_subset.mpr ⟨List.Subset.trans h hneed, List.Subset.refl ids⟩)

protected theorem throw (e : Exception) : Appends gap need (Action.throw e) q :=
  fun _ _ _ => Action.Triple.throw e fun _ hs => hs.1

/-- What an action does after another one, without the nodes of the first. -/
theorem after {a : α} (hf : Appends gap' (q a ++ need) (f a) r) {ids : List ℤ} {g : Prop}
    (hneed : need ⊆ ids) :
    Action.Triple (Building (q a ++ ids) (g ∨ gap)) (f a)
      (fun b => Building (r b ++ ids) (g ∨ (gap ∨ gap'))) (fun _ => VisitorState.Sound ids) := by
  refine (hf (q a ++ ids) (g ∨ gap) ?_).consequence (fun _ hs => hs) ?_ ?_
  · exact List.append_subset.mpr ⟨List.subset_append_left _ _,
      List.subset_append_of_subset_right _ hneed⟩
  · intro b s hs
    rw [or_assoc] at hs
    exact hs.subset (List.append_subset.mpr ⟨List.subset_append_left _ _,
      List.subset_append_of_subset_right _ (List.subset_append_right _ _)⟩)
  · exact fun _ s hs => hs.subset (List.subset_append_right _ _)

protected theorem bind (hm : Appends gap need m q)
    (hf : ∀ a, Appends gap' (q a ++ need) (f a) r) : Appends (gap ∨ gap') need (m >>= f) r :=
  fun ids g hneed => (hm ids g hneed).bind fun a => (hf a).after hneed

/-- A sequence whose first action makes no gap. -/
theorem seq (hm : Appends False need m q) (hf : ∀ a, Appends gap (q a ++ need) (f a) r) :
    Appends gap need (m >>= f) r :=
  (hm.bind hf).congr (or_iff_right id)

/-- A sequence whose rest may use what is known of the first returned value. -/
theorem seq_of {p : α → Prop} (hm : Appends False need m q)
    (hp : ∀ {s t : VisitorState} {a : α}, m s = .returned a t → p a)
    (hf : ∀ a, p a → Appends gap (q a ++ need) (f a) r) : Appends gap need (m >>= f) r := by
  have hor : (False ∨ gap) ↔ gap := or_iff_right id
  refine congr (fun ids g hneed => ?_) hor
  refine ((hm ids g hneed).of_returned hp).bind fun a s hs => ?_
  exact (hf a hs.1).after hneed s hs.2

/-- A specification may use that the nodes it needs are not the absent one. -/
theorem of_present (h : (∀ i ∈ need, i ≠ nodeNone) → Appends gap need m q) :
    Appends gap need m q :=
  fun ids g hneed s hs =>
    h (fun i hi => ne_nodeNone_of_valid (hs.1.nodes i (hneed hi))) ids g hneed s hs

theorem get_bind {f : VisitorState → Visit β}
    (h : ∀ s : VisitorState, s.Sound need → ∃ more : List ℤ,
      (∀ i ∈ more, s.outGraph.Valid i) ∧ Appends gap (more ++ need) (f s) r) :
    Appends gap need (Action.get >>= f) r := by
  intro ids g hneed
  refine Action.Triple.get_bind fun s hs => ?_
  obtain ⟨more, hmore, hf⟩ := h s (hs.1.subset hneed)
  refine (hf (more ++ ids) g ?_).consequence ?_ ?_ ?_
  · exact List.append_subset.mpr ⟨List.subset_append_left _ _,
      List.subset_append_of_subset_right _ hneed⟩
  · rintro t rfl
    refine ⟨⟨hs.1.coherent, ?_, hs.1.files, hs.1.ctes, hs.1.vars⟩, hs.2⟩
    exact fun i hi => (List.mem_append.mp hi).elim (hmore i) (hs.1.nodes i)
  · exact fun a t ht => ht.subset (List.append_subset.mpr ⟨List.subset_append_left _ _,
      List.subset_append_of_subset_right _ (List.subset_append_right _ _)⟩)
  · exact fun _ t ht => ht.subset (List.subset_append_right _ _)

theorem ofOption_bind {o : Option α} (h : ∀ a, o = some a → Appends gap need (f a) r) :
    Appends gap need (Action.ofOption o >>= f) r :=
  fun ids g hneed => Action.Triple.ofOption_bind fun a ha => h a ha ids g hneed

theorem modify {φ : VisitorState → VisitorState}
    (h : ∀ ids s, need ⊆ ids → s.Sound ids → (φ s).Sound ids)
    (hgraph : ∀ s, (φ s).outGraph = s.outGraph) :
    Appends False need (Action.modify φ) fun _ => [] := by
  intro ids g hneed
  refine Action.Triple.modify fun s hs => ⟨h ids s hneed hs.1, ?_⟩
  rw [hgraph, or_false]
  exact hs.2

theorem runs (h : Appends gap [] m q) : Runs m := by
  intro ids s hs
  refine (h ids s.outGraph.HasGap (List.nil_subset ids)).consequence ?_
    (fun a t ht => ht.1.subset (List.subset_append_right _ _)) (fun _ _ ht => ht) s (Eq.refl s)
  rintro t rfl
  exact ⟨hs, Iff.rfl⟩

theorem build {f : QueryGraph → ℤ × QueryGraph}
    (h : ∀ g : QueryGraph, g.Coherent → (∀ i ∈ need, g.Valid i) → g.Adds gap (f g)) :
    Appends gap need (build f) fun i => [i] := by
  intro ids g hneed
  refine Action.Triple.get_bind fun s hs => ?_
  have hadds := h s.outGraph hs.1.coherent fun i hi => hs.1.nodes i (hneed hi)
  refine Action.Triple.modify_bind (Action.Triple.pure _ ?_)
  rintro t rfl
  have hsound := hs.1.graph hadds.coherent hadds.size_le
  refine ⟨⟨hsound.coherent, ?_, hsound.files, hsound.ctes, hsound.vars⟩, ?_⟩
  · intro i hi
    rcases List.mem_cons.mp hi with rfl | hi
    · exact hadds.valid
    · exact hsound.nodes i hi
  · exact hadds.hasGap.trans (or_congr_left hs.2)

theorem appendNode {op : ColumnOperation} (hop : op ≠ .CONST) (df : ℤ) (type : ValueType)
    {args : List ℤ} (hargs : args ⊆ need) :
    Appends False need (Parse.build fun g => g.appendNode df op type args) fun i => [i] := by
  refine of_present fun hpresent => ?_
  have hgap : ¬ nodeNone ∈ args := fun hnone => hpresent nodeNone (hargs hnone) rfl
  refine (build fun g hg hneed => ?_).congr (iff_false_intro hgap)
  exact appendNode_adds hg df hop type fun c hc => .inr (hneed c (hargs hc))

end Appends

theorem Appends.toAny {gap : Prop} {need : List ℤ} {m : Visit ℤ}
    (h : Appends gap need m fun i => [i]) : Appends gap need (toAny m) Option.toList :=
  (h.bind fun _ => Appends.pure (List.subset_append_left _ _)).congr (or_iff_left id)

theorem Appends.castNode {gap : Prop} {need : List ℤ} {m : Visit Any}
    (h : Appends gap need m Option.toList) : Appends gap need (castNode m) fun i => [i] := by
  refine (h.bind fun a => ?_).congr (or_iff_left id)
  cases a with
  | none => exact Appends.throw .badAnyCast
  | some i => exact Appends.pure (List.subset_append_left _ _)

namespace Visits

theorem of_appends {m : Visit Any} (h : Appends False [] m Option.toList) : Visits m := by
  intro ids g
  refine (h ids g (List.nil_subset ids)).consequence (fun _ hs => hs) ?_ (fun _ _ hs => hs)
  intro a s hs
  rw [or_false] at hs
  refine ⟨hs.1.subset (List.subset_append_right _ _), ?_⟩
  rintro i rfl
  exact hs

theorem castNode {m : Visit Any} (h : Visits m) : Appends False [] (castNode m) fun i => [i] := by
  intro ids g _
  refine (h ids g).bind fun a => ?_
  cases a with
  | none =>
      refine Action.Triple.throw Exception.badAnyCast ?_
      exact fun _ hs => hs.1
  | some i =>
      refine Action.Triple.pure i fun s hs => ?_
      rw [or_false]
      exact hs.2 i rfl

theorem runs {m : Visit Any} (h : Visits m) : Runs m := by
  intro ids s hs
  refine (h ids s.outGraph.HasGap).consequence ?_ (fun a t ht => ht.1) (fun _ _ ht => ht) s
    (Eq.refl s)
  rintro t rfl
  exact ⟨hs, Iff.rfl⟩

end Visits

/-- The specification of a default visit, which returns nothing. -/
def VisitsNothing (m : Visit Any) : Prop :=
  ∀ ids, Action.Triple (VisitorState.Sound ids) m (fun a s => a = none ∧ s.Sound ids)
    (fun _ => VisitorState.Sound ids)

namespace VisitsNothing

protected theorem pure : VisitsNothing (pure none) :=
  fun _ => Action.Triple.pure none fun _ hs => ⟨rfl, hs⟩

protected theorem bind {α : Type} {m : Visit α} {f : α → Visit Any} (hm : Runs m)
    (hf : ∀ a, VisitsNothing (f a)) : VisitsNothing (m >>= f) :=
  fun ids => (hm ids).bind fun a => hf a ids

theorem visits {m : Visit Any} (h : VisitsNothing m) : Visits m := by
  intro ids g
  refine (h ids).consequence (fun _ hs => hs.1) ?_ (fun _ _ hs => hs)
  rintro a s ⟨rfl, hs⟩
  exact ⟨hs, fun i hi => absurd hi (by simp)⟩

end VisitsNothing

end Parse

end DistStorage
