import DistStorage.Parse.Origins

/-!
# The names that a select statement leaves

The nodes of a table are shared by all select statements over it, and an alias
is written into the node: that of a column in the select list, or that of a
relation without a name. A later select statement over the same table or common
table expression, or one inside the statement, then reads the alias. No node
from before a statement ever has another name exactly when no alias is written
to one that has another: the aliases of what is not a column go to new nodes.
-/

namespace DistStorage

namespace Parse

open Cpp Cpp.Action Query QueryGraph

def NamesKept (s t : VisitorState) : Prop :=
  ∀ i name, s.outGraph.getNodeName i = some name → t.outGraph.getNodeName i = some name

/-- The states before the events and the one in the end. -/
def points (es : List Event) (t : VisitorState) : List VisitorState :=
  es.map Event.before ++ [t]

/-- The alias of an item or a relation whose node the contexts have at `i`. -/
def Event.aliasOf (i : ℤ) (e : Event) : Option Bytes :=
  match e.step with
  | .name origin name => if origin.node e.before = some i then some name else none
  | _ => none

/-- The alias goes to a node of `s` that has another name there. -/
def Event.renames (s : VisitorState) (e : Event) : Bool :=
  match e.step with
  | .name origin name =>
      (origin.node e.before).any fun i => (s.outGraph.getNodeName i).any fun old => old ≠ name
  | _ => false

def lastAlias (es : List Event) (i : ℤ) : Option Bytes :=
  (es.filterMap (Event.aliasOf i)).getLast?

theorem lastAlias_append (es es' : List Event) (i : ℤ) :
    lastAlias (es ++ es') i = (lastAlias es' i).or (lastAlias es i) := by
  rw [lastAlias, List.filterMap_append, List.getLast?_append]
  rfl

theorem lastAlias_singleton (e : Event) (i : ℤ) : lastAlias [e] i = e.aliasOf i := by
  cases h : e.aliasOf i <;> simp [lastAlias, h]

theorem mem_aliasOf_of_lastAlias {es : List Event} {i : ℤ} {name : Bytes}
    (h : lastAlias es i = some name) : ∃ e ∈ es, e.aliasOf i = some name :=
  List.mem_filterMap.mp (List.mem_of_getLast? h)

theorem renames_iff {s : VisitorState} {e : Event} : e.renames s = true ↔
    ∃ i old name, s.outGraph.getNodeName i = some old ∧ e.aliasOf i = some name ∧ name ≠ old := by
  unfold Event.renames Event.aliasOf
  cases e.step with
  | name origin name =>
      simp only [Option.any_eq_true, decide_eq_true_eq]
      constructor
      · rintro ⟨i, hi, old, hold, hne⟩
        exact ⟨i, old, name, hold, if_pos hi, hne.symm⟩
      · rintro ⟨i, old, name', hold, halias, hne⟩
        split_ifs at halias with hi
        obtain rfl := Option.some.inj halias
        exact ⟨i, hi, old, hold, hne.symm⟩
  | _ => simp

section Names

variable {g g' : QueryGraph} {i : ℤ} {name : Bytes}

theorem index_of_prefix {l l' : List Bytes} (h : l <+: l') {k : ℤ}
    (hk : Cpp.index l k = some name) : Cpp.index l' k = some name := by
  obtain ⟨r, rfl⟩ := h
  rw [Cpp.index_append_left _ _ ?_, hk]
  exact ((Cpp.index_isSome_iff l k).mp (by rw [hk]; rfl)).2

theorem getNodeName_growsBy {new : List (Operation × List ℤ)} (h : GrowsBy g new g')
    (hname : g.getNodeName i = some name) : g'.getNodeName i = some name := by
  obtain ⟨o, ho, hread⟩ := Option.bind_eq_some_iff.mp hname
  have ho' : Cpp.index g'.operations i = some o := by
    rw [h.graph_eq]
    change Cpp.index (g.operations ++ _) i = some o
    rw [Cpp.index_append_left _ _ ((Cpp.index_isSome_iff _ i).mp (by rw [ho]; rfl)).2, ho]
  rw [getNodeName, ho', Option.bind_some]
  split_ifs at hread ⊢
  · exact hread
  · exact index_of_prefix h.names_prefix hread

theorem getNodeName_setNodeName {nodeId : ℤ} {c : Bytes}
    (hset : g.setNodeName nodeId c = some g') (hname : g.getNodeName i = some name) :
    g'.getNodeName i = some (if nodeId = i then c else name) := by
  obtain ⟨o', -, rfl⟩ := Option.map_eq_some_iff.mp hset
  obtain ⟨o, ho, hread⟩ := Option.bind_eq_some_iff.mp hname
  have hnew : Cpp.index (g.names ++ [c]) (g.names.length : ℤ) = some c :=
    Cpp.index_append_length g.names [c] 0
  have hne : (g.names.length : ℤ) ≠ nodeNone := ne_nodeNone_of_nonneg (Nat.cast_nonneg _)
  change (Cpp.index (Cpp.modify g.operations nodeId _) i).bind _ = _
  rw [Cpp.index_modify, ho]
  split_ifs with hi
  · change (if (g.names.length : ℤ) = nodeNone then some [] else
      Cpp.index (g.names ++ [c]) (g.names.length : ℤ)) = _
    rw [if_neg hne, hnew]
  · rw [Option.bind_some]
    split_ifs at hread ⊢
    · exact hread
    · exact index_of_prefix (List.prefix_append _ _) hread

end Names

/-- Along the events the node `i` has its first name until it is given an alias,
and then its last one. -/
def NamesAlong (i : ℤ) (s : VisitorState) (es : List Event) (t : VisitorState) : Prop :=
  ∀ c, s.outGraph.getNodeName i = some c → ∀ k w, (points es t)[k]? = some w →
    w.outGraph.getNodeName i = some ((lastAlias (es.take k) i).getD c)

namespace NamesAlong

variable {i : ℤ} {s t u : VisitorState} {es es' : List Event}

theorem nil (h : ∀ c, s.outGraph.getNodeName i = some c → t.outGraph.getNodeName i = some c) :
    NamesAlong i s [] t := by
  intro c hc k w hw
  obtain ⟨rfl, rfl⟩ : k = 0 ∧ t = w := by
    cases k with
    | zero => exact ⟨rfl, Option.some.inj hw⟩
    | succ k => cases hw
  exact h c hc

theorem last (h : NamesAlong i s es t) {c : Bytes} (hc : s.outGraph.getNodeName i = some c) :
    t.outGraph.getNodeName i = some ((lastAlias es i).getD c) := by
  have hlast := h c hc es.length t (by simp [points])
  rwa [List.take_length] at hlast

theorem trans (h : NamesAlong i s es u) (h' : NamesAlong i u es' t) :
    NamesAlong i s (es ++ es') t := by
  intro c hc k w hw
  rw [points, List.map_append, List.append_assoc] at hw
  by_cases hk : k < es.length
  · rw [List.getElem?_append_left (by simpa using hk)] at hw
    rw [List.take_append_of_le_length hk.le]
    refine h c hc k w ?_
    rwa [points, List.getElem?_append_left (by simpa using hk)]
  · rw [List.getElem?_append_right (by simpa using hk), List.length_map] at hw
    rw [h' _ (h.last hc) _ w hw, List.take_append, List.take_of_length_le (not_lt.mp hk),
      lastAlias_append]
    cases lastAlias (es'.take (k - es.length)) i <;> rfl

theorem record {step : Step} (h : ∀ c, s.outGraph.getNodeName i = some c →
      t.outGraph.getNodeName i = some ((Event.aliasOf i ⟨step, s⟩).getD c)) :
    NamesAlong i s (record step s) t := by
  intro c hc k w hw
  rcases k with _ | _ | k
  · obtain rfl := Option.some.inj hw
    exact hc
  · obtain rfl := Option.some.inj hw
    exact (h c hc).trans (by rw [← lastAlias_singleton]; rfl)
  · cases hw

end NamesAlong

theorem names_traced (env : Environment) {s₀ : VisitorState} {i : ℤ}
    (hi : i < s₀.outGraph.size) : Traced env (fun s es t => s₀.outGraph.size ≤ s.outGraph.size →
      s₀.outGraph.size ≤ t.outGraph.size ∧ NamesAlong i s es t) Unbound where
  refl s hs := ⟨hs, .nil fun _ => id⟩
  trans h h' hs := ⟨(h' (h hs).1).1, (h hs).2.trans (h' (h hs).1).2⟩
  grow := by
    rintro s es t ⟨new, g, hnew, -, rfl⟩ hs
    exact ⟨hs.trans hnew.growsBy.keepsNodes.size_le,
      .nil fun _ => getNodeName_growsBy hnew.growsBy⟩
  construct s node new g hnew _ _ _ hs :=
    ⟨hs.trans hnew.growsBy.keepsNodes.size_le, .record fun _ => getNodeName_growsBy hnew.growsBy⟩
  unite := by
    rintro s es t ⟨new, g, hnew, -, rfl⟩ hs
    exact ⟨hs.trans hnew.growsBy.keepsNodes.size_le,
      .record fun _ => getNodeName_growsBy hnew.growsBy⟩
  lookup s name t h hs := by
    rcases findOrInsertTable_leaves h with rfl | ⟨schema, -, -, rfl⟩
    · exact ⟨hs, .record fun _ => id⟩
    · have hgrows := insertTable_growsBy s.outGraph schema
      exact ⟨hs.trans hgrows.keepsNodes.size_le, .record fun _ => getNodeName_growsBy hgrows⟩
  enter s es u relation tableNodeId t hu _ h hs := by
    obtain ⟨tableAlias, ctx, -, -, rfl⟩ := enterTable_leaves h
    exact ⟨(hu hs).1, (hu hs).2.trans (.record fun _ => id)⟩
  name s es u origin nodeId name t hu hgives h hs := by
    obtain ⟨g, hg, rfl⟩ := setName_leaves h
    refine ⟨(hu hs).1.trans (setNodeName_keepsNodes hg).size_le,
      (hu hs).2.trans (.record fun c hc => (getNodeName_setNodeName hg hc).trans ?_)⟩
    rw [Event.aliasOf]
    rcases hgives.node with hnode | ⟨rfl, hnew⟩
    · dsimp only
      rw [hnode]
      simp only [Option.some.injEq]
      split_ifs <;> rfl
    · -- What the visit made is not the node `i`.
      have hne : nodeId ≠ i := by omega
      rw [if_neg hne]
      rfl
  select s es t h hs := by
    obtain ⟨ht, hnames⟩ := h hs
    have hselect : NamesAlong i s (record .select s) (enterSelect s) := .record fun _ => id
    have hleave : NamesAlong i t [] (leaveSelect s t) := .nil fun _ => id
    exact ⟨ht, by simpa using hselect.trans (hnames.trans hleave)⟩

/-- No node from before a select statement has another name at any point of its
visit exactly when no alias goes to one that has another. After the visit they
have their names exactly when the last alias of each, if any, is its name. -/
theorem namesKept_iff (env : Environment) (x : SelectStatement) (s t : VisitorState)
    (h : Leaves (visitSelectStatement env x) s t) :
    ((∀ w ∈ points (x.events env s) t, NamesKept s w) ↔
      ∀ e ∈ x.events env s, e.renames s = false) ∧
    (NamesKept s t ↔ ∀ i old, s.outGraph.getNodeName i = some old →
      ∀ name, lastAlias (x.events env s) i = some name → name = old) := by
  have hnames : ∀ i old, s.outGraph.getNodeName i = some old →
      NamesAlong i s (x.events env s) t := fun i old hold =>
    ((visitSelectStatement_follows (names_traced env (lt_size_of_getNodeName hold)) x s).leaves t h
      le_rfl).2
  constructor
  · constructor
    · intro hkept e he
      by_contra hrenames
      obtain ⟨i, old, name, hold, halias, hne⟩ :=
        renames_iff.mp (Bool.eq_true_of_not_eq_false hrenames)
      obtain ⟨es, es', hes⟩ := List.append_of_mem he
      -- The state after the alias has it as the name.
      obtain ⟨w, hw⟩ : ∃ w, (points (x.events env s) t)[es.length + 1]? = some w := by
        refine ⟨_, List.getElem?_eq_getElem ?_⟩
        simp [points, hes]
      have hname := hnames i old hold old hold _ w hw
      have htake : (x.events env s).take (es.length + 1) = es ++ [e] := by
        rw [hes, List.take_append, List.take_of_length_le (Nat.le_succ _)]
        simp
      rw [htake, lastAlias_append, lastAlias_singleton, halias, Option.some_or, Option.getD_some,
        hkept w (List.mem_of_getElem? hw) i old hold] at hname
      exact hne (Option.some.inj hname).symm
    · intro hnone w hw i old hold
      obtain ⟨k, hk⟩ := List.mem_iff_getElem?.mp hw
      rw [hnames i old hold old hold k w hk]
      cases hname : lastAlias ((x.events env s).take k) i with
      | none => rfl
      | some name =>
          obtain ⟨e, he, halias⟩ := mem_aliasOf_of_lastAlias hname
          have hsame : name = old := by
            by_contra hne
            have hrenames := renames_iff.mpr ⟨i, old, name, hold, halias, hne⟩
            rw [hnone e (List.mem_of_mem_take he)] at hrenames
            cases hrenames
          rw [hsame, Option.getD_some]
  · constructor
    · intro hkept i old hold name hname
      have hlast := (hnames i old hold).last hold
      rw [hkept i old hold, hname, Option.getD_some] at hlast
      exact (Option.some.inj hlast).symm
    · intro hlast i old hold
      rw [(hnames i old hold).last hold]
      cases hname : lastAlias (x.events env s) i with
      | none => rfl
      | some name => rw [Option.getD_some, hlast i old hold name hname]

def selectAs (aliasName : Option Bytes) : SelectStatement :=
  .mk (.expression (.ofPrimary (.columnExpr none (bytes "a"))) aliasName) []
    (some (.mk (.table (bytes "t") none) [])) none [] [] none none

def selectRestated : SelectStatement :=
  .mk (.expression (.ofPrimary (.columnExpr none (bytes "a"))) (some (bytes "a")))
    [.expression (.ofInt "1") (some (bytes "b"))]
    (some (.mk (.table (bytes "t") none) [])) none [] [] none none

/-- An alias that is the name of the column, and one of a literal, keep the
names. -/
theorem namesKept_iff_sample : ∃ s t,
    Leaves (visitSelectStatement sampleEnvironment (selectAs none)) {} s ∧
      Leaves (visitSelectStatement sampleEnvironment selectRestated) s t ∧
      s.outGraph.getNodeName 0 = some (bytes "a") ∧
      lastAlias (selectRestated.events sampleEnvironment s) 0 = some (bytes "a") ∧
      ∀ w ∈ points (selectRestated.events sampleEnvironment s) t, NamesKept s w := by
  have hrun : (visitSelectStatement sampleEnvironment (selectAs none) {}).returns fun _ s =>
      (visitSelectStatement sampleEnvironment selectRestated s).returns fun _ _ =>
        s.outGraph.getNodeName 0 = some (bytes "a") &&
          lastAlias (selectRestated.events sampleEnvironment s) 0 = some (bytes "a") &&
          (selectRestated.events sampleEnvironment s).all fun e => !e.renames s := by
    decide +kernel
  obtain ⟨a, s, hs, hrun⟩ := Outcome.exists_of_returns hrun
  obtain ⟨b, t, ht, hrun⟩ := Outcome.exists_of_returns hrun
  simp only [Bool.and_eq_true, decide_eq_true_eq, List.all_eq_true, Bool.not_eq_true'] at hrun
  obtain ⟨⟨hname, halias⟩, hnone⟩ := hrun
  exact ⟨s, t, .returned a hs, .returned b ht, hname, halias,
    (namesKept_iff sampleEnvironment selectRestated s t (.returned b ht)).1.mpr hnone⟩

/-- After `SELECT a AS x FROM t` the column `a` is not found any more. -/
theorem name_replaced : ∃ s t,
    Leaves (visitSelectStatement sampleEnvironment (selectAs none)) {} s ∧
      Leaves (visitSelectStatement sampleEnvironment (selectAs (some (bytes "x")))) s t ∧
      ¬NamesKept s t ∧ (∃ u, visitSelectStatement sampleEnvironment (selectAs none) t =
        .thrown (.sqlCompileError (bytes "Unknown identifier: a")) u) := by
  have hrun : (visitSelectStatement sampleEnvironment (selectAs none) {}).returns fun _ s =>
      (visitSelectStatement sampleEnvironment (selectAs (some (bytes "x"))) s).returns fun _ t =>
        s.outGraph.getNodeName 0 = some (bytes "a") &&
          t.outGraph.getNodeName 0 = some (bytes "x") &&
          match visitSelectStatement sampleEnvironment (selectAs none) t with
          | .thrown e _ => e = .sqlCompileError (bytes "Unknown identifier: a")
          | _ => false := by
    decide +kernel
  obtain ⟨a, s, hs, hrun⟩ := Outcome.exists_of_returns hrun
  obtain ⟨b, t, ht, hrun⟩ := Outcome.exists_of_returns hrun
  rw [Bool.and_eq_true, Bool.and_eq_true, decide_eq_true_eq, decide_eq_true_eq] at hrun
  obtain ⟨⟨hbefore, hafter⟩, hthrown⟩ := hrun
  refine ⟨s, t, .returned a hs, .returned b ht, fun hkept => ?_, ?_⟩
  · rw [hkept 0 _ hbefore] at hafter
    exact absurd hafter (by decide)
  · cases hu : visitSelectStatement sampleEnvironment (selectAs none) t with
    | thrown e u =>
        rw [hu] at hthrown
        obtain rfl := of_decide_eq_true hthrown
        exact ⟨u, rfl⟩
    | returned a u =>
        rw [hu] at hthrown
        cases hthrown
    | undefined =>
        rw [hu] at hthrown
        cases hthrown

end Parse

end DistStorage
