import DistStorage.Cpp.Logged
import DistStorage.Query.Visited

/-!
# The calls of `fillVisited`

`fillVisited` has one array for all of its calls, so a call made for one child hides
nodes from the calls for the children after it. `visitCalls` is the recursion of
`fillVisited` and notes the node of every call. Also on a graph with cycles no node is
called for twice, which bounds the depth of the calls by the number of nodes; what can
go wrong is that a number, one more at every level, exceeds an `int`.
-/

namespace DistStorage

namespace Query

open Cpp

/-- `fillVisitedFuel`, with the nodes of the calls noted. -/
def visitCalls (graphMapping : List (List ℤ)) : ℕ → List ℤ → ℤ → ℤ → Logged ℤ (List ℤ)
  | 0, _, _, _ => Logged.ofOption none
  | fuel + 1, visited, node, value => do
      Logged.note node
      let _ ← Logged.ofOption (index visited node)
      let children ← Logged.ofOption (index graphMapping node)
      children.foldlM (fun visited child => do
          let mark ← Logged.ofOption (index visited child)
          if mark = 0 then do
            let value ← Logged.ofOption (intSucc value)
            visitCalls graphMapping fuel visited child value
          else pure visited)
        (modify visited node fun _ => value)

def visitChild (graphMapping : List (List ℤ)) (fuel : ℕ) (value : ℤ) (visited : List ℤ)
    (child : ℤ) : Logged ℤ (List ℤ) := do
  let mark ← Logged.ofOption (index visited child)
  if mark = 0 then do
    let value ← Logged.ofOption (intSucc value)
    visitCalls graphMapping fuel visited child value
  else pure visited

/-- A run on `visited` calls for nodes that are not visited, for none of them twice, and
visits the nodes that it calls for. -/
structure VisitedOnce (visited : List ℤ) (run : Logged ℤ (List ℤ)) : Prop where
  nodup : run.log.Nodup
  fresh : ∀ i ∈ run.log, mark visited i = 0
  kept : ∀ visited', run.value = some visited' → ∀ i, mark visited i ≠ 0 → mark visited' i ≠ 0
  called : ∀ visited', run.value = some visited' → ∀ i ∈ run.log, mark visited' i ≠ 0

section Once

variable {visited : List ℤ}

theorem VisitedOnce.pure : VisitedOnce visited (Pure.pure visited) where
  nodup := List.nodup_nil
  fresh _ hi := absurd hi List.not_mem_nil
  kept visited' hvalue i hi := by
    obtain rfl := Option.some.inj hvalue
    exact hi
  called _ _ _ hi := absurd hi List.not_mem_nil

theorem VisitedOnce.ofOption_bind {α : Type} {o : Option α} {f : α → Logged ℤ (List ℤ)}
    (h : ∀ a, o = some a → VisitedOnce visited (f a)) :
    VisitedOnce visited (Logged.ofOption o >>= f) := by
  cases o with
  | none => exact ⟨List.nodup_nil, fun _ hi => absurd hi List.not_mem_nil, nofun, nofun⟩
  | some a => exact h a rfl

theorem VisitedOnce.bind {m : Logged ℤ (List ℤ)} {f : List ℤ → Logged ℤ (List ℤ)}
    (hm : VisitedOnce visited m)
    (hf : ∀ visited', m.value = some visited' → VisitedOnce visited' (f visited')) :
    VisitedOnce visited (m >>= f) := by
  cases hvalue : m.value with
  | none =>
      have hlog : (m >>= f).log = m.log := by
        change m.log ++ m.value.elim [] (fun a => (f a).log) = _
        rw [hvalue, Option.elim_none, List.append_nil]
      have hnone : (m >>= f).value = none := by rw [Logged.value_bind, hvalue, Option.bind_none]
      refine ⟨hlog ▸ hm.nodup, hlog ▸ hm.fresh, fun _ h => ?_, fun _ h => ?_⟩
      all_goals
        rw [hnone] at h
        cases h
  | some visited' =>
      obtain ⟨hnodup, hfresh, hkept, hcalled⟩ := hf visited' hvalue
      have hlog := Logged.log_bind_of_value hvalue f
      have hbind : (m >>= f).value = (f visited').value := by
        rw [Logged.value_bind, hvalue, Option.bind_some]
      refine ⟨?_, ?_, ?_, ?_⟩
      · rw [hlog]
        refine List.nodup_append.mpr ⟨hm.nodup, hnodup, fun i hi j hj hij => ?_⟩
        exact hm.called visited' hvalue i hi (hij ▸ hfresh j hj)
      · intro i hi
        rw [hlog, List.mem_append] at hi
        rcases hi with hi | hi
        · exact hm.fresh i hi
        · by_contra hvisited
          exact hm.kept visited' hvalue i hvisited (hfresh i hi)
      · intro visited'' hvalue'' i hi
        rw [hbind] at hvalue''
        exact hkept visited'' hvalue'' i (hm.kept visited' hvalue i hi)
      · intro visited'' hvalue'' i hi
        rw [hbind] at hvalue''
        rw [hlog, List.mem_append] at hi
        rcases hi with hi | hi
        · exact hkept visited'' hvalue'' i (hm.called visited' hvalue i hi)
        · exact hcalled visited'' hvalue'' i hi

theorem VisitedOnce.foldlM {body : List ℤ → ℤ → Logged ℤ (List ℤ)} {l : List ℤ}
    (hbody : ∀ visited, ∀ c ∈ l, VisitedOnce visited (body visited c)) :
    VisitedOnce visited (l.foldlM body visited) := by
  induction l generalizing visited with
  | nil => exact .pure
  | cons c l ih =>
      rw [List.foldlM_cons]
      exact (hbody visited c List.mem_cons_self).bind fun visited' _ =>
        ih fun visited c' hc' => hbody visited c' (List.mem_cons_of_mem c hc')

theorem mark_modify {node value : ℤ} {m : ℤ} (hm : index visited node = some m) (i : ℤ) :
    mark (modify visited node fun _ => value) i = if node = i then value else mark visited i := by
  rw [mark, index_modify]
  split_ifs with hi
  · rw [← hi, hm]
    rfl
  · rfl

/-- A call visits its node, and then all is done on the array with the node visited. -/
theorem VisitedOnce.call {node value m : ℤ} {rest : Logged ℤ (List ℤ)}
    (hmark : mark visited node = 0) (hvalue : value ≠ 0) (hm : index visited node = some m)
    (h : VisitedOnce (modify visited node fun _ => value) rest) :
    VisitedOnce visited (Logged.note node >>= fun _ => rest) := by
  have hlog : (Logged.note node >>= fun _ => rest).log = node :: rest.log := rfl
  have hother : ∀ i ∈ rest.log, node ≠ i ∧ mark visited i = 0 := by
    intro i hi
    have hfresh := h.fresh i hi
    rw [mark_modify hm] at hfresh
    split_ifs at hfresh with hnode
    · exact absurd hfresh hvalue
    · exact ⟨hnode, hfresh⟩
  refine ⟨?_, ?_, ?_, ?_⟩
  · rw [hlog]
    exact List.nodup_cons.mpr ⟨fun hnode => (hother node hnode).1 rfl, h.nodup⟩
  · rw [hlog]
    exact List.forall_mem_cons.mpr ⟨hmark, fun i hi => (hother i hi).2⟩
  · intro visited' hvalue' i hi
    refine h.kept visited' hvalue' i ?_
    rw [mark_modify hm]
    split_ifs
    · exact hvalue
    · exact hi
  · intro visited' hvalue'
    rw [hlog]
    refine List.forall_mem_cons.mpr ⟨h.kept visited' hvalue' node ?_, h.called visited' hvalue'⟩
    rw [mark_modify hm, if_pos rfl]
    exact hvalue

theorem VisitedOnce.call_none {node : ℤ} {rest : Logged ℤ (List ℤ)}
    (hmark : mark visited node = 0) (hlog : rest.log = []) (hrest : rest.value = none) :
    VisitedOnce visited (Logged.note node >>= fun _ => rest) := by
  have hlog' : (Logged.note node >>= fun _ => rest).log = [node] := congrArg (node :: ·) hlog
  have hvalue : (Logged.note node >>= fun _ => rest).value = none := hrest
  refine ⟨hlog' ▸ List.nodup_singleton node,
    hlog' ▸ List.forall_mem_singleton.mpr hmark, fun _ h => ?_, fun _ h => ?_⟩
  all_goals
    rw [hvalue] at h
    cases h

end Once

section Loop

variable {graphMapping : List (List ℤ)}

theorem visitCalls_succ (fuel : ℕ) {visited : List ℤ} {node : ℤ} (value : ℤ) :
    visitCalls graphMapping (fuel + 1) visited node value = Logged.note node >>= fun _ =>
      Logged.ofOption (index visited node) >>= fun _ =>
        Logged.ofOption (index graphMapping node) >>= fun children =>
          children.foldlM (visitChild graphMapping fuel value)
            (modify visited node fun _ => value) := rfl

theorem one_le_of_intSucc {value next : ℤ} (hnext : intSucc value = some next)
    (hvalue : 1 ≤ value) : 1 ≤ next := by
  rw [intSucc] at hnext
  split_ifs at hnext
  have hnext' := Option.some.inj hnext
  omega

theorem mark_eq_zero {visited : List ℤ} {c m : ℤ} (hm : index visited c = some m)
    (hzero : m = 0) : mark visited c = 0 := by
  rw [mark, hm, Option.getD_some, hzero]

theorem VisitedOnce.child {fuel : ℕ} {value : ℤ} (hvalue : 1 ≤ value)
    (hcalls : ∀ {visited : List ℤ} {node value : ℤ}, mark visited node = 0 → 1 ≤ value →
      VisitedOnce visited (visitCalls graphMapping fuel visited node value))
    (visited : List ℤ) (c : ℤ) :
    VisitedOnce visited (visitChild graphMapping fuel value visited c) := by
  refine .ofOption_bind fun m hm => ?_
  split_ifs with hzero
  · refine .ofOption_bind fun next hnext => ?_
    exact hcalls (mark_eq_zero hm hzero) (one_le_of_intSucc hnext hvalue)
  · exact .pure

/-- The node of a call is visited before its children are looked at. -/
theorem visitedOnce_visitCalls {fuel : ℕ} {visited : List ℤ} {node value : ℤ}
    (hmark : mark visited node = 0) (hvalue : 1 ≤ value) :
    VisitedOnce visited (visitCalls graphMapping fuel visited node value) := by
  induction fuel generalizing visited node value with
  | zero => exact ⟨List.nodup_nil, fun _ hi => absurd hi List.not_mem_nil, nofun, nofun⟩
  | succ fuel ih =>
      rw [visitCalls_succ]
      cases hm : index visited node with
      | none => exact .call_none hmark rfl rfl
      | some m =>
          cases hchildren : index graphMapping node with
          | none => exact .call_none hmark rfl rfl
          | some children =>
              exact .call hmark (by omega) hm
                (.foldlM fun visited c _ => .child hvalue ih visited c)

theorem value_visitCalls (fuel : ℕ) (visited : List ℤ) (node value : ℤ) :
    (visitCalls graphMapping fuel visited node value).value =
      fillVisitedFuel graphMapping fuel visited node value := by
  induction fuel generalizing visited node value with
  | zero => rfl
  | succ fuel ih =>
      rw [visitCalls_succ, Logged.value_bind, fillVisitedFuel]
      change (Logged.ofOption (index visited node) >>= fun _ => _).value = _
      rw [Logged.value_bind]
      refine Option.bind_congr fun _ _ => ?_
      rw [Logged.value_bind]
      refine Option.bind_congr fun children _ => ?_
      rw [Logged.value_foldlM]
      congr 1
      funext visited c
      rw [visitChild, Logged.value_bind]
      refine Option.bind_congr fun m _ => ?_
      split_ifs
      · rw [Logged.value_bind]
        exact Option.bind_congr fun next _ => ih visited c next
      · rfl

def unvisited (graphMapping : List (List ℤ)) (visited : List ℤ) : ℕ :=
  ((nodeSet graphMapping).filter fun i => mark visited i = 0).card

theorem unvisited_le {visited visited' : List ℤ}
    (h : ∀ i, mark visited i ≠ 0 → mark visited' i ≠ 0) :
    unvisited graphMapping visited' ≤ unvisited graphMapping visited := by
  refine Finset.card_le_card fun i hi => ?_
  obtain ⟨hi, hzero⟩ := Finset.mem_filter.mp hi
  exact Finset.mem_filter.mpr ⟨hi, not_not.mp fun hne => h i hne hzero⟩

theorem unvisited_modify_lt {visited : List ℤ} {node value m : ℤ}
    (hnode : IsNode graphMapping node) (hm : index visited node = some m)
    (hmark : mark visited node = 0) (hvalue : value ≠ 0) :
    unvisited graphMapping (modify visited node fun _ => value) <
      unvisited graphMapping visited := by
  refine Finset.card_lt_card ((Finset.ssubset_iff_of_subset fun i hi => ?_).mpr ⟨node, ?_, ?_⟩)
  · obtain ⟨hi, hzero⟩ := Finset.mem_filter.mp hi
    rw [mark_modify hm] at hzero
    split_ifs at hzero
    · exact absurd hzero hvalue
    · exact Finset.mem_filter.mpr ⟨hi, hzero⟩
  · exact Finset.mem_filter.mpr ⟨mem_nodeSet.mpr hnode, hmark⟩
  · rw [Finset.mem_filter, mark_modify hm, if_pos rfl]
    exact fun h => hvalue h.2

/-- A call may go one level deeper for every node that is not visited, and does not use
more levels than that. -/
theorem visitCalls_succ_eq (hvalid : ValidEdges graphMapping) {fuel : ℕ} {visited : List ℤ}
    {node value : ℤ} (hnode : IsNode graphMapping node) (hmark : mark visited node = 0)
    (hvalue : 1 ≤ value) (hfuel : unvisited graphMapping visited < fuel) :
    visitCalls graphMapping (fuel + 1) visited node value =
      visitCalls graphMapping fuel visited node value := by
  induction fuel generalizing visited node value with
  | zero => omega
  | succ fuel ih =>
      rw [visitCalls_succ, visitCalls_succ]
      refine congrArg (Logged.note node >>= ·) (funext fun _ => ?_)
      refine Logged.bind_congr_of_value fun m hm => ?_
      refine Logged.bind_congr_of_value fun children hchildren => ?_
      have hm' : index visited node = some m := hm
      have hless := unvisited_modify_lt hnode hm' hmark (by omega : value ≠ 0)
      refine Logged.foldlM_congr (P := fun visited => unvisited graphMapping visited < fuel)
        (fun visited hvisited c hc => ?_) (fun visited hvisited c hc visited' hvisited' => ?_)
        (by omega)
      · refine Logged.bind_congr_of_value fun m hm => ?_
        split_ifs with hzero
        · refine Logged.bind_congr_of_value fun next hnext => ?_
          exact ih (hvalid children (mem_of_index hchildren) c hc) (mark_eq_zero hm hzero)
            (one_le_of_intSucc hnext hvalue) hvisited
        · rfl
      · have hchild : VisitedOnce visited (visitChild graphMapping fuel value visited c) :=
          .child hvalue visitedOnce_visitCalls visited c
        exact (unvisited_le (hchild.kept visited' hvisited')).trans_lt hvisited

theorem visitCalls_eq_of_lt (hvalid : ValidEdges graphMapping) {fuel : ℕ} {visited : List ℤ}
    {node value : ℤ} (hnode : IsNode graphMapping node) (hmark : mark visited node = 0)
    (hvalue : 1 ≤ value) (hfuel : graphMapping.length < fuel) :
    visitCalls graphMapping fuel visited node value =
      visitCalls graphMapping (graphMapping.length + 1) visited node value := by
  have hle : unvisited graphMapping visited ≤ graphMapping.length :=
    (Finset.card_filter_le _ _).trans card_nodeSet_le
  induction fuel, hfuel using Nat.le_induction with
  | base => rfl
  | succ fuel hfuel ih =>
      rw [visitCalls_succ_eq hvalid hnode hmark hvalue (by omega), ih]

end Loop

/-- The depths of a depth first search from the start. -/
def searchDepth (graphMapping : List (List ℤ)) (start : ℤ) : ℤ → Option ℕ :=
  Digraph.search (childList graphMapping) (graphMapping.length + 1) (fun _ => none) start 0

/-- The array after a run from the start. -/
structure Visits (graphMapping : List (List ℤ)) (start : ℤ) (visited : List ℤ) : Prop where
  reached : ∀ v, mark visited v ≠ 0 ↔
    Relation.ReflTransGen (Digraph.IsChild (childList graphMapping)) v start
  parent : ∀ v, v ≠ start → mark visited v ≠ 0 →
    ∃ p, mark visited p ≠ 0 ∧ v ∈ childList graphMapping p ∧
      mark visited v = mark visited p + 1

section Start

variable {graphMapping : List (List ℤ)} {start : ℤ}

theorem searched_searchDepth (hvalid : ValidEdges graphMapping)
    (hstart : IsNode graphMapping start) :
    Digraph.Searched (childList graphMapping) (fun _ => none) start 0
      (searchDepth graphMapping start) :=
  Digraph.searched_search_none (mem_nodeSet_of_mem_childList hvalid) (mem_nodeSet.mpr hstart)
    (Nat.lt_succ_of_le card_nodeSet_le)

theorem isNode_of_searchDepth (hvalid : ValidEdges graphMapping)
    (hstart : IsNode graphMapping start) {v : ℤ} (hv : searchDepth graphMapping start v ≠ none) :
    IsNode graphMapping v := by
  rcases ((searched_searchDepth hvalid hstart).reached v rfl hv).cases_head with rfl | ⟨p, hp, -⟩
  · exact hstart
  · exact isNode_of_mem_childList hvalid hp

theorem mark_searchDepth (hvalid : ValidEdges graphMapping) (hstart : IsNode graphMapping start)
    (value v : ℤ) :
    mark (depthMarks graphMapping.length value (searchDepth graphMapping start)) v =
      (searchDepth graphMapping start v).elim 0 fun d => value + d := by
  by_cases hv : IsNode graphMapping v
  · exact mark_depthMarks hv
  · have hnone : searchDepth graphMapping start v = none :=
      not_not.mp fun hne => hv (isNode_of_searchDepth hvalid hstart hne)
    rw [mark, index_eq_none (by rwa [length_depthMarks]), hnone]
    rfl

theorem visits_depthMarks (hvalid : ValidEdges graphMapping) (hstart : IsNode graphMapping start)
    {value : ℤ} (hvalue : 1 ≤ value) :
    Visits graphMapping start
      (depthMarks graphMapping.length value (searchDepth graphMapping start)) := by
  have hsearched := searched_searchDepth hvalid hstart
  have hmark : ∀ v, mark (depthMarks graphMapping.length value (searchDepth graphMapping start)) v
      ≠ 0 ↔ searchDepth graphMapping start v ≠ none := by
    intro v
    rw [mark_searchDepth hvalid hstart]
    cases searchDepth graphMapping start v with
    | none => exact iff_of_false (fun h => h rfl) (fun h => h rfl)
    | some d =>
        refine iff_of_true ?_ (Option.some_ne_none d)
        rw [Option.elim_some]
        omega
  refine ⟨fun v => (hmark v).trans (hsearched.ne_none_iff v), fun v hne hv => ?_⟩
  obtain ⟨e, he⟩ := Option.ne_none_iff_exists'.mp ((hmark v).mp hv)
  obtain ⟨p, d, hp, hchild, rfl⟩ := hsearched.parent v e rfl hne he
  refine ⟨p, (hmark p).mpr (hp ▸ Option.some_ne_none d), hchild, ?_⟩
  rw [mark_searchDepth hvalid hstart, mark_searchDepth hvalid hstart, he, hp, Option.elim_some,
    Option.elim_some]
  push_cast
  omega

/-- Every depth is below the number of nodes. -/
theorem fits_searchDepth (hvalid : ValidEdges graphMapping) (hstart : IsNode graphMapping start)
    {value : ℤ} (hmax : value + graphMapping.length ≤ intMax + 1) :
    Fits value (searchDepth graphMapping start) := by
  intro v d hv
  have hlt := (searched_searchDepth hvalid hstart).lt_card
    (fun v hv => mem_nodeSet.mpr (isNode_of_searchDepth hvalid hstart hv)) hv
  have hle : (nodeSet graphMapping).card ≤ graphMapping.length := card_nodeSet_le
  omega

end Start

/-- On any graph a run from a node calls for every node at most once and ends, since more
levels of calls change nothing. It is defined exactly as long as no number of the search
exceeds an `int`, as is the case when there is a number for every node, and then the nodes
with a number are those that are reached. -/
theorem fillVisited_visits {graphMapping : List (List ℤ)} {start value : ℤ}
    (hvalid : ValidEdges graphMapping) (hstart : IsNode graphMapping start) (hvalue : 1 ≤ value)
    (hmax : value ≤ intMax) :
    let zeros := List.replicate graphMapping.length 0
    let calls := visitCalls graphMapping (graphMapping.length + 1) zeros start value
    (∀ fuel, graphMapping.length < fuel →
        visitCalls graphMapping fuel zeros start value = calls) ∧
      calls.log.Nodup ∧
      calls.value = fillVisited graphMapping zeros start value ∧
      ((fillVisited graphMapping zeros start value).isSome = true ↔
        Fits value (searchDepth graphMapping start)) ∧
      (value + graphMapping.length ≤ intMax + 1 →
        (fillVisited graphMapping zeros start value).isSome = true) ∧
      ∀ visited, fillVisited graphMapping zeros start value = some visited →
        Visits graphMapping start visited := by
  intro zeros calls
  have hzero : mark zeros start = 0 := by
    obtain ⟨k, rfl⟩ := Int.eq_ofNat_of_zero_le hstart.1
    rw [mark, index_natCast, List.getElem?_replicate]
    split_ifs <;> rfl
  have hfollows : Follows graphMapping.length value
      (fillVisited graphMapping zeros start value) (searchDepth graphMapping start) :=
    fillVisitedFuel_follows_search hvalid hvalue hmax hstart (Nat.lt_succ_self _)
  have hfits : (fillVisited graphMapping zeros start value).isSome = true ↔
      Fits value (searchDepth graphMapping start) := by
    rw [Option.isSome_iff_exists]
    constructor
    · rintro ⟨visited, hrun⟩
      exact ((hfollows visited).mp hrun).1
    · exact fun h => ⟨_, hfollows.eq_some h⟩
  refine ⟨fun fuel hfuel => visitCalls_eq_of_lt hvalid hstart hzero hvalue hfuel,
    (visitedOnce_visitCalls hzero hvalue).nodup, value_visitCalls _ _ _ _, hfits,
    fun hbound => hfits.mpr (fits_searchDepth hvalid hstart hbound), fun visited hrun => ?_⟩
  rw [← ((hfollows visited).mp hrun).2]
  exact visits_depthMarks hvalid hstart hvalue

/-- A cycle of two nodes, and a third node with an edge into it. -/
theorem fillVisited_visits_cycle :
    ∃ visited, fillVisited [[1], [0], [1]] [0, 0, 0] 0 1 = some visited ∧
      Visits [[1], [0], [1]] 0 visited := by
  have hvalid : ValidEdges [[1], [0], [1]] := by decide
  have hstart : IsNode [[1], [0], [1]] 0 := by decide
  have h := fillVisited_visits hvalid hstart (le_refl 1) (by decide)
  exact ⟨[1, 2, 0], rfl, h.2.2.2.2.2 _ rfl⟩

/-- From the greatest `int` there is no number for the child. -/
theorem fillVisited_intMax :
    ValidEdges [[1], []] ∧ IsNode [[1], []] 0 ∧ 1 ≤ intMax ∧
      fillVisited [[1], []] [0, 0] 0 intMax = none :=
  ⟨by decide, by decide, by decide, rfl⟩

end Query

end DistStorage
