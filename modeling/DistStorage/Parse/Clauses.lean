import DistStorage.Parse.Building

/-!
# The nodes of single constructs

The specifications of the functions that the recursion of the visitor calls:
tables, names, operators, literals, and the nodes that a select statement puts
over those of its clauses. Only a range with an offset and no limit makes a
gap.
-/

namespace DistStorage

namespace Parse

open Cpp Query QueryGraph

theorem appendColumns_appends (columns : List Proto.ColumnSchema) :
    Appends False [] (appendColumns columns) fun colNodeIds => colNodeIds := by
  induction columns with
  | nil => exact Appends.pure (List.nil_subset _)
  | cons col rest ih =>
      refine (Appends.build fun g hg _ => appendColumn_adds hg col.name col.type).seq ?_
      exact fun colNodeId => ih.of_nil.seq fun colNodeIds => Appends.pure (by grind)

theorem insertTableColumnNodes_appends (schema : Proto.TableSchema) :
    Appends False [] (insertTableColumnNodes schema) fun i => [i] := by
  refine (appendColumns_appends schema.columns).seq fun colNodeIds => ?_
  exact Appends.build fun g hg hneed =>
    appendTable_adds hg schema.name fun c hc => hneed c (by grind)

theorem findIdent_mem {ident : Bytes} {maps : List Context}
    (h : findIdent ident maps ≠ nodeNone) : ∃ m ∈ maps, findIdent ident maps ∈ m.values := by
  induction maps with
  | nil => exact absurd rfl h
  | cons m maps ih =>
      rcases hfind : m.find ident with _ | i
      · have hrest : findIdent ident (m :: maps) = findIdent ident maps := by
          simp [findIdent, hfind]
        rw [hrest] at h ⊢
        obtain ⟨m', hm', hmem⟩ := ih h
        exact ⟨m', List.mem_cons_of_mem m hm', hmem⟩
      · have hi : findIdent ident (m :: maps) = i := by simp [findIdent, hfind]
        rw [hi]
        exact ⟨m, List.mem_cons_self, OrderedMap.mem_values_of_find hfind⟩

/-- A name that is put into a context is that of one node more. -/
theorem valid_values_insert {g : QueryGraph} {m : Context} {i : ℤ} (name : Bytes)
    (hm : ∀ j ∈ m.values, g.Valid j) (hi : g.Valid i) : ∀ j ∈ (m.insert name i).values, g.Valid j :=
  fun j hj => (OrderedMap.mem_values_insert hj).elim (fun heq => heq ▸ hi) (hm j)

theorem insertFile_appends {need : List ℤ} {i : ℤ} (hi : i ∈ need) (name : Bytes) :
    Appends False need
      (Action.modify fun s : VisitorState =>
        { s with fileTableContext := s.fileTableContext.insert name i }) fun _ => [] :=
  Appends.modify (fun _ _ hneed hs => ⟨hs.coherent, hs.nodes,
    valid_values_insert name hs.files (hs.nodes i (hneed hi)), hs.ctes, hs.vars⟩) fun _ => rfl

theorem insertCte_appends {need : List ℤ} {i : ℤ} (hi : i ∈ need) (name : Bytes) :
    Appends False need
      (Action.modify fun s : VisitorState =>
        { s with withTableContext := s.withTableContext.insert name i }) fun _ => [] :=
  Appends.modify (fun _ _ hneed hs => ⟨hs.coherent, hs.nodes, hs.files,
    valid_values_insert name hs.ctes (hs.nodes i (hneed hi)), hs.vars⟩) fun _ => rfl

theorem findOrInsertTable_appends (env : Environment) (name : Bytes) :
    Appends False [] (findOrInsertTable env name) fun i => [i] := by
  refine Appends.get_bind fun s hs => ?_
  dsimp only
  split_ifs with hfound
  · obtain ⟨m, hm, hmem⟩ := findIdent_mem hfound
    have hvalid : s.outGraph.Valid (findIdent name [s.fileTableContext, s.withTableContext]) := by
      rcases List.mem_pair.mp hm with rfl | rfl
      · exact hs.files _ hmem
      · exact hs.ctes _ hmem
    refine ⟨[findIdent name [s.fileTableContext, s.withTableContext]], ?_, ?_⟩
    · simpa using hvalid
    · refine Appends.ofOption_bind fun o _ => ?_
      split_ifs
      · exact Appends.pure (List.subset_append_left _ _)
      · exact Appends.throw _
  · refine ⟨[], by simp, ?_⟩
    split
    · rename_i schema _
      refine (insertTableColumnNodes_appends schema).seq fun i => ?_
      refine (insertFile_appends List.mem_cons_self name).seq fun _ => ?_
      exact Appends.pure (by grind)
    · exact Appends.throw _

theorem ne_const_of_lookup {text : Bytes} {op : ColumnOperation}
    (h : opMap.lookup text = some op) : op ≠ .CONST := by
  obtain ⟨l₁, l₂, hmap, -⟩ := List.lookup_eq_some_iff.mp h
  have hall : ∀ entry ∈ opMap, entry.2 ≠ .CONST := by decide
  exact hall (text, op) (by simp [hmap])

theorem appendOperation_appends {need nodeArgs : List ℤ} (op : Bytes) (h : nodeArgs ⊆ need) :
    Appends False need (appendOperation op nodeArgs) fun i => [i] := by
  unfold appendOperation
  split
  · rename_i opValue hop
    exact Appends.appendNode (ne_const_of_lookup hop) nodeNone .Any h
  · exact Appends.throw _

theorem appendComparison_appends {need : List ℤ} {l r : ℤ} (op : CmpOp) (hl : l ∈ need)
    (hr : r ∈ need) : Appends False need (appendComparison op l r) fun i => [i] := by
  unfold appendComparison
  split
  · rename_i opValue hop
    exact Appends.appendNode (ne_const_of_lookup hop) nodeNone .Any (by grind)
  · exact Appends.throw _

theorem appendUnlessSingle_appends {need nodeIds : List ℤ} {op : ColumnOperation}
    (hop : op ≠ .CONST) (h : nodeIds ⊆ need) :
    Appends False need (appendUnlessSingle op nodeIds) fun i => [i] := by
  unfold appendUnlessSingle
  split
  · exact Appends.pure h
  · exact Appends.appendNode hop nodeNone .Any h

theorem appendBetween_appends {need : List ℤ} {lower middle upper : ℤ} (notOp : Bool)
    (hlower : lower ∈ need) (hmiddle : middle ∈ need) (hupper : upper ∈ need) :
    Appends False need (appendBetween notOp lower middle upper) fun i => [i] := by
  have hop : (if notOp then ColumnOperation.NAND else .AND) ≠ .CONST := by
    cases notOp <;> simp
  refine (Appends.appendNode (by simp) nodeNone .Any (by grind)).seq fun cmp1Id => ?_
  refine (Appends.appendNode (by simp) nodeNone .Any (by grind)).seq fun cmp2Id => ?_
  exact Appends.appendNode hop nodeNone .Any (by grind)

theorem ofExcept_appends {α : Type} {need : List ℤ} (e : Except Exception α) :
    Appends False need (ofExcept e) fun _ => [] := by
  cases e with
  | ok a => exact Appends.pure (List.nil_subset need)
  | error e => exact Appends.throw e

theorem visitLiteralExpr_visits (env : Environment) (literal : Literal) :
    Visits (visitLiteralExpr env literal) := by
  refine Visits.of_appends ?_
  cases literal with
  | string token =>
      refine (ofExcept_appends _).seq fun str => Appends.toAny ?_
      exact Appends.build fun g hg _ => appendStringConstant_adds hg _
  | int minus token =>
      refine (ofExcept_appends _).seq fun num => Appends.toAny ?_
      exact Appends.build fun g hg _ => appendInt64Constant_adds hg num
  | float minus token =>
      refine (ofExcept_appends _).seq fun num => Appends.toAny ?_
      exact Appends.build fun g hg _ => appendFloat64Constant_adds hg num
  | nullKw => exact (Appends.appendNode (by simp) 0 .Any (List.nil_subset _)).toAny
  | trueKw => exact (Appends.appendNode (by simp) 0 .Bool (List.nil_subset _)).toAny
  | falseKw => exact (Appends.appendNode (by simp) 0 .Bool (List.nil_subset _)).toAny

theorem visitColumnExpr_visits (tableName : Option Bytes) (columnName : Bytes) :
    Visits (visitColumnExpr tableName columnName) := by
  refine Visits.of_appends (Appends.get_bind fun s hs => ?_)
  dsimp only
  split_ifs with hfound
  · exact ⟨[], by simp, Appends.throw _⟩
  · obtain ⟨m, hm, hmem⟩ := findIdent_mem hfound
    obtain rfl := List.mem_singleton.mp hm
    refine ⟨[_], ?_, Appends.pure (List.subset_append_left _ _)⟩
    simpa using hs.vars _ hmem

theorem setName_appends {need : List ℤ} (nodeId : ℤ) (name : Bytes) :
    Appends False need (setName nodeId name) fun _ => [] := by
  intro ids g hneed
  refine Action.Triple.get_bind fun s hs => Action.Triple.ofOption_bind fun g' hg' => ?_
  obtain ⟨hcoherent, hmapping, hsize⟩ := setNodeName_coherent hs.1.coherent hg'
  refine Action.Triple.modify ?_
  rintro t rfl
  refine ⟨hs.1.graph hcoherent hsize.ge, ?_⟩
  rw [or_false, ← hs.2, HasGap, HasGap, hmapping]

theorem nameRelation_appends {need : List ℤ} {tableNodeId : ℤ} (h : tableNodeId ∈ need)
    (aliasName : Option Bytes) :
    Appends False need (nameRelation tableNodeId aliasName) Option.toList := by
  have hpure : ∀ need', need ⊆ need' →
      Appends False need' (pure (some tableNodeId) : Visit Any) Option.toList :=
    fun need' hsub => Appends.pure (by simpa using hsub h)
  refine Appends.get_bind fun s _ => ⟨[], by simp, Appends.ofOption_bind fun exprName _ => ?_⟩
  dsimp only
  split_ifs
  · exact (setName_appends tableNodeId _).seq fun _ => hpure _ (by simp)
  · exact hpure _ (by simp)

theorem setVars_appends {need : List ℤ} (ctx : Context) (h : ctx.values ⊆ need) :
    Appends False need
      (Action.modify fun s : VisitorState => { s with exprVarContext := ctx }) fun _ => [] := by
  refine Appends.modify (fun ids s hneed hs => ?_) fun _ => rfl
  exact ⟨hs.coherent, hs.nodes, hs.files, hs.ctes, fun i hi => hs.nodes i (hneed (h hi))⟩

theorem setTable_appends {need : List ℤ} (name : Bytes) (i : ℤ) :
    Appends False need
      (Action.modify fun s : VisitorState =>
        { s with exprTableContext := s.exprTableContext.insert name i }) fun _ => [] :=
  Appends.modify (fun _ _ _ hs => ⟨hs.coherent, hs.nodes, hs.files, hs.ctes, hs.vars⟩)
    fun _ => rfl

theorem enterTable_appends {need : List ℤ} (tableNodeId : ℤ) (aliasName : Option Bytes) :
    Appends False need (enterTable tableNodeId aliasName) fun _ => [] := by
  refine Appends.get_bind fun s hs => ?_
  rcases hload : (aliasName.or (s.outGraph.getNodeName tableNodeId)).bind
    (loadTableNames s.exprVarContext s.outGraph tableNodeId) with _ | ctx
  · refine ⟨[], by simp, Appends.ofOption_bind fun tableAlias halias =>
      Appends.ofOption_bind fun ctx hctx => ?_⟩
    simp [halias, hctx] at hload
  · obtain ⟨tableAlias, halias, hctx⟩ := Option.bind_eq_some_iff.mp hload
    refine ⟨ctx.values, loadTableNames_valid hctx hs.vars, ?_⟩
    rw [halias]
    refine Appends.ofOption_bind fun tableAlias' halias' => ?_
    obtain rfl := Option.some.inj halias'
    rw [hctx]
    refine Appends.ofOption_bind fun ctx' hctx' => ?_
    obtain rfl := Option.some.inj hctx'
    refine (setVars_appends ctx (List.subset_append_left _ _)).seq fun _ => ?_
    split_ifs
    · exact setTable_appends _ _
    · exact Appends.pure (List.nil_subset _)

theorem globalStar_subset (exprVarContext : Context) :
    globalStar exprVarContext ⊆ exprVarContext.values :=
  List.map_subset Prod.snd (List.filter_subset_self _)

theorem appendFilter_appends {need filters : List ℤ} {dfNodeId : ℤ} (hdf : dfNodeId ∈ need)
    (hfilters : filters ⊆ need) :
    Appends False need (appendFilter dfNodeId filters) fun i => [i] := by
  unfold appendFilter
  split
  · exact Appends.pure (by simpa using hdf)
  · exact Appends.appendNode (by simp) nodeNone .Any (by grind)
  · refine (Appends.appendNode (by simp) nodeNone .Any hfilters).seq fun filterNodeId => ?_
    exact Appends.appendNode (by simp) nodeNone .Any (by grind)

theorem appendKeys_appends {need keyNodeIds : List ℤ} {dfNodeId : ℤ} {op : ColumnOperation}
    (hop : op ≠ .CONST) (hdf : dfNodeId ∈ need) (hkeys : keyNodeIds ⊆ need) :
    Appends False need (appendKeys op dfNodeId keyNodeIds) fun i => [i] := by
  unfold appendKeys
  split_ifs
  · exact Appends.pure (by simpa using hdf)
  · exact Appends.appendNode hop nodeNone .Any (by grind)

/-- A range over nodes at hand. It has a gap when its limit is absent. -/
theorem range_appends {need : List ℤ} {df offset limit : ℤ} (hdf : df ∈ need)
    (hoffset : offset ∈ need) (hlimit : limit = nodeNone ∨ limit ∈ need) :
    Appends (limit = nodeNone) need
      (build fun g => g.appendNode nodeNone .RANGE .Any [df, offset, limit]) fun i => [i] := by
  refine Appends.of_present fun hpresent => ?_
  have hgap : nodeNone ∈ [df, offset, limit] ↔ limit = nodeNone := by
    have := hpresent df hdf
    have := hpresent offset hoffset
    grind
  refine (Appends.build fun g hg hneed => ?_).congr hgap
  exact appendNode_adds hg nodeNone (by simp) .Any fun c hc => by grind

theorem boundedRange_appends {need : List ℤ} {df offset limit : ℤ} (hdf : df ∈ need)
    (hoffset : offset ∈ need) (hlimit : limit ∈ need) :
    Appends False need (do
      let limitNodeId ← build fun g => g.appendNode nodeNone .ADD .Int64 [offset, limit]
      build fun g => g.appendNode nodeNone .RANGE .Any [df, offset, limitNodeId]) fun i => [i] := by
  refine (Appends.appendNode (by simp) nodeNone .Int64 (by grind)).seq fun limitNodeId => ?_
  refine Appends.of_present fun hpresent => ?_
  have hlimit' : ¬ limitNodeId = nodeNone := hpresent limitNodeId (by simp)
  exact (range_appends (by grind) (by grind) (.inr (by simp))).congr (iff_false_intro hlimit')

/-- A range without an offset starts at zero; one without a limit has a gap. -/
theorem appendRange_appends {need : List ℤ} {df : ℤ} {offset limit : Option ℤ}
    (hdf : df ∈ need) (hoffset : offset.toList ⊆ need) (hlimit : limit.toList ⊆ need) :
    Appends (offset.isSome = true ∧ limit.isSome = false) need
      (appendRange df (offset.getD nodeNone) (limit.getD nodeNone)) fun i => [i] := by
  refine Appends.of_present fun hpresent => ?_
  have hsome : ∀ {o : Option ℤ} {i : ℤ}, o = some i → o.toList ⊆ need → i ≠ nodeNone :=
    fun ho hsub => hpresent _ (hsub (by simp [ho]))
  unfold appendRange
  rcases offset with _ | o <;> rcases limit with _ | l
  · exact (Appends.pure (by simpa using hdf)).congr (by simp)
  · simp only [Option.getD_none, Option.getD_some, hsome rfl hlimit, ne_eq, not_false_eq_true,
      true_or, if_true]
    refine Appends.congr ?_ (iff_of_false id (by simp))
    refine (Appends.build fun g hg _ => appendInt64Constant_adds hg 0).seq fun o => ?_
    exact boundedRange_appends (by grind) (by simp) (by grind)
  · simp only [Option.getD_none, Option.getD_some, hsome rfl hoffset, ne_eq, not_true_eq_false,
      not_false_eq_true, or_true, if_true, if_false]
    exact (range_appends hdf (by grind) (.inl rfl)).congr (by simp)
  · simp only [Option.getD_some, hsome rfl hoffset, hsome rfl hlimit, ne_eq, not_false_eq_true,
      true_or, if_true, if_false]
    refine Appends.congr ?_ (iff_of_false id (by simp))
    exact boundedRange_appends hdf (by grind) (by grind)

theorem constructSelect_appends {need tableNodeIds columnNodeIds filters groupNodeIds
      orderNodeIds : List ℤ} {offset limit : Option ℤ} (htables : tableNodeIds ⊆ need)
    (hcolumns : columnNodeIds ⊆ need) (hfilters : filters ⊆ need) (hgroup : groupNodeIds ⊆ need)
    (horder : orderNodeIds ⊆ need) (hoffset : offset.toList ⊆ need)
    (hlimit : limit.toList ⊆ need) :
    Appends (offset.isSome = true ∧ limit.isSome = false) need
      (constructSelect tableNodeIds columnNodeIds filters groupNodeIds orderNodeIds
        (offset.getD nodeNone) (limit.getD nodeNone)) fun i => [i] := by
  refine (Appends.appendNode (by simp) nodeNone .Any (by grind)).seq fun df => ?_
  refine (appendFilter_appends (by simp) (by grind)).seq fun filtered => ?_
  refine (appendKeys_appends (by simp) (by simp) (by grind)).seq fun grouped => ?_
  refine (appendKeys_appends (by simp) (by simp) (by grind)).seq fun sorted => ?_
  exact appendRange_appends (by simp) (by grind) (by grind)

def VisitorState.contextNodes (s : VisitorState) : List ℤ :=
  s.withTableContext.values ++ s.exprVarContext.values

theorem inScope_appends {α : Type} {gap : Prop} {m : Visit α} {q : α → List ℤ}
    {enter : VisitorState → VisitorState} {leave : VisitorState → VisitorState → VisitorState}
    (hm : Appends gap [] m q)
    (henter : ∀ ids s, s.Sound ids → (enter s).Sound ids ∧ (enter s).outGraph = s.outGraph)
    (hleave : ∀ ids old s, s.Sound (old.contextNodes ++ ids) →
      (leave old s).Sound ids ∧ (leave old s).outGraph = s.outGraph) :
    Appends gap [] (inScope enter leave m) q := by
  intro ids g _
  refine Action.Triple.get_bind fun old hold => Action.Triple.modify_bind ?_
  obtain ⟨hentered, hgraph⟩ := henter ids old hold.1
  have hstart : Building (old.contextNodes ++ ids) g (enter old) := by
    refine ⟨⟨hentered.coherent, ?_, hentered.files, hentered.ctes, hentered.vars⟩, ?_⟩
    · rw [hgraph]
      simp only [VisitorState.contextNodes, List.mem_append]
      rintro i ((hi | hi) | hi)
      · exact hold.1.ctes i hi
      · exact hold.1.vars i hi
      · exact hold.1.nodes i hi
    · rw [hgraph]
      exact hold.2
  have hbody := (hm (old.contextNodes ++ ids) g (List.nil_subset _)).consequence
    (fun s (hs : s = enter old) => hs ▸ hstart) (fun _ _ hs => hs) (fun _ _ hs => hs)
  refine (hbody.tryCatch fun e => ?_).bind fun a => ?_
  · refine Action.Triple.bind (Action.Triple.modify (Q := fun _ s => s.Sound ids) ?_) fun _ =>
      Action.Triple.throw e fun _ hs => hs
    exact fun s hs => (hleave ids old s hs).1
  · refine Action.Triple.bind (Action.Triple.modify ?_) fun _ =>
      Action.Triple.pure a fun _ hs => hs
    intro s hs
    obtain ⟨hleft, hgraph'⟩ := hleave (q a ++ ids) old s (hs.1.subset (by grind))
    refine ⟨hleft, ?_⟩
    rw [hgraph']
    exact hs.2

end Parse

end DistStorage
