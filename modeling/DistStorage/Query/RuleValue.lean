import DistStorage.Query.Value
import DistStorage.Transition.Run

/-!
# The rewrite rules keep values

Each rule is first described by the nodes it appends, also when it throws: the
De Morgan rule appends its new node followed by negated copies of the children,
a merge rule appends one node with a flattened child list, and the rule for
`NOT` appends one negated copy. From that description a rule keeps the graph
well formed, leaves every old node as it was, and returns a node with the
three-valued reading of the node it was applied to.
-/

namespace DistStorage

namespace Query

open OpGraph

/-- A copy of a node with the negated operation. -/
def negatedCopy (g : OpGraph) (i : ℤ) : Operation × List ℤ :=
  ({ g.operation i with op := getNegatedOperation (g.operation i).op }, g.children i)

/-- The children of a node after absorbing nested nodes with operation `op`. -/
def absorb (g : OpGraph) (op : ColumnOperation) (child : ℤ) : List ℤ :=
  if (g.operation child).op = op then g.children child else [child]

def copyIds (g : OpGraph) (k : ℕ) : List ℤ :=
  (List.range k).map fun j => (g.size : ℤ) + (j + 1 : ℕ)

def dualNodes (g : OpGraph) (o : Operation) (done : List ℤ) : List (Operation × List ℤ) :=
  (o, copyIds g done.length) :: done.map (negatedCopy g)

theorem copyIds_succ (g : OpGraph) (k : ℕ) :
    copyIds g (k + 1) = copyIds g k ++ [(g.size : ℤ) + (k + 1 : ℕ)] := by
  simp [copyIds, List.range_succ]

theorem cloneNode_eq (g : OpGraph) (i : ℤ) :
    cloneNode g i = ((g.size : ℤ), g.append [(g.operation i, g.children i)]) := rfl

theorem operation_clone (g : OpGraph) (o : Operation) (cs : List ℤ)
    (rest : List (Operation × List ℤ)) :
    (g.append ((o, cs) :: rest)).operation g.size = o := by
  have hfirst : ((o, cs) :: rest)[0]? = some (o, cs) := rfl
  simpa using operation_append_fresh g hfirst

theorem children_clone {g : OpGraph} (h : g.graphMapping.length = g.operations.length)
    (o : Operation) (cs : List ℤ) (rest : List (Operation × List ℤ)) :
    (g.append ((o, cs) :: rest)).children g.size = cs := by
  have hfirst : ((o, cs) :: rest)[0]? = some (o, cs) := rfl
  simpa using children_append_fresh h hfirst

theorem cloneNegated_eq (g : OpGraph) (i : ℤ) :
    cloneNegated g i =
      if getNegatedOperation (g.operation i).op = .INVALID then
        (.error ⟨"Invalid operation for negation: " ++
          toString (g.operation i).op.number⟩, g.append [(g.operation i, g.children i)])
      else (.ok g.size, g.append [negatedCopy g i]) := by
  rw [cloneNegated, cloneNode_eq]
  simp only [operation_clone, setOp_append]
  rfl

/-- The loop of the De Morgan rule either copies every child, or stops at a
child without a negation after appending a plain copy of it. -/
theorem demorganChildren_outcome {g : OpGraph}
    (h : g.graphMapping.length = g.operations.length) (o : Operation) (cs done : List ℤ)
    (hcs : ∀ c ∈ cs, g.Valid c) :
    (demorganChildren g.size cs (g.append (dualNodes g o done)) =
        (.ok (), g.append (dualNodes g o (done ++ cs))) ∧
      ∀ c ∈ cs, getNegatedOperation (g.operation c).op ≠ .INVALID) ∨
    ∃ e copied c, demorganChildren g.size cs (g.append (dualNodes g o done)) =
        (.error e, g.append (dualNodes g o copied ++ [(g.operation c, g.children c)])) ∧
      (∀ d ∈ copied, d ∈ done ∨ d ∈ cs ∧ getNegatedOperation (g.operation d).op ≠ .INVALID) ∧
      c ∈ cs ∧ getNegatedOperation (g.operation c).op = .INVALID := by
  induction cs generalizing done with
  | nil => exact .inl ⟨by simp [demorganChildren], by simp⟩
  | cons c cs ih =>
      have hc : g.Valid c := hcs c (by simp)
      have hop : (g.append (dualNodes g o done)).operation c = g.operation c :=
        operation_append hc _
      have hchildren : (g.append (dualNodes g o done)).children c = g.children c :=
        children_append h hc _
      rw [demorganChildren, cloneNegated_eq]
      by_cases hneg : getNegatedOperation (g.operation c).op = .INVALID
      · refine .inr ⟨⟨"Invalid operation for negation: " ++
          toString (g.operation c).op.number⟩, done, c, ?_, fun d hd => .inl hd,
          by simp, hneg⟩
        simp only [hop, hneg, if_true, hchildren, append_append]
      · have hnext : ((g.append (dualNodes g o done)).append
              [negatedCopy (g.append (dualNodes g o done)) c]).modifyChildren g.size
              (· ++ [((g.append (dualNodes g o done)).size : ℤ)]) =
            g.append (dualNodes g o (done ++ [c])) := by
          have hsize : ((g.append (dualNodes g o done)).size : ℤ) =
              (g.size : ℤ) + (done.length + 1 : ℕ) := by
            simp [dualNodes]
          have hcopy : negatedCopy (g.append (dualNodes g o done)) c = negatedCopy g c := by
            simp only [negatedCopy, hop, hchildren]
          rw [hsize, hcopy, append_append, dualNodes, List.cons_append,
            modifyChildren_append h, dualNodes]
          simp [copyIds_succ]
        simp only [hop, hneg, if_false, hnext]
        rcases ih (done ++ [c]) (fun d hd => hcs d (by simp [hd])) with
          ⟨hok, hall⟩ | ⟨e, copied, d, herr, hcopied, hd, hdneg⟩
        · refine .inl ⟨by simpa using hok, ?_⟩
          intro d hd
          rcases List.mem_cons.mp hd with rfl | hd
          · exact hneg
          · exact hall d hd
        · refine .inr ⟨e, copied, d, herr, ?_, by simp [hd], hdneg⟩
          intro x hx
          rcases hcopied x hx with hx | hx
          · rcases List.mem_append.mp hx with hx | hx
            · exact .inl hx
            · obtain rfl : x = c := by simpa using hx
              exact .inr ⟨by simp, hneg⟩
          · exact .inr ⟨by simp [hx.1], hx.2⟩

/-- The loop of the merge rules flattens the child list of the fresh node. -/
theorem mergeChildren_eq {g : OpGraph} (h : g.graphMapping.length = g.operations.length)
    (op : ColumnOperation) (o : Operation) (cs acc : List ℤ) (hcs : ∀ c ∈ cs, g.Valid c) :
    mergeChildren g.size op cs (g.append [(o, acc)]) =
      g.append [(o, acc ++ cs.flatMap (absorb g op))] := by
  induction cs generalizing acc with
  | nil => simp [mergeChildren]
  | cons c cs ih =>
      have hc : g.Valid c := hcs c (by simp)
      have hrest : ∀ d ∈ cs, g.Valid d := fun d hd => hcs d (by simp [hd])
      rw [mergeChildren, operation_append hc, children_append h hc]
      by_cases hop : (g.operation c).op = op
      · rw [if_pos hop]
        simp only [modifyChildren_append h]
        rw [ih _ hrest]
        simp [absorb, hop]
      · rw [if_neg hop]
        simp only [modifyChildren_append h]
        rw [ih _ hrest]
        simp [absorb, hop]

theorem mergeChildren_clone_eq {g : OpGraph}
    (h : g.graphMapping.length = g.operations.length) (op : ColumnOperation) (o : Operation)
    {cs : List ℤ} (hcs : ∀ c ∈ cs, g.Valid c) :
    mergeChildren g.size op ((g.append [(o, cs)]).children g.size)
        ((g.append [(o, cs)]).modifyChildren g.size fun _ => []) =
      g.append [(o, cs.flatMap (absorb g op))] := by
  rw [children_clone h, modifyChildren_append h, mergeChildren_eq h op _ _ _ hcs,
    List.nil_append]

theorem valid_of_mem_absorb {g : OpGraph} (hchildren : ∀ i, ∀ c ∈ g.children i, g.Valid c)
    (op : ColumnOperation) {cs : List ℤ} (hcs : ∀ c ∈ cs, g.Valid c) :
    ∀ c ∈ cs.flatMap (absorb g op), g.Valid c := by
  intro c hc
  obtain ⟨d, hd, hc⟩ := List.mem_flatMap.mp hc
  by_cases hop : (g.operation d).op = op
  · rw [absorb, if_pos hop] at hc
    exact hchildren d c hc
  · rw [absorb, if_neg hop, List.mem_singleton] at hc
    exact hc ▸ hcs d hd

theorem wellFormed_append_copies {g : OpGraph} (h : g.WellFormed)
    {nodes : List (Operation × List ℤ)}
    (hnodes : ∀ node ∈ nodes, ∃ i, g.Valid i ∧ node.2 = g.children i ∧
      (node.1.op = .NOT ∨ node.1.op = .NOP →
        (g.operation i).op = .NOT ∨ (g.operation i).op = .NOP)) :
    (g.append nodes).WellFormed := by
  refine h.append_flat nodes ?_ ?_
  · intro node hnode c hc
    obtain ⟨i, -, hchildren, -⟩ := hnodes node hnode
    exact h.valid_children i c (hchildren ▸ hc)
  · intro node hnode hop
    obtain ⟨i, hi, hchildren, hunary⟩ := hnodes node hnode
    rw [hchildren]
    exact h.unary i hi (hunary hop)

theorem unary_of_negated {op : ColumnOperation}
    (h : getNegatedOperation op = .NOT ∨ getNegatedOperation op = .NOP) : op = .NOT := by
  cases op <;> simp [getNegatedOperation] at h ⊢

theorem wellFormed_append_negatedCopy {g : OpGraph} (h : g.WellFormed) {i : ℤ}
    (hi : g.Valid i) : (g.append [negatedCopy g i]).WellFormed := by
  refine wellFormed_append_copies h ?_
  intro node hnode
  obtain rfl : node = negatedCopy g i := by simpa using hnode
  exact ⟨i, hi, rfl, fun hop => .inl (unary_of_negated hop)⟩

theorem wellFormed_append_clone {g : OpGraph} (h : g.WellFormed) {i : ℤ}
    (hi : g.Valid i) : (g.append [(g.operation i, g.children i)]).WellFormed := by
  refine wellFormed_append_copies h ?_
  intro node hnode
  obtain rfl : node = (g.operation i, g.children i) := by simpa using hnode
  exact ⟨i, hi, rfl, fun hop => hop⟩

/-- The nodes of the De Morgan rule: the fresh node depends on the copies, which
depend on old nodes. -/
theorem wellFormed_append_dual {g : OpGraph} (h : g.WellFormed) {o : Operation}
    (ho : o.op ≠ .NOT ∧ o.op ≠ .NOP) (copied : List ℤ)
    (tail : List (Operation × List ℤ))
    (hcopies : ∀ node ∈ copied.map (negatedCopy g) ++ tail, ∃ i, g.Valid i ∧
      node.2 = g.children i ∧ (node.1.op = .NOT ∨ node.1.op = .NOP →
        (g.operation i).op = .NOT ∨ (g.operation i).op = .NOP)) :
    (g.append (dualNodes g o copied ++ tail)).WellFormed := by
  refine h.append _ (fun k => if k = 0 then 1 else 0) ?_ ?_
  · intro k o' cs hk c hc
    cases k with
    | zero =>
        obtain ⟨rfl, rfl⟩ : o = o' ∧ copyIds g copied.length = cs := by
          simpa [dualNodes] using hk
        obtain ⟨j, hj, rfl⟩ := List.mem_map.mp hc
        have hlt : j < copied.length := by simpa using hj
        exact .inr ⟨j + 1, by simp [dualNodes]; omega, rfl, by simp⟩
    | succ k =>
        have hmem : (o', cs) ∈ copied.map (negatedCopy g) ++ tail := by
          apply List.mem_of_getElem? (i := k)
          simpa [dualNodes] using hk
        obtain ⟨i, -, hchildren, -⟩ := hcopies _ hmem
        exact .inl (h.valid_children i c (hchildren ▸ hc))
  · intro node hnode hop
    rw [dualNodes, List.cons_append] at hnode
    rcases List.mem_cons.mp hnode with rfl | hnode
    · rcases hop with hop | hop
      · exact absurd hop ho.1
      · exact absurd hop ho.2
    · obtain ⟨i, hi, hchildren, hunary⟩ := hcopies node hnode
      rw [hchildren]
      exact h.unary i hi (hunary hop)

theorem copies_of_negatedCopy {g : OpGraph} {copied : List ℤ}
    (hcopied : ∀ c ∈ copied, g.Valid c) :
    ∀ node ∈ copied.map (negatedCopy g), ∃ i, g.Valid i ∧ node.2 = g.children i ∧
      (node.1.op = .NOT ∨ node.1.op = .NOP →
        (g.operation i).op = .NOT ∨ (g.operation i).op = .NOP) := by
  intro node hnode
  obtain ⟨c, hc, rfl⟩ := List.mem_map.mp hnode
  exact ⟨c, hcopied c hc, rfl, fun hop => .inl (unary_of_negated hop)⟩

theorem truthOf_copies {V : Type*} [LinearOrder V] (I : Interpretation V) {g : OpGraph}
    (h : g.WellFormed) (leaf : ℤ → Option V) (o : Operation) (cs : List ℤ)
    (hneg : ∀ c ∈ cs, getNegatedOperation (g.operation c).op ≠ .INVALID)
    (h' : (g.append (dualNodes g o cs)).WellFormed) :
    ((copyIds g cs.length).map (value I (g.append (dualNodes g o cs)) leaf)).map I.truthOf =
      (cs.map fun c => I.truthOf (value I g leaf c)).map Kleene.not := by
  apply List.ext_getElem
  · simp [copyIds]
  · intro k hk _
    have hk : k < cs.length := by simpa [copyIds] using hk
    have hget : (dualNodes g o cs)[k + 1]? =
        some ({ g.operation cs[k] with op := getNegatedOperation (g.operation cs[k]).op },
          g.children cs[k]) := by
      simp [dualNodes, negatedCopy, hk]
    have hmem : cs[k] ∈ cs := List.getElem_mem hk
    simp only [copyIds, List.getElem_map, List.getElem_range]
    rw [value_append_fresh I h h' leaf hget (h.valid_children cs[k]),
      truthOf_negated I _ (leaf cs[k]) _ _ (hneg cs[k] hmem), ← value_eq I h leaf cs[k]]

/-- The dual operation over negated readings reads like the operation. -/
theorem truthOf_dual {V : Type*} [LinearOrder V] (I : Interpretation V)
    (leaf leaf' : Option V) (o : Operation) {op : ColumnOperation}
    (hop : demorganOp o.op = some op) (args args' : List (Option V))
    (hargs : args'.map I.truthOf = (args.map I.truthOf).map Kleene.not) :
    I.truthOf (opValue I leaf' { o with op := op } args') =
      I.truthOf (opValue I leaf o args) := by
  obtain ⟨oop, name, constId, df, type, sequence⟩ := o
  cases oop <;> simp only [demorganOp, Option.some.injEq, reduceCtorEq] at hop <;>
    subst hop <;>
    simp only [opValue, Interpretation.truthOf_ofTruth, hargs, ← Kleene.not_all,
      ← Kleene.not_any, Kleene.not_not]

/-- A fold that splits appended lists is not changed by absorbing nested nodes
that are the same fold of their children. -/
theorem fold_absorb (g : OpGraph) (op : ColumnOperation) (t : ℤ → Option Bool)
    (F : List (Option Bool) → Option Bool) (f : Option Bool → Option Bool → Option Bool)
    (happend : ∀ l r, F (l ++ r) = f (F l) (F r)) (hsingle : ∀ a, F [a] = a)
    (hnested : ∀ c, (g.operation c).op = op → F ((g.children c).map t) = t c)
    (cs : List ℤ) :
    F ((cs.flatMap (absorb g op)).map t) = F (cs.map t) := by
  induction cs with
  | nil => rfl
  | cons c cs ih =>
      have hc : F ((absorb g op c).map t) = F [t c] := by
        by_cases hop : (g.operation c).op = op
        · rw [absorb, if_pos hop, hnested c hop, hsingle]
        · rw [absorb, if_neg hop, List.map_singleton]
      rw [List.flatMap_cons, List.map_append, happend, ih, hc, ← happend]
      rfl

theorem truthOf_absorb {V : Type*} [LinearOrder V] (I : Interpretation V) {g : OpGraph}
    (h : g.WellFormed) (leaf : ℤ → Option V) (leaf' leaf'' : Option V) (o : Operation)
    {op : ColumnOperation} (hop : mergedLogicOp o.op = some op) (cs : List ℤ) :
    I.truthOf (opValue I leaf' o ((cs.flatMap (absorb g op)).map (value I g leaf))) =
      I.truthOf (opValue I leaf'' o (cs.map (value I g leaf))) := by
  have hnested : ∀ c, I.truthOf (value I g leaf c) = I.truthOf (opValue I (leaf c)
      (g.operation c) ((g.children c).map (value I g leaf))) :=
    fun c => congrArg I.truthOf (value_eq I h leaf c)
  have hall := fold_absorb g .AND (fun c => I.truthOf (value I g leaf c))
    Kleene.all Kleene.and Kleene.all_append Kleene.all_singleton
    (fun c hc => by simp [hnested c, opValue, hc, Function.comp_def]) cs
  have hany := fold_absorb g .OR (fun c => I.truthOf (value I g leaf c))
    Kleene.any Kleene.or Kleene.any_append Kleene.any_singleton
    (fun c hc => by simp [hnested c, opValue, hc, Function.comp_def]) cs
  have hparity := fold_absorb g .XOR (fun c => I.truthOf (value I g leaf c))
    Kleene.parity Kleene.xor Kleene.parity_append Kleene.parity_singleton
    (fun c hc => by simp [hnested c, opValue, hc, Function.comp_def]) cs
  obtain ⟨oop, name, constId, df, type, sequence⟩ := o
  cases oop <;> simp only [mergedLogicOp, Option.some.injEq, reduceCtorEq] at hop <;>
    subst hop <;>
    simp only [opValue, Interpretation.truthOf_ofTruth, List.map_map, Function.comp_def,
      hall, hany, hparity]

/-- What an application of a rule does: it appends nodes, the graph stays well
formed, and a returned node reads like the node the rule was applied to. -/
def KeepsReading {V : Type*} [LinearOrder V] (I : Interpretation V) (leaf : ℤ → Option V)
    (g : OpGraph) (node : ℤ) (outcome : RuleResult) : Prop :=
  ∃ nodes, outcome.2 = g.append nodes ∧ (g.append nodes).WellFormed ∧
    ∀ r, outcome.1 = .ok r → (g.append nodes).Valid r ∧
      I.truthOf (value I (g.append nodes) leaf r) = I.truthOf (value I g leaf node)

theorem valid_append_size (g : OpGraph) (node : Operation × List ℤ)
    (nodes : List (Operation × List ℤ)) : (g.append (node :: nodes)).Valid g.size := by
  refine ⟨by omega, ?_⟩
  rw [size_append, List.length_cons]
  omega

theorem cloneNegated_keeps {V : Type*} [LinearOrder V] (I : Interpretation V)
    (leaf : ℤ → Option V) {g : OpGraph} (h : g.WellFormed) {node child : ℤ}
    (hchild : g.Valid child)
    (hreads : I.truthOf (value I g leaf node) =
      Kleene.not (I.truthOf (value I g leaf child))) :
    KeepsReading I leaf g node (cloneNegated g child) := by
  rw [cloneNegated_eq]
  by_cases hneg : getNegatedOperation (g.operation child).op = .INVALID
  · rw [if_pos hneg]
    exact ⟨_, rfl, wellFormed_append_clone h hchild, fun r hr => by simp at hr⟩
  · rw [if_neg hneg]
    have h' := wellFormed_append_negatedCopy h hchild
    refine ⟨_, rfl, h', ?_⟩
    intro r hr
    obtain rfl : (g.size : ℤ) = r := by simpa using hr
    refine ⟨valid_append_size g _ _, ?_⟩
    have hfresh := value_append_fresh I h h' leaf (k := 0) rfl (h.valid_children child)
    rw [Nat.cast_zero, add_zero] at hfresh
    rw [hfresh, truthOf_negated I _ (leaf child) _ _ hneg, ← value_eq I h leaf child, hreads]

theorem reduceNotNopApply_keeps {V : Type*} [LinearOrder V] (I : Interpretation V)
    (leaf : ℤ → Option V) {g : OpGraph} (h : g.WellFormed) (node : ℤ) :
    KeepsReading I leaf g node (reduceNotNopApply g node) := by
  have hunchanged : ∀ e, KeepsReading I leaf g node (.error e, g) := fun e =>
    ⟨[], by simp, by simpa using h, fun r hr => by simp at hr⟩
  have hvalue := value_eq I h leaf node
  have hvalid := h.valid_children node
  rw [reduceNotNopApply]
  split
  · next hop =>
      rw [reduceNotNopApply.reduceUnary]
      split
      · next child hchildren =>
          rw [if_pos rfl]
          rw [hchildren] at hvalue hvalid
          refine cloneNegated_keeps I leaf h (hvalid child (by simp)) ?_
          rw [hvalue]
          simp [opValue, hop]
      · exact hunchanged _
  · next hop =>
      rw [reduceNotNopApply.reduceUnary]
      split
      · next child hchildren =>
          rw [if_neg (by simp)]
          rw [hchildren] at hvalue hvalid
          refine ⟨[], by simp, by simpa using h, ?_⟩
          intro r hr
          obtain rfl : child = r := by simpa using hr
          refine ⟨by simpa using hvalid child (by simp), ?_⟩
          rw [hvalue]
          simp [opValue, hop]
      · exact hunchanged _
  · exact hunchanged _

theorem mergeCummutativeLogicApply_keeps {V : Type*} [LinearOrder V]
    (I : Interpretation V) (leaf : ℤ → Option V) {g : OpGraph} (h : g.WellFormed)
    {node : ℤ} (hnode : g.Valid node) :
    KeepsReading I leaf g node (mergeCummutativeLogicApply g node) := by
  rw [mergeCummutativeLogicApply, cloneNode_eq]
  simp only [operation_append hnode]
  cases hop : mergedLogicOp (g.operation node).op with
  | none => exact ⟨_, rfl, wellFormed_append_clone h hnode, fun r hr => by simp at hr⟩
  | some op =>
      simp only [mergeChildren_clone_eq h.lengths op _ (h.valid_children node)]
      have hvalid := valid_of_mem_absorb h.valid_children op (h.valid_children node)
      have h' : (g.append [(g.operation node,
          (g.children node).flatMap (absorb g op))]).WellFormed := by
        refine h.append_flat _ (by simpa using hvalid) ?_
        intro n hn hunary
        obtain rfl := List.mem_singleton.mp hn
        rcases hunary with hunary | hunary <;>
          simp [mergedLogicOp, show (g.operation node).op = _ from hunary] at hop
      refine ⟨_, rfl, h', ?_⟩
      intro r hr
      obtain rfl : (g.size : ℤ) = r := by simpa using hr
      refine ⟨valid_append_size g _ _, ?_⟩
      have hfresh := value_append_fresh I h h' leaf (k := 0) rfl hvalid
      rw [Nat.cast_zero, add_zero] at hfresh
      rw [hfresh, truthOf_absorb I h leaf _ (leaf node) _ hop, ← value_eq I h leaf node]

theorem demorganApply_keeps {V : Type*} [LinearOrder V] (I : Interpretation V)
    (leaf : ℤ → Option V) {g : OpGraph} (h : g.WellFormed) {node : ℤ}
    (hnode : g.Valid node) :
    KeepsReading I leaf g node (demorganApply g node) := by
  rw [demorganApply, cloneNode_eq]
  simp only [operation_clone]
  cases hop : demorganOp (g.operation node).op with
  | none => exact ⟨_, rfl, wellFormed_append_clone h hnode, fun r hr => by simp at hr⟩
  | some op =>
      have hvalid := h.valid_children node
      have hstart : ((g.append [(g.operation node, g.children node)]).setOp g.size
          op).modifyChildren g.size (fun _ => []) =
          g.append (dualNodes g { g.operation node with op := op } []) := by
        rw [setOp_append, modifyChildren_append h.lengths]
        rfl
      have hdual : op ≠ .NOT ∧ op ≠ .NOP := by
        cases hnodeop : (g.operation node).op <;> simp [demorganOp, hnodeop] at hop <;>
          simp [← hop]
      have hold : ((g.append [(g.operation node, g.children node)]).setOp g.size
          op).children node = g.children node := by
        rw [setOp_append, children_append h.lengths hnode]
      simp only [hstart, hold]
      rcases demorganChildren_outcome h.lengths { g.operation node with op := op }
          (g.children node) [] hvalid with ⟨hok, hneg⟩ | ⟨e, copied, c, herr, hcopied, hc, -⟩
      · rw [hok, List.nil_append]
        have h' := wellFormed_append_dual h (o := { g.operation node with op := op }) hdual
          (g.children node) [] (by simpa using copies_of_negatedCopy hvalid)
        rw [List.append_nil] at h'
        refine ⟨_, rfl, h', ?_⟩
        intro r hr
        obtain rfl : (g.size : ℤ) = r := by simpa using hr
        refine ⟨valid_append_size g _ _, ?_⟩
        have hargs := truthOf_copies I h leaf _ (g.children node) hneg h'
        rw [value_eq I h' leaf, dualNodes, operation_clone, children_clone h.lengths,
          value_eq I h leaf node]
        refine truthOf_dual I _ _ _ hop _ _ ?_
        simpa only [dualNodes, List.map_map, Function.comp_def] using hargs
      · rw [herr]
        refine ⟨_, rfl, wellFormed_append_dual h hdual copied _ ?_,
          fun r hr => by simp at hr⟩
        have hcopied' : ∀ d ∈ copied, g.Valid d := fun d hd => by
          rcases hcopied d hd with hd | ⟨hd, -⟩
          · simp at hd
          · exact hvalid d hd
        intro n hn
        rcases List.mem_append.mp hn with hn | hn
        · exact copies_of_negatedCopy hcopied' n hn
        · obtain rfl := List.mem_singleton.mp hn
          exact ⟨c, hvalid c hc, rfl, fun hop => hop⟩

theorem LogicRule.apply_keeps {V : Type*} [LinearOrder V] (I : Interpretation V)
    (leaf : ℤ → Option V) {g : OpGraph} (h : g.WellFormed) (rule : LogicRule) {node : ℤ}
    (hnode : g.Valid node) : KeepsReading I leaf g node (rule.apply g node) := by
  cases rule with
  | demorgan => exact demorganApply_keeps I leaf h hnode
  | mergeCummutativeLogic => exact mergeCummutativeLogicApply_keeps I leaf h hnode
  | reduceNotNop => exact reduceNotNopApply_keeps I leaf h node

/-- Every node of `g` is a node of `g'` with the same operation, children and
value. -/
def KeepsNodes {V : Type*} [LinearOrder V] (I : Interpretation V) (leaf : ℤ → Option V)
    (g g' : OpGraph) : Prop :=
  ∀ i, g.Valid i → g'.Valid i ∧ g'.operation i = g.operation i ∧
    g'.children i = g.children i ∧ value I g' leaf i = value I g leaf i

theorem keepsNodes_append {V : Type*} [LinearOrder V] (I : Interpretation V)
    (leaf : ℤ → Option V) {g : OpGraph} (h : g.WellFormed)
    (nodes : List (Operation × List ℤ)) : KeepsNodes I leaf g (g.append nodes) :=
  fun _ hi => ⟨hi.append nodes, operation_append hi nodes,
    children_append h.lengths hi nodes, value_append I h leaf hi⟩

theorem KeepsNodes.trans {V : Type*} [LinearOrder V] {I : Interpretation V}
    {leaf : ℤ → Option V} {g₁ g₂ g₃ : OpGraph} (h₁ : KeepsNodes I leaf g₁ g₂)
    (h₂ : KeepsNodes I leaf g₂ g₃) : KeepsNodes I leaf g₁ g₃ := by
  intro i hi
  obtain ⟨hi₂, hop₁, hchildren₁, hvalue₁⟩ := h₁ i hi
  obtain ⟨hi₃, hop₂, hchildren₂, hvalue₂⟩ := h₂ i hi₂
  exact ⟨hi₃, hop₂.trans hop₁, hchildren₂.trans hchildren₁, hvalue₂.trans hvalue₁⟩

/-- Along any sequence of rule applications, failing ones included, the graph
stays well formed and its first nodes stay as they were. -/
theorem run_ruleStep {V : Type*} [LinearOrder V] (I : Interpretation V)
    (leaf : ℤ → Option V) {g₀ g : OpGraph} (h₀ : g₀.WellFormed)
    {applications : List (LogicRule × ℤ)}
    (hrun : Transition.run ruleStep g₀ applications = some g) :
    g.WellFormed ∧ KeepsNodes I leaf g₀ g := by
  refine Transition.run_invariant (I := fun g => g.WellFormed ∧ KeepsNodes I leaf g₀ g)
    ?_ ⟨h₀, fun i hi => ⟨hi, rfl, rfl, rfl⟩⟩ hrun
  rintro s ⟨rule, node⟩ t ⟨hs, hkeeps⟩ hstep
  rw [ruleStep] at hstep
  split at hstep
  · next hnode =>
      obtain ⟨nodes, hgraph, hwf, -⟩ := rule.apply_keeps I leaf hs hnode
      obtain rfl := Option.some.inj hstep
      rw [hgraph]
      exact ⟨hwf, hkeeps.trans (keepsNodes_append I leaf hs nodes)⟩
  · simp at hstep

/-- After any sequence of rule applications to a well formed graph, a rule that
returns a node returns one with the three-valued value of its argument, keeps
the graph well formed, and leaves every older node as it was. -/
theorem apply_keeps_value {V : Type*} [LinearOrder V] (I : Interpretation V)
    (leaf : ℤ → Option V) {g₀ g : OpGraph} (h₀ : g₀.WellFormed)
    {applications : List (LogicRule × ℤ)}
    (hrun : Transition.run ruleStep g₀ applications = some g) (rule : LogicRule)
    {node result : ℤ} (hnode : g.Valid node) {g' : OpGraph}
    (hok : rule.apply g node = (.ok result, g')) :
    g'.Valid result ∧
      I.truthOf (value I g' leaf result) = I.truthOf (value I g leaf node) ∧
      g'.WellFormed ∧ KeepsNodes I leaf g₀ g' ∧ KeepsNodes I leaf g g' := by
  obtain ⟨hwf, hkeeps⟩ := run_ruleStep I leaf h₀ hrun
  obtain ⟨nodes, hgraph, hwf', hresult⟩ := rule.apply_keeps I leaf hwf hnode
  obtain ⟨hvalid, hreads⟩ := hresult result (by rw [hok])
  obtain rfl : g' = g.append nodes := by rw [← hgraph, hok]
  have hnext := keepsNodes_append I leaf hwf nodes
  exact ⟨hvalid, hreads, hwf', hkeeps.trans hnext, hnext⟩

/-- Integers as truth values, nonzero being true; a pattern is matched by an
equal operand. -/
def integerInterpretation : Interpretation ℤ where
  truth v := decide (v ≠ 0)
  ofBool b := if b then 1 else 0
  truth_ofBool b := by cases b <;> rfl
  isIn l := l.tail.contains (l.headD 0)
  like l := l.tail.contains (l.headD 0)
  ilike l := l.tail.contains (l.headD 0)
  other _ _ := none

/-- A conjunction of a comparison and a negated comparison of two columns. -/
def sampleGraph : OpGraph where
  operations := [{ op := .COLUMN }, { op := .COLUMN }, { op := .LT }, { op := .NOT },
    { op := .AND }]
  graphMapping := [[], [], [0, 1], [2], [2, 3]]

/-- The De Morgan rule on `sampleGraph`, after the `NOT` was reduced, with the
columns `1` and null. -/
theorem apply_keeps_value_sample :
    ∃ g result g', Transition.run ruleStep sampleGraph [(.reduceNotNop, 3)] = some g ∧
      LogicRule.demorgan.apply g 4 = (.ok result, g') ∧
      integerInterpretation.truthOf
          (value integerInterpretation g' (fun i => if i = 0 then some 1 else none) result) =
        integerInterpretation.truthOf
          (value integerInterpretation g (fun i => if i = 0 then some 1 else none) 4) := by
  have hwf : sampleGraph.WellFormed :=
    wellFormed_of_childrenFirst rfl (by decide) (by decide)
  refine ⟨_, _, _, rfl, rfl, ?_⟩
  have hrun : Transition.run ruleStep sampleGraph [(.reduceNotNop, 3)] = some _ := rfl
  exact (apply_keeps_value integerInterpretation _ hwf hrun .demorgan
    (by decide : OpGraph.Valid _ 4) rfl).2.1

end Query

end DistStorage
