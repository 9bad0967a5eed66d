import DistStorage.Parse.CompiledGraph
import DistStorage.Parse.Compiling

/-!
# The node of a compiled expression

Every visitor of an expression meets its specification, by recursion on the
parse tree. The node that the visit of an expression returns has the value that
SQL gives the expression, and its operands in their places, exactly when there
is no `IS NULL` in it: that visitor passes no operand on.
-/

namespace DistStorage

namespace Parse

open Cpp Query QueryGraph

section Operations

variable {env : Environment} {g₀ : QueryGraph} {names : Context} {need : QueryGraph → Prop}

theorem appendOperation_compiles {text : Bytes} {op : ColumnOperation} {args : List ℤ}
    (hop : opMap.lookup (normalizeOp text) = some op)
    (hargs : ∀ g, g.Coherent → need g → ∀ c ∈ args, g.Valid c) :
    Compiles env g₀ names need [] (appendOperation text args) (IsOperation op args) := by
  unfold appendOperation
  rw [hop]
  exact Compiles.appendNode (ne_const_of_lookup hop) nodeNone .Any hargs

theorem appendComparison_compiles (op : CmpOp) {l r : ℤ}
    (hargs : ∀ g, g.Coherent → need g → ∀ c ∈ [l, r], g.Valid c) :
    Compiles env g₀ names need [] (appendComparison op l r) (IsOperation op.operation [l, r]) := by
  have hop : opMap.lookup op.text = some op.operation := by
    cases op <;> decide
  unfold appendComparison
  rw [hop]
  exact Compiles.appendNode (ne_const_of_lookup hop) nodeNone .Any hargs

theorem appendUnlessSingle_compiles {op : ColumnOperation} (hop : op ≠ .CONST) {is : List ℤ}
    (his : ∀ g, g.Coherent → need g → ∀ c ∈ is, g.Valid c) :
    Compiles env g₀ names need [] (appendUnlessSingle op is) (IsUnlessSingle op is) := by
  unfold appendUnlessSingle
  split
  · exact Compiles.pure fun g _ _ => .inl rfl
  · rename_i hne
    refine (Compiles.appendNode hop nodeNone .Any his).conseq (fun _ _ h => h) ?_
    intro i g _ _ hi
    refine .inr ⟨fun hlength => ?_, hi⟩
    obtain ⟨j, rfl⟩ := List.length_eq_one_iff.mp hlength
    exact hne j rfl

theorem appendBetween_compiles {notOp : Bool} {middle lower upper : SqlExpr} {j k l : ℤ}
    (hneed : ∀ g, need g → IsNode env g₀ lower j g ∧ IsNode env g₀ middle k g ∧
      IsNode env g₀ upper l g) :
    Compiles env g₀ names need [] (appendBetween notOp j k l)
      (IsNode env g₀ (.between notOp middle lower upper)) := by
  have hop : (if notOp then ColumnOperation.NAND else .AND) ≠ .CONST := by
    cases notOp <;> simp
  refine (Compiles.appendNode (by simp) nodeNone .Any ?_).step fun c => ?_
  · intro g _ h
    simpa using ⟨(hneed g h).1.valid, (hneed g h).2.1.valid⟩
  refine (Compiles.appendNode (by simp) nodeNone .Any ?_).step fun d => ?_
  · intro g _ h
    simpa using ⟨(hneed g h.1).2.1.valid, (hneed g h.1).2.2.valid⟩
  refine (Compiles.appendNode hop nodeNone .Any ?_).conseq (fun _ _ h => h) ?_
  · intro g _ h
    simpa using ⟨h.1.2.valid, h.2.valid⟩
  · intro i g hg h hi
    obtain ⟨hj, hk, hl⟩ := hneed g h.1.1
    exact isNode_between hg hi h.1.2 h.2 hj hk hl

theorem index_last {α : Type} (l : List α) (a : α) :
    Cpp.index (l ++ [a]) (l.length : ℤ) = some a := by
  have h := Cpp.index_append_length l [a] 0
  rwa [Nat.cast_zero, add_zero] at h

/-- A constant is put behind the others of its type, and its node refers to it there. -/
theorem constant_compiles {α : Type} {append : QueryGraph → ℤ × QueryGraph}
    (put : QueryGraph → QueryGraph) (constants : QueryGraph → List α)
    (own : ∀ V : Type, SqlValues V → α → V) {o : QueryGraph → Operation} {value : α}
    (happend : ∀ g, append g = (put g).push (o g) [])
    (hput : ∀ g : QueryGraph, g.Extends (put g) ∧ (put g).toOpGraph = g.toOpGraph)
    (hadds : ∀ g : QueryGraph, g.Coherent → g.Adds False (append g))
    (hown : ∀ (g : QueryGraph) (V : Type) [LinearOrder V] (J : SqlValues V) (assigned : Option V),
      opValue J.interpretation (J.ownValue (put g) assigned (o g)) (o g) [] =
        (Cpp.index (constants g ++ [value]) ((constants g).length : ℤ)).map (own V J)) :
    Compiles env g₀ names need [] (build append) (IsLeaf fun V J => some (own V J value)) := by
  refine Compiles.leaf put happend hput hadds fun g V _ J assigned => ?_
  rw [hown, index_last]
  rfl

theorem appendInt64Constant_compiles (value : ℤ) :
    Compiles env g₀ names need [] (build fun g => g.appendInt64Constant value)
      (IsLeaf fun _ J => some (J.int64 value)) :=
  constant_compiles (fun g => { g with int64Constants := g.int64Constants ++ [value] })
    QueryGraph.int64Constants (fun _ J => J.int64) (fun _ => rfl)
    (fun g => ⟨{ Extends.refl g with int64Constants := List.prefix_append _ _ }, rfl⟩)
    (fun _ hg => appendInt64Constant_adds hg value) fun _ _ _ _ _ => rfl

theorem appendFloat64Constant_compiles (value : Double) :
    Compiles env g₀ names need [] (build fun g => g.appendFloat64Constant value)
      (IsLeaf fun _ J => some (J.float64 value)) :=
  constant_compiles (fun g => { g with float64Constants := g.float64Constants ++ [value] })
    QueryGraph.float64Constants (fun _ J => J.float64) (fun _ => rfl)
    (fun g => ⟨{ Extends.refl g with float64Constants := List.prefix_append _ _ }, rfl⟩)
    (fun _ hg => appendFloat64Constant_adds hg value) fun _ _ _ _ _ => rfl

theorem appendStringConstant_compiles (value : Bytes) :
    Compiles env g₀ names need [] (build fun g => g.appendStringConstant value)
      (IsLeaf fun _ J => some (J.string value)) :=
  constant_compiles (fun g => { g with stringConstants := g.stringConstants ++ [value] })
    QueryGraph.stringConstants (fun _ J => J.string) (fun _ => rfl)
    (fun g => ⟨{ Extends.refl g with stringConstants := List.prefix_append _ _ }, rfl⟩)
    (fun _ hg => appendStringConstant_adds hg value) fun _ _ _ _ _ => rfl

theorem appendKeyword_compiles {op : ColumnOperation} (hop : op ≠ .CONST) (type : ValueType)
    {v : ∀ V : Type, SqlValues V → Option V}
    (hvalue : ∀ (g : QueryGraph) (V : Type) [LinearOrder V] (J : SqlValues V)
      (assigned : Option V) (o : Operation), o.op = op →
      opValue J.interpretation (J.ownValue g assigned o) o [] = v V J) :
    Compiles env g₀ names need [] (build fun g => g.appendNode 0 op type []) (IsLeaf v) := by
  refine Compiles.leaf (fun g => g) (fun _ => rfl) (fun g => ⟨.refl g, rfl⟩)
    (fun g hg => ?_) (fun g V _ J assigned => hvalue g V J assigned _ rfl)
  have hadds : g.Adds (nodeNone ∈ ([] : List ℤ)) (g.appendNode 0 op type []) :=
    appendNode_adds hg 0 hop type (by simp)
  rwa [show (nodeNone ∈ ([] : List ℤ)) = False by simp] at hadds

theorem visitLiteralExpr_compiles {literal : Literal} {e : SqlExpr}
    (he : literal.toSql = some e) :
    Compiles env g₀ names need e.floats (visitLiteralExpr env literal)
      (Given (IsNode env g₀ e)) := by
  have hleaf : ∀ {m : Visit ℤ} {v : ∀ V : Type, SqlValues V → Option V} {texts : List Bytes},
      Compiles env g₀ names need texts m (IsLeaf v) →
      (∀ (g : OpGraph) i, e.InPlace g i ↔ g.children i = []) → e.testsNull = false →
      (∀ (V : Type) [LinearOrder V] (J : SqlValues V) (column : ℤ → Option V),
        e.value env J column = v V J) →
      Compiles env g₀ names need texts (toAny m) (Given (IsNode env g₀ e)) := by
    intro m v texts hm hplace htests hvalue
    refine (hm.conseq (fun _ _ h => h) fun i g _ _ hi => ?_).toAny
    exact isNode_of_isLeaf hi (hplace _ i) htests hvalue
  cases literal with
  | string token =>
      obtain ⟨text, htext, rfl⟩ := Option.map_eq_some_iff.mp he
      obtain ⟨str, hstr, hunescape⟩ := substr_of_readString htext
      rw [visitLiteralExpr, hstr]
      change Compiles env g₀ names need [] (toAny (build fun g =>
        g.appendStringConstant (unescapeSqlString str))) _
      rw [hunescape]
      apply hleaf (appendStringConstant_compiles text) (fun _ _ => by rw [SqlExpr.InPlace])
        (by rw [SqlExpr.testsNull])
      intro V _ J column
      rw [SqlExpr.value]
  | int minus token =>
      obtain ⟨num, hnum, rfl⟩ := Option.map_eq_some_iff.mp he
      rw [visitLiteralExpr, stoll_of_readInt hnum]
      change Compiles env g₀ names need [] (toAny (build fun g => g.appendInt64Constant num)) _
      apply hleaf (appendInt64Constant_compiles num) (fun _ _ => by rw [SqlExpr.InPlace])
        (by rw [SqlExpr.testsNull])
      intro V _ J column
      rw [SqlExpr.value]
  | float minus token =>
      obtain rfl := Option.some.inj he
      rw [visitLiteralExpr]
      rcases hstod : env.stod ((if minus then bytes "-" else []) ++ token) with e | d
      · refine Compiles.throw e fun hreads => ?_
        obtain ⟨d, hd⟩ := hreads _ (by rw [SqlExpr.floats]; exact List.mem_singleton_self _)
        rw [hstod] at hd
        cases hd
      · change Compiles env g₀ names need _ (toAny (build fun g => g.appendFloat64Constant d)) _
        apply hleaf ((appendFloat64Constant_compiles d).more_texts (List.nil_subset _))
          (fun _ _ => by rw [SqlExpr.InPlace]) (by rw [SqlExpr.testsNull])
        intro V _ J column
        rw [SqlExpr.value, floatValue, hstod]
  | nullKw =>
      obtain rfl := Option.some.inj he
      refine hleaf (v := fun _ _ => none) (appendKeyword_compiles (by simp) .Any ?_)
        (fun _ _ => by rw [SqlExpr.InPlace]) (by rw [SqlExpr.testsNull]) ?_
      · intro g V _ J assigned o ho
        simp only [opValue, ho]
      · intro V _ J column
        rw [SqlExpr.value]
  | trueKw =>
      obtain rfl := Option.some.inj he
      refine hleaf (v := fun _ J => some (J.ofBool true))
        (appendKeyword_compiles (by simp) .Bool ?_)
        (fun _ _ => by rw [SqlExpr.InPlace]) (by rw [SqlExpr.testsNull]) ?_
      · intro g V _ J assigned o ho
        simp [opValue, SqlValues.ownValue, ho]
      · intro V _ J column
        rw [SqlExpr.value]
  | falseKw =>
      obtain rfl := Option.some.inj he
      refine hleaf (v := fun _ J => some (J.ofBool false))
        (appendKeyword_compiles (by simp) .Bool ?_)
        (fun _ _ => by rw [SqlExpr.InPlace]) (by rw [SqlExpr.testsNull]) ?_
      · intro g V _ J assigned o ho
        simp [opValue, SqlValues.ownValue, ho]
      · intro V _ J column
        rw [SqlExpr.value]

/-- The node of a resolved name is that of the variable. -/
theorem resolve_compiles {varName : Bytes} (hfound : findIdent varName [names] ≠ nodeNone) :
    Compiles env g₀ names need [] (do
      let s ← Action.get
      let nodeId := findIdent varName [s.exprVarContext]
      if nodeId = nodeNone then
        Action.throw (.sqlCompileError (bytes "Unknown identifier: " ++ varName))
      else pure (some nodeId))
      (Given (IsNode env g₀ (.column (findIdent varName [names])))) := by
  obtain ⟨m, hm, hmem⟩ := findIdent_mem hfound
  obtain rfl := List.mem_singleton.mp hm
  intro s hs hneed
  have hread : ∀ f : VisitorState → Visit Any, (Action.get >>= f) s = f s s := fun _ => rfl
  dsimp only
  rw [hread, hs.names_eq, if_neg hfound]
  refine ⟨hs, .refl _, fun g hext hcoherent => ⟨_, rfl, ?_⟩⟩
  have hgrows := hs.grows.trans hext
  have hvalid := hs.names_valid _ hmem
  refine ⟨hgrows.valid hvalid, ?_, ?_⟩
  · rw [SqlExpr.InPlace, SqlExpr.testsNull]
    exact iff_of_true rfl rfl
  · intro _ V _ J column
    rw [SqlExpr.value]
    exact J.evaluate_extends hgrows hs.start_coherent hcoherent column hvalid

theorem visitColumnExpr_compiles {tableName : Option Bytes} {columnName : Bytes} {e : SqlExpr}
    (he : columnToSql names tableName columnName = some e) :
    Compiles env g₀ names need e.floats (visitColumnExpr tableName columnName)
      (Given (IsNode env g₀ e)) := by
  unfold columnToSql at he
  rw [Option.ite_none_left_eq_some] at he
  obtain ⟨hfound, he⟩ := he
  obtain rfl := Option.some.inj he
  cases tableName with
  | none => exact resolve_compiles hfound
  | some tableName => exact resolve_compiles hfound

theorem isNode_isNull {op : IsNullOp} {operand : SqlExpr} {oper : ColumnOperation} {i : ℤ}
    {g : QueryGraph} (h : IsOperation oper [] i g) : IsNode env g₀ (.isNull op operand) i g where
  valid := h.valid
  inPlace_iff := by simp [SqlExpr.InPlace, SqlExpr.testsNull, h.children_eq]
  value_eq := by simp [SqlExpr.testsNull]

theorem appendConnective_compiles (c : Connective) {es : List SqlExpr} {is : List ℤ}
    (hneed : ∀ g, need g → List.Forall₂ (fun e i => IsNode env g₀ e i g) es is) :
    Compiles env g₀ names need [] (appendUnlessSingle c.operation is)
      (IsNode env g₀ (.connectiveOf c es)) := by
  have hop : c.operation ≠ .CONST := by
    cases c <;> simp [Connective.operation]
  refine (appendUnlessSingle_compiles hop fun g _ h => ?_).conseq (fun _ _ h => h) ?_
  · exact valid_of_isNodes (hneed g h)
  · exact fun i g hg h hi => isNode_connectiveOf hg (hneed g h) hi

theorem operands_compile {first : SqlExpr} {others : List SqlExpr} {visitFirst : Visit Any}
    {visitOthers : Visit (List ℤ)}
    (hfirst : Compiles env g₀ names (fun _ => True) first.floats visitFirst
      (Given (IsNode env g₀ first)))
    (hothers : Compiles env g₀ names (fun _ => True) (floatsOf others) visitOthers
      (fun is g => List.Forall₂ (fun e i => IsNode env g₀ e i g) others is)) :
    Compiles env g₀ names (fun _ => True) (floatsOf (first :: others)) (do
      let nodeId ← castNode visitFirst
      let nodeIds ← visitOthers
      pure (nodeId :: nodeIds))
      (fun is g => List.Forall₂ (fun e i => IsNode env g₀ e i g) (first :: others) is) := by
  rw [floatsOf]
  refine hfirst.castNode.seq fun i => hothers.last fun is => ?_
  exact Compiles.pure fun g _ h => .cons h.1.2 h.2

/-- The operands of a connective, and the node over them. -/
theorem connective_compiles (c : Connective) {first : SqlExpr} {others : List SqlExpr}
    {visitFirst : Visit Any} {visitOthers : Visit (List ℤ)}
    (hfirst : Compiles env g₀ names (fun _ => True) first.floats visitFirst
      (Given (IsNode env g₀ first)))
    (hothers : Compiles env g₀ names (fun _ => True) (floatsOf others) visitOthers
      (fun is g => List.Forall₂ (fun e i => IsNode env g₀ e i g) others is)) :
    Compiles env g₀ names (fun _ => True) (SqlExpr.connectiveOf c (first :: others)).floats (do
      let nodeId ← castNode visitFirst
      let nodeIds ← visitOthers
      toAny (appendUnlessSingle c.operation (nodeId :: nodeIds)))
      (Given (IsNode env g₀ (.connectiveOf c (first :: others)))) := by
  rw [floats_connectiveOf, floatsOf]
  refine hfirst.castNode.seq fun i => hothers.last fun is => ?_
  exact (appendConnective_compiles c fun g h => .cons h.1.2 h.2).toAny

end Operations

section Recursion

variable (env : Environment) {g₀ : QueryGraph} {names : Context}

-- One case for each constructor: the nodes of the operands in the order of their
-- visits, then the node over them.
mutual

theorem visitExpression_compiles : (x : Expression) → {e : SqlExpr} → x.toSql names = some e →
    Compiles env g₀ names (fun _ => True) e.floats (visitExpression env x)
      (Given (IsNode env g₀ e))
  | .mk orExpr, e, he => by
      rw [visitExpression]
      rw [Expression.toSql] at he
      exact (visitOrExpr_compiles orExpr he).castNode.toAny

theorem visitOrExpr_compiles : (x : OrExpr) → {e : SqlExpr} → x.toSql names = some e →
    Compiles env g₀ names (fun _ => True) e.floats (visitOrExpr env x) (Given (IsNode env g₀ e))
  | .mk firstArg args, e, he => by
      simp only [OrExpr.toSql, Option.bind_eq_bind, Option.bind_eq_some_iff,
        Option.some.injEq] at he
      obtain ⟨first, hfirst, rest, hrest, rfl⟩ := he
      rw [visitOrExpr]
      exact connective_compiles .or (visitXorExpr_compiles firstArg hfirst)
        (visitXorExprs_compiles args hrest)

theorem visitXorExprs_compiles : (l : List XorExpr) → {es : List SqlExpr} →
    xorsToSql names l = some es →
    Compiles env g₀ names (fun _ => True) (floatsOf es) (visitXorExprs env l)
      (fun is g => List.Forall₂ (fun e i => IsNode env g₀ e i g) es is)
  | [], es, he => by
      rw [xorsToSql] at he
      obtain rfl := Option.some.inj he
      rw [visitXorExprs, floatsOf]
      exact Compiles.pure fun _ _ _ => .nil
  | arg :: rest, es, he => by
      simp only [xorsToSql, Option.bind_eq_bind, Option.bind_eq_some_iff, Option.some.injEq] at he
      obtain ⟨first, hfirst, others, hothers, rfl⟩ := he
      rw [visitXorExprs]
      exact operands_compile (visitXorExpr_compiles arg hfirst)
        (visitXorExprs_compiles rest hothers)

theorem visitXorExpr_compiles : (x : XorExpr) → {e : SqlExpr} → x.toSql names = some e →
    Compiles env g₀ names (fun _ => True) e.floats (visitXorExpr env x) (Given (IsNode env g₀ e))
  | .mk firstArg args, e, he => by
      simp only [XorExpr.toSql, Option.bind_eq_bind, Option.bind_eq_some_iff,
        Option.some.injEq] at he
      obtain ⟨first, hfirst, rest, hrest, rfl⟩ := he
      rw [visitXorExpr]
      exact connective_compiles .xor (visitAndExpr_compiles firstArg hfirst)
        (visitAndExprs_compiles args hrest)

theorem visitAndExprs_compiles : (l : List AndExpr) → {es : List SqlExpr} →
    andsToSql names l = some es →
    Compiles env g₀ names (fun _ => True) (floatsOf es) (visitAndExprs env l)
      (fun is g => List.Forall₂ (fun e i => IsNode env g₀ e i g) es is)
  | [], es, he => by
      rw [andsToSql] at he
      obtain rfl := Option.some.inj he
      rw [visitAndExprs, floatsOf]
      exact Compiles.pure fun _ _ _ => .nil
  | arg :: rest, es, he => by
      simp only [andsToSql, Option.bind_eq_bind, Option.bind_eq_some_iff, Option.some.injEq] at he
      obtain ⟨first, hfirst, others, hothers, rfl⟩ := he
      rw [visitAndExprs]
      exact operands_compile (visitAndExpr_compiles arg hfirst)
        (visitAndExprs_compiles rest hothers)

theorem visitAndExpr_compiles : (x : AndExpr) → {e : SqlExpr} → x.toSql names = some e →
    Compiles env g₀ names (fun _ => True) e.floats (visitAndExpr env x) (Given (IsNode env g₀ e))
  | .mk firstArg args, e, he => by
      simp only [AndExpr.toSql, Option.bind_eq_bind, Option.bind_eq_some_iff,
        Option.some.injEq] at he
      obtain ⟨first, hfirst, rest, hrest, rfl⟩ := he
      rw [visitAndExpr]
      exact connective_compiles .and (visitNotExpr_compiles firstArg hfirst)
        (visitNotExprs_compiles args hrest)

theorem visitNotExprs_compiles : (l : List NotExpr) → {es : List SqlExpr} →
    notsToSql names l = some es →
    Compiles env g₀ names (fun _ => True) (floatsOf es) (visitNotExprs env l)
      (fun is g => List.Forall₂ (fun e i => IsNode env g₀ e i g) es is)
  | [], es, he => by
      rw [notsToSql] at he
      obtain rfl := Option.some.inj he
      rw [visitNotExprs, floatsOf]
      exact Compiles.pure fun _ _ _ => .nil
  | arg :: rest, es, he => by
      simp only [notsToSql, Option.bind_eq_bind, Option.bind_eq_some_iff, Option.some.injEq] at he
      obtain ⟨first, hfirst, others, hothers, rfl⟩ := he
      rw [visitNotExprs]
      exact operands_compile (visitNotExpr_compiles arg hfirst)
        (visitNotExprs_compiles rest hothers)

theorem visitNotExpr_compiles : (x : NotExpr) → {e : SqlExpr} → x.toSql names = some e →
    Compiles env g₀ names (fun _ => True) e.floats (visitNotExpr env x) (Given (IsNode env g₀ e))
  | .not op exprNot, e, he => by
      simp only [NotExpr.toSql, Option.bind_eq_bind, Option.bind_eq_some_iff,
        Option.some.injEq] at he
      obtain ⟨operand, hoperand, rfl⟩ := he
      have hop : opMap.lookup (normalizeOp op.text) = some .NOT := by
        cases op <;> decide
      rw [visitNotExpr, SqlExpr.floats]
      refine (visitNotExpr_compiles exprNot hoperand).castNode.last fun i => Compiles.toAny ?_
      refine (appendOperation_compiles hop fun g _ h => ?_).conseq (fun _ _ h => h) ?_
      · simpa using h.2.valid
      · exact fun j g hg h hj => isNode_not hg hj h.2
  | .pass exprPass, e, he => by
      rw [NotExpr.toSql] at he
      rw [visitNotExpr]
      exact (visitCmpExpr_compiles exprPass he).castNode.toAny

theorem visitCmpExpr_compiles : (x : CmpExpr) → {e : SqlExpr} → x.toSql names = some e →
    Compiles env g₀ names (fun _ => True) e.floats (visitCmpExpr env x) (Given (IsNode env g₀ e))
  | .comparisonExpr left tail, e, he => by
      simp only [CmpExpr.toSql, Option.bind_eq_bind, Option.bind_eq_some_iff,
        Option.some.injEq, Prod.exists] at he
      obtain ⟨first, hfirst, ops, rights, htail, rfl⟩ := he
      rw [visitCmpExpr, SqlExpr.floats]
      refine (visitMathExpr_compiles left hfirst).castNode.seq fun i => ?_
      refine ((visitCmpTail_compiles i tail htail).conseq (fun g _ h => h.2.valid)
        fun _ _ _ _ h => h).finish fun is => Compiles.toAny ?_
      refine (appendUnlessSingle_compiles (by simp) fun g _ h => h.2.valid).conseq
        (fun _ _ h => h) ?_
      exact fun j g hg h hj => isNode_compare hg h.1.2 h.2 hj
  | .isNullExpr left op, e, he => by
      simp only [CmpExpr.toSql, Option.bind_eq_bind, Option.bind_eq_some_iff,
        Option.some.injEq] at he
      obtain ⟨operand, hoperand, rfl⟩ := he
      have hop : opMap.lookup (normalizeOp op.text) =
          some (if op.notKw then .IS_NOT_NULL else .IS_NULL) := by
        obtain ⟨notKw⟩ := op
        cases notKw <;> decide
      rw [visitCmpExpr]
      refine ((appendOperation_compiles hop (by simp)).conseq (fun _ _ h => h) ?_).toAny.more_texts
        (List.nil_subset _)
      exact fun i g _ _ hi => isNode_isNull hi
  | .inExpr left right, e, he => by
      rw [CmpExpr.toSql] at he
      cases he
  | .likeExpr left op right, e, he => by
      simp only [CmpExpr.toSql, Option.bind_eq_bind, Option.bind_eq_some_iff,
        Option.some.injEq] at he
      obtain ⟨first, hfirst, second, hsecond, rfl⟩ := he
      have hop : opMap.lookup (normalizeOp op.text) = some op.operation := by
        obtain ⟨notKw, kw⟩ := op
        cases notKw <;> cases kw <;> decide
      rw [visitCmpExpr, SqlExpr.floats]
      refine (visitMathExpr_compiles left hfirst).castNode.seq fun i => ?_
      refine (visitMathExpr_compiles right hsecond).castNode.last fun j => Compiles.toAny ?_
      refine (appendOperation_compiles hop fun g _ h => ?_).conseq (fun _ _ h => h) ?_
      · simpa using ⟨h.1.2.valid, h.2.valid⟩
      · exact fun k g hg h hk => isNode_like hg hk h.1.2 h.2
  | .betweenExpr left notOp lower upper, e, he => by
      simp only [CmpExpr.toSql, Option.bind_eq_bind, Option.bind_eq_some_iff,
        Option.some.injEq] at he
      obtain ⟨middle, hmiddle, first, hfirst, last, hlast, rfl⟩ := he
      rw [visitCmpExpr, SqlExpr.floats]
      refine (visitMathExpr_compiles lower hfirst).castNode.seq fun i => ?_
      refine (visitMathExpr_compiles left hmiddle).castNode.seq fun j => ?_
      refine (visitMathExpr_compiles upper hlast).castNode.last fun k => Compiles.toAny ?_
      exact appendBetween_compiles fun g h => ⟨h.1.1.2, h.1.2, h.2⟩
  | .mathFallthrough mathExpr, e, he => by
      rw [CmpExpr.toSql] at he
      rw [visitCmpExpr]
      exact visitMathExpr_compiles mathExpr he

theorem visitCmpTail_compiles (leftId : ℤ) : (x : CmpTail) → {ops : List CmpOp} →
    {es : List SqlExpr} → x.toSql names = some (ops, es) →
    Compiles env g₀ names (fun g => g.Valid leftId) (floatsOf es) (visitCmpTail env leftId x)
      (IsChain env g₀ leftId ops es)
  | .last op right, ops, es, he => by
      simp only [CmpTail.toSql, Option.bind_eq_bind, Option.bind_eq_some_iff,
        Option.some.injEq, Prod.mk.injEq] at he
      obtain ⟨first, hfirst, rfl, rfl⟩ := he
      rw [visitCmpTail, floatsOf, floatsOf, List.append_nil]
      refine (visitMathExpr_compiles right hfirst).castNode.last fun i => ?_
      refine (appendComparison_compiles op fun g _ h => ?_).step fun c => ?_
      · simpa using ⟨h.1, h.2.valid⟩
      · exact Compiles.pure fun g hg h => isChain_last hg h.2 h.1.2
  | .cons op right rest, ops, es, he => by
      simp only [CmpTail.toSql, Option.bind_eq_bind, Option.bind_eq_some_iff,
        Option.some.injEq, Prod.exists, Prod.mk.injEq] at he
      obtain ⟨first, hfirst, ops, rights, hrest, rfl, rfl⟩ := he
      rw [visitCmpTail, floatsOf]
      refine (visitMathExpr_compiles right hfirst).castNode.seq fun i => ?_
      refine (appendComparison_compiles op fun g _ h => ?_).step fun c => ?_
      · simpa using ⟨h.1, h.2.valid⟩
      refine ((visitCmpTail_compiles i rest hrest).conseq (fun g _ h => h.1.2.valid)
        fun _ _ _ _ h => h).finish fun cs => ?_
      exact Compiles.pure fun g hg h => isChain_cons hg h.1.2 h.1.1.2 h.2

theorem visitMathExpr_compiles : (x : MathExpr) → {e : SqlExpr} → x.toSql names = some e →
    Compiles env g₀ names (fun _ => True) e.floats (visitMathExpr env x) (Given (IsNode env g₀ e))
  | .primaryBase primaryExpr, e, he => by
      rw [MathExpr.toSql] at he
      rw [visitMathExpr]
      exact visitPrimaryExpr_compiles primaryExpr he
  | .castExpr left, e, he => by
      rw [MathExpr.toSql] at he
      cases he
  | .mulDivExpr left op right, e, he => by
      simp only [MathExpr.toSql, Option.bind_eq_bind, Option.bind_eq_some_iff,
        Option.some.injEq] at he
      obtain ⟨first, hfirst, second, hsecond, rfl⟩ := he
      have hop : opMap.lookup (normalizeOp op.text) = some op.toSql.operation := by
        cases op <;> decide
      rw [visitMathExpr, SqlExpr.floats]
      refine (visitMathExpr_compiles left hfirst).castNode.seq fun i => ?_
      refine (visitMathExpr_compiles right hsecond).castNode.last fun j => Compiles.toAny ?_
      refine (appendOperation_compiles hop fun g _ h => ?_).conseq (fun _ _ h => h) ?_
      · simpa using ⟨h.1.2.valid, h.2.valid⟩
      · exact fun k g hg h hk => isNode_arith hg hk h.1.2 h.2
  | .addSubExpr left op right, e, he => by
      simp only [MathExpr.toSql, Option.bind_eq_bind, Option.bind_eq_some_iff,
        Option.some.injEq] at he
      obtain ⟨first, hfirst, second, hsecond, rfl⟩ := he
      have hop : opMap.lookup (normalizeOp op.text) = some op.toSql.operation := by
        cases op <;> decide
      rw [visitMathExpr, SqlExpr.floats]
      refine (visitMathExpr_compiles left hfirst).castNode.seq fun i => ?_
      refine (visitMathExpr_compiles right hsecond).castNode.last fun j => Compiles.toAny ?_
      refine (appendOperation_compiles hop fun g _ h => ?_).conseq (fun _ _ h => h) ?_
      · simpa using ⟨h.1.2.valid, h.2.valid⟩
      · exact fun k g hg h hk => isNode_arith hg hk h.1.2 h.2

theorem visitPrimaryExpr_compiles : (x : PrimaryExpr) → {e : SqlExpr} → x.toSql names = some e →
    Compiles env g₀ names (fun _ => True) e.floats (visitPrimaryExpr env x)
      (Given (IsNode env g₀ e))
  | .parenthesizedExpr inside, e, he => by
      rw [PrimaryExpr.toSql] at he
      rw [visitPrimaryExpr]
      exact (visitExpression_compiles inside he).castNode.toAny
  | .subqueryExpr queryExpression, e, he => by
      rw [PrimaryExpr.toSql] at he
      cases he
  | .functionExpr functionCall, e, he => by
      rw [PrimaryExpr.toSql] at he
      cases he
  | .columnExpr tableName columnName, e, he => by
      rw [PrimaryExpr.toSql] at he
      rw [visitPrimaryExpr]
      exact visitColumnExpr_compiles he
  | .literalExpr literal, e, he => by
      rw [PrimaryExpr.toSql] at he
      rw [visitPrimaryExpr]
      exact visitLiteralExpr_compiles he

end

end Recursion

/-- What the node `i` of an expression is to satisfy after its visit. -/
structure Faithful (env : Environment) (e : SqlExpr) (s t : VisitorState) (i : ℤ) : Prop where
  inPlace : e.InPlace t.outGraph.toOpGraph i
  value_eq : ∀ (V : Type) [LinearOrder V] (J : SqlValues V) (column : ℤ → Option V),
    J.evaluate t.outGraph column i = e.value env J (J.evaluate s.outGraph column)

/-- The visit of an expression returns if its floating point literals can be
read. The node that it returns has the value of the expression and the operands
in their places if and only if there is no `IS NULL` in the expression. -/
theorem visitExpression_faithful_iff (env : Environment) {s : VisitorState} (hs : s.Sound [])
    (x : Expression) {e : SqlExpr} (he : x.toSql s.exprVarContext = some e) :
    (Reads env e.floats → ∃ a t, visitExpression env x s = .returned a t) ∧
      ∀ a t, visitExpression env x s = .returned a t →
        ∃ i, a = some i ∧ (Faithful env e s t i ↔ e.testsNull = false) := by
  have hexpanding : Expanding s.outGraph s.exprVarContext s :=
    ⟨hs.coherent, hs.vars, hs.coherent, .refl _, rfl⟩
  have hvisit := visitExpression_compiles env x he s hexpanding fun _ _ _ => trivial
  constructor
  · intro hreads
    cases hm : visitExpression env x s with
    | returned a t => exact ⟨a, t, rfl⟩
    | thrown ex t =>
        rw [hm] at hvisit
        exact absurd hreads hvisit
    | undefined =>
        rw [hm] at hvisit
        exact hvisit.elim
  · intro a t hm
    rw [hm] at hvisit
    obtain ⟨ht, -, hgives⟩ := hvisit
    obtain ⟨i, rfl, hi⟩ := hgives t.outGraph (.refl _) ht.coherent
    refine ⟨i, rfl, fun h => hi.inPlace_iff.mp h.inPlace, fun htests => ?_⟩
    exact ⟨hi.inPlace_iff.mpr htests, hi.value_eq htests⟩

def columnState : VisitorState where
  outGraph := ((default : QueryGraph).appendColumn (bytes "a") .Int64).2
  exprVarContext := (∅ : Context).insert (bytes "a") 0

theorem columnState_sound : columnState.Sound [] := by
  have hadds := appendColumn_adds coherent_empty (bytes "a") .Int64
  refine ⟨hadds.coherent, by simp, by simp [columnState], by simp [columnState], ?_⟩
  intro i hi
  rcases OrderedMap.mem_values_insert hi with rfl | hi
  · exact hadds.valid
  · simp at hi

/-- An expression that is one test or comparison. -/
def Expression.ofCmp (cmpExpr : CmpExpr) : Expression :=
  .mk (.mk (.mk (.mk (.pass cmpExpr) []) []) [])

def columnA : MathExpr := .primaryBase (.columnExpr none (bytes "a"))

def chainExpression : Expression :=
  .ofCmp (.comparisonExpr (.primaryBase (.literalExpr (.int false (bytes "1"))))
    (.cons .less columnA (.last .lessEqual (.primaryBase (.literalExpr (.int false (bytes "3")))))))

theorem chainExpression_toSql : chainExpression.toSql columnState.exprVarContext =
    some (.compare (.int 1) [.less, .lessEqual] [.column 0, .int 3]) := by
  have hcolumn : columnToSql columnState.exprVarContext none (bytes "a") = some (.column 0) := rfl
  have hone : readInt false (bytes "1") = some 1 := readInt_digit rfl
  have hthree : readInt false (bytes "3") = some 3 := readInt_digit rfl
  simp [chainExpression, Expression.ofCmp, columnA, Expression.toSql, OrExpr.toSql, xorsToSql,
    XorExpr.toSql, andsToSql, AndExpr.toSql, notsToSql, NotExpr.toSql, CmpExpr.toSql,
    CmpTail.toSql, MathExpr.toSql, PrimaryExpr.toSql, Literal.toSql, SqlExpr.connectiveOf,
    hcolumn, hone, hthree]

theorem visitExpression_faithful_iff_sample :
    ∃ i t, visitExpression sampleEnvironment chainExpression columnState =
        .returned (some i) t ∧
      Faithful sampleEnvironment (.compare (.int 1) [.less, .lessEqual] [.column 0, .int 3])
        columnState t i := by
  obtain ⟨hreturns, hfaithful⟩ := visitExpression_faithful_iff sampleEnvironment columnState_sound
    chainExpression chainExpression_toSql
  obtain ⟨a, t, hrun⟩ := hreturns (by simp [Reads, SqlExpr.floats, floatsOf])
  obtain ⟨i, rfl, hiff⟩ := hfaithful a t hrun
  exact ⟨i, t, hrun, hiff.mpr rfl⟩

/-- Truth values, with nothing but logic. -/
def truthValues : SqlValues Bool where
  truth := id
  ofBool := id
  truth_ofBool _ := rfl
  add _ _ := none
  sub _ _ := none
  mul _ _ := none
  div _ _ := none
  like _ _ := false
  ilike _ _ := false
  int64 _ := false
  float64 _ := false
  string _ := false

/-- `a IS NULL` is a node over nothing, and false where `a` is null. -/
theorem isNull_drops_operand :
    ∃ t, visitExpression sampleEnvironment (.ofCmp (.isNullExpr columnA ⟨false⟩)) columnState =
        .returned (some 1) t ∧
      t.outGraph.graphMapping = [[], []] ∧
      truthValues.evaluate t.outGraph (fun _ => none) 1 = some false ∧
      (SqlExpr.isNull ⟨false⟩ (.column 0)).value sampleEnvironment truthValues
        (truthValues.evaluate columnState.outGraph fun _ => none) = some true ∧
      ¬Faithful sampleEnvironment (.isNull ⟨false⟩ (.column 0)) columnState t 1 := by
  refine ⟨_, rfl, rfl, rfl, rfl, fun h => ?_⟩
  have hchildren := h.inPlace
  rw [SqlExpr.InPlace] at hchildren
  obtain ⟨j, hj, -⟩ := hchildren
  cases hj

end Parse

end DistStorage
