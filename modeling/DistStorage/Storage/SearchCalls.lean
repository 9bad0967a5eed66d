import DistStorage.Cpp.Logged
import DistStorage.Storage.FindIdxRange

/-!
# The positions that the search compares

The interval search is run here with a log of the calls of its two comparisons. The result
is that of the search. The end of a stage bounds a counter that starts at the stage, and a
child position is not bounded at all, so a search of several stages can leave a stage: where
it enters and leaves each of them follows from the number of keys before the interval and
the number up to its end, without running the comparisons.
-/

namespace DistStorage

namespace Storage

open Cpp Numeration

/-- A call of a comparison while a stage is searched. -/
structure Call where
  stage : ℕ
  position : ℕ
  deriving DecidableEq, Repr

def callLess (less : ℕ → Bool) (stage position : ℕ) : Logged Call Bool := do
  Logged.note ⟨stage, position⟩
  pure (less position)

/-- The comparison after `&&`, true when it is not called. -/
def callLessIf (c : Prop) [Decidable c] (less : ℕ → Bool) (stage position : ℕ) :
    Logged Call Bool :=
  if c then callLess less stage position else pure true

def advanceEndCalls (stage base stageEnd : ℕ) (lessEnd : ℕ → Bool) : ℕ → ℤ → Logged Call ℤ
  | 0, idx => pure idx
  | rounds + 1, idx =>
      if sizeOfInt idx < stageEnd then do
        let less ← callLess lessEnd stage (sizeT (base + sizeOfInt idx))
        if !less then do
          let idx ← Logged.ofOption (intSucc idx)
          advanceEndCalls stage base stageEnd lessEnd rounds idx
        else pure idx
      else pure idx

def retreatStartCalls (stage base : ℕ) (lessStart : ℕ → Bool) : ℕ → Logged Call ℕ
  | 0 => pure 0
  | idx + 1 => do
      let less ← callLess lessStart stage (sizeT (base + idx))
      if !less then retreatStartCalls stage base lessStart idx else pure (idx + 1)

def findStageStartCalls (stageEnds stageSizeSteps : ℕ → ℕ) (stage : ℕ) (lessStart : ℕ → Bool)
    (layerIdxStart resultStart : ℤ) : Logged Call (ℤ × ℤ) := do
  let stageStart := stageEnds (stage - 1)
  let layerIdxStart :=
    intOfSize (getNextStagePos (sizeOfInt layerIdxStart) (stage - 1) stageSizeSteps)
  let less ← callLessIf (0 < layerIdxStart) lessStart stage
    (sizeT (stageStart + layerIdxStart.toNat - 1))
  if !less then do
    -- the body of the loop comes before its condition
    let idx ← retreatStartCalls stage stageStart lessStart (layerIdxStart.toNat - 1)
    pure ((idx : ℤ), intOfSize
      (getStagePosItemsCount (sizeOfInt (idx : ℤ)) stage stageSizeSteps - 1))
  else do
    let next ← Logged.ofOption (intSucc resultStart)
    pure (layerIdxStart,
      intOfSize (sizeT (sizeOfInt next * stageDivisor stageSizeSteps (stage - 1))))

def findStageEndCalls (stageEnds stageSizeSteps : ℕ → ℕ) (stage : ℕ) (lessEnd : ℕ → Bool)
    (layerIdxEnd resultEnd : ℤ) : Logged Call (ℤ × ℤ) := do
  let stageStart := stageEnds (stage - 1)
  let stageEnd := stageEnds stage
  let layerIdxEnd :=
    intOfSize (getNextStagePos (sizeOfInt layerIdxEnd) (stage - 1) stageSizeSteps)
  let less ← callLessIf (sizeOfInt layerIdxEnd < stageEnd) lessEnd stage
    (sizeT (stageStart + sizeOfInt layerIdxEnd))
  if !less then do
    let next ← Logged.ofOption (intSucc layerIdxEnd)
    let layerIdxEnd ← advanceEndCalls stage stageStart stageEnd lessEnd (stageEnd - 1) next
    pure (layerIdxEnd, intOfSize
      (getStagePosItemsCount (sizeOfInt layerIdxEnd) stage stageSizeSteps - 1))
  else do
    let next ← Logged.ofOption (intSucc resultEnd)
    pure (layerIdxEnd,
      intOfSize (sizeT (sizeOfInt next * stageDivisor stageSizeSteps (stage - 1))))

def findStageCalls (stageEnds stageSizeSteps : ℕ → ℕ) (lessStart lessEnd : ℕ → Bool)
    (stage : ℕ) (s : FindState) : Logged Call FindState := do
  let first ← findStageStartCalls stageEnds stageSizeSteps stage lessStart s.layerIdxStart
    s.resultStart
  let last ← findStageEndCalls stageEnds stageSizeSteps stage lessEnd s.layerIdxEnd s.resultEnd
  pure { layerIdxStart := first.1, layerIdxEnd := last.1, resultStart := first.2,
         resultEnd := last.2 }

def findStagesCalls (stageEnds stageSizeSteps : ℕ → ℕ) (lessStart lessEnd : ℕ → Bool) :
    ℕ → ℕ → FindState → Logged Call FindState
  | 0, _, s => pure s
  | remaining + 1, stage, s => do
      let s ← findStageCalls stageEnds stageSizeSteps lessStart lessEnd stage s
      findStagesCalls stageEnds stageSizeSteps lessStart lessEnd remaining (stage + 1) s

def findIdxRangeCalls (stageEnds stageSizeSteps : ℕ → ℕ) (nstages : ℕ)
    (lessStart lessEnd : ℕ → Bool) : Logged Call (ℤ × ℤ) := do
  let layerIdxEnd ← advanceEndCalls 0 0 (stageEnds 0) lessEnd (stageEnds 0) 0
  let layerIdxStart ← retreatStartCalls 0 0 lessStart layerIdxEnd.toNat
  let s ← findStagesCalls stageEnds stageSizeSteps lessStart lessEnd (nstages - 1) 1
    { layerIdxStart := layerIdxStart, layerIdxEnd, resultStart := layerIdxStart,
      resultEnd := layerIdxEnd }
  pure (s.resultStart, s.resultEnd)

section Value

theorem value_advanceEndCalls (stage base stageEnd : ℕ) (lessEnd : ℕ → Bool) (rounds : ℕ)
    (idx : ℤ) : (advanceEndCalls stage base stageEnd lessEnd rounds idx).value =
      advanceEnd base stageEnd lessEnd rounds idx := by
  induction rounds generalizing idx with
  | zero => rfl
  | succ rounds ih =>
      rw [advanceEndCalls, advanceEnd]
      by_cases hlt : sizeOfInt idx < stageEnd
      · rw [if_pos hlt]
        change (if (!lessEnd (sizeT (base + sizeOfInt idx))) = true then
          (do
            let idx ← Logged.ofOption (intSucc idx)
            advanceEndCalls stage base stageEnd lessEnd rounds idx)
          else pure idx : Logged Call ℤ).value = _
        by_cases hless : (!lessEnd (sizeT (base + sizeOfInt idx))) = true
        · rw [if_pos hless, if_pos ⟨hlt, hless⟩, Logged.value_bind]
          exact congrArg _ (funext ih)
        · rw [if_neg hless, if_neg fun h => hless h.2]
          rfl
      · rw [if_neg hlt, if_neg fun h => hlt h.1]
        rfl

theorem value_retreatStartCalls (stage base : ℕ) (lessStart : ℕ → Bool) (idx : ℕ) :
    (retreatStartCalls stage base lessStart idx).value =
      some (retreatStart base lessStart idx) := by
  induction idx with
  | zero => rfl
  | succ idx ih =>
      rw [retreatStartCalls, retreatStart]
      change (if (!lessStart (sizeT (base + idx))) = true then
        retreatStartCalls stage base lessStart idx else pure (idx + 1) : Logged Call ℕ).value = _
      split_ifs with hless
      · exact ih
      · rfl

theorem value_callLessIf (c : Prop) [Decidable c] (less : ℕ → Bool) (stage position : ℕ) :
    (callLessIf c less stage position).value = some (if c then less position else true) := by
  unfold callLessIf
  split_ifs <;> rfl

theorem value_findStageStartCalls (stageEnds stageSizeSteps : ℕ → ℕ) (stage : ℕ)
    (lessStart : ℕ → Bool) (layerIdxStart resultStart : ℤ) :
    (findStageStartCalls stageEnds stageSizeSteps stage lessStart layerIdxStart
      resultStart).value =
      findStageStart stageEnds stageSizeSteps stage lessStart layerIdxStart resultStart := by
  simp only [findStageStartCalls, findStageStart]
  generalize intOfSize (getNextStagePos (sizeOfInt layerIdxStart) (stage - 1) stageSizeSteps) = idx
  rw [Logged.value_bind, value_callLessIf, Option.bind_some]
  by_cases hpos : 0 < idx
  · obtain ⟨k, hk⟩ := Nat.exists_eq_succ_of_ne_zero (show idx.toNat ≠ 0 by omega)
    rw [if_pos hpos]
    by_cases hless : (!lessStart (sizeT (stageEnds (stage - 1) + idx.toNat - 1))) = true
    · rw [if_pos hless, if_pos ⟨hpos, hless⟩, Logged.value_bind, value_retreatStartCalls, hk]
      rw [hk, Nat.succ_eq_add_one, Nat.add_succ_sub_one] at hless
      rw [Nat.succ_eq_add_one, retreatStart, if_pos hless]
      rfl
    · rw [if_neg hless, if_neg fun h => hless h.2]
      exact Logged.value_ofOption_bind_pure _ _
  · rw [if_neg hpos, if_neg (show ¬(!true) = true by simp), if_neg fun h => hpos h.1]
    exact Logged.value_ofOption_bind_pure _ _

theorem value_findStageEndCalls (stageEnds stageSizeSteps : ℕ → ℕ) (stage : ℕ)
    (lessEnd : ℕ → Bool) (layerIdxEnd resultEnd : ℤ) :
    (findStageEndCalls stageEnds stageSizeSteps stage lessEnd layerIdxEnd resultEnd).value =
      findStageEnd stageEnds stageSizeSteps stage lessEnd layerIdxEnd resultEnd := by
  simp only [findStageEndCalls, findStageEnd]
  generalize intOfSize (getNextStagePos (sizeOfInt layerIdxEnd) (stage - 1) stageSizeSteps) = idx
  rw [Logged.value_bind, value_callLessIf, Option.bind_some]
  by_cases hlt : sizeOfInt idx < stageEnds stage
  · obtain ⟨k, hk⟩ := Nat.exists_eq_succ_of_ne_zero (show stageEnds stage ≠ 0 by omega)
    rw [if_pos hlt]
    by_cases hless : (!lessEnd (sizeT (stageEnds (stage - 1) + sizeOfInt idx))) = true
    · have hadvance : advanceEnd (stageEnds (stage - 1)) (stageEnds stage) lessEnd
          (stageEnds stage) idx = (intSucc idx).bind
            (advanceEnd (stageEnds (stage - 1)) (stageEnds stage) lessEnd
              (stageEnds stage - 1)) := by
        conv_lhs => rw [hk, Nat.succ_eq_add_one, advanceEnd]
        rw [← Nat.succ_eq_add_one, ← hk, if_pos ⟨hlt, hless⟩, hk, Nat.succ_sub_one]
      rw [if_pos hless, if_pos ⟨hlt, hless⟩, hadvance, Option.map_bind, Logged.value_bind]
      refine congrArg _ (funext fun next => ?_)
      rw [Logged.value_bind, value_advanceEndCalls, Function.comp, Option.map_eq_bind]
      rfl
    · rw [if_neg hless, if_neg fun h => hless h.2]
      exact Logged.value_ofOption_bind_pure _ _
  · rw [if_neg hlt, if_neg (show ¬(!true) = true by simp), if_neg fun h => hlt h.1]
    exact Logged.value_ofOption_bind_pure _ _

theorem value_findStagesCalls (stageEnds stageSizeSteps : ℕ → ℕ) (lessStart lessEnd : ℕ → Bool)
    (remaining stage : ℕ) (s : FindState) :
    (findStagesCalls stageEnds stageSizeSteps lessStart lessEnd remaining stage s).value =
      findStages stageEnds stageSizeSteps lessStart lessEnd remaining stage s := by
  have hstage : ∀ stage s,
      (findStageCalls stageEnds stageSizeSteps lessStart lessEnd stage s).value =
        findStage stageEnds stageSizeSteps lessStart lessEnd stage s := by
    intro stage s
    rw [findStageCalls, findStage, Logged.value_bind, value_findStageStartCalls]
    refine congrArg _ (funext fun first => ?_)
    rw [Logged.value_bind, value_findStageEndCalls]
    exact (Option.map_eq_bind ..).symm
  induction remaining generalizing stage s with
  | zero => rfl
  | succ remaining ih =>
      rw [findStagesCalls, findStages, Logged.value_bind, hstage]
      exact congrArg _ (funext fun t => ih (stage + 1) t)

theorem value_findIdxRangeCalls (stageEnds stageSizeSteps : ℕ → ℕ) (nstages : ℕ)
    (lessStart lessEnd : ℕ → Bool) :
    (findIdxRangeCalls stageEnds stageSizeSteps nstages lessStart lessEnd).value =
      findIdxRange stageEnds stageSizeSteps nstages lessStart lessEnd := by
  rw [findIdxRangeCalls, findIdxRange, Logged.value_bind, value_advanceEndCalls]
  refine congrArg _ (funext fun layerIdxEnd => ?_)
  rw [Logged.value_bind, value_retreatStartCalls, Option.bind_some, Logged.value_bind,
    value_findStagesCalls, Option.map_eq_bind]
  rfl

end Value

/-- The position is one of an element, in the segment of the stage that is searched. -/
def Call.InSegment (n nstages : ℕ) (stageSizeSteps : ℕ → ℕ) (c : Call) : Prop :=
  c.position < n ∧ InStage (computeStageEnds n stageSizeSteps nstages) c.stage c.position

/-- The search ends and compares positions of the segments only. -/
def SearchInput.ComparesSegments {α : Type*} [LinearOrder α] {n nstages : ℕ}
    {stageSizeSteps : ℕ → ℕ} (x : SearchInput α n nstages stageSizeSteps) : Prop :=
  (findIdxRangeCalls (computeStageEnds n stageSizeSteps nstages) stageSizeSteps nstages
    x.lessStart x.lessEnd).Ensures (Call.InSegment n nstages stageSizeSteps) fun _ => True

/-- Where the start is in a stage with `m` keys before the interval: at the child of
where it is in the stage before, or before that child at the keys of the stage. -/
def startPlace (stageSizeSteps : ℕ → ℕ) (nstages m : ℕ) : ℕ → ℕ
  | 0 => stageCount stageSizeSteps nstages 0 m
  | stage + 1 =>
      min (getNextStagePos (startPlace stageSizeSteps nstages m stage) stage stageSizeSteps)
        (stageCount stageSizeSteps nstages (stage + 1) m)

/-- Where the end is in a stage with `m` keys up to the end of the interval. -/
def endPlace (stageSizeSteps : ℕ → ℕ) (nstages m : ℕ) : ℕ → ℕ
  | 0 => stageCount stageSizeSteps nstages 0 m
  | stage + 1 =>
      max (getNextStagePos (endPlace stageSizeSteps nstages m stage) stage stageSizeSteps)
        (stageCount stageSizeSteps nstages (stage + 1) m)

/-- The stage behind `stage` keeps the comparisons in its segment: the start enters it
inside, and the end does and stops inside, or enters it past the cumulative end. -/
structure InsideStage (n nstages : ℕ) (stageSizeSteps : ℕ → ℕ) (below upTo stage : ℕ) : Prop where
  start : getNextStagePos (startPlace stageSizeSteps nstages below stage) stage stageSizeSteps ≤
    computeStageEnds n stageSizeSteps nstages (stage + 1) -
      computeStageEnds n stageSizeSteps nstages stage
  stop : computeStageEnds n stageSizeSteps nstages (stage + 1) ≤
      getNextStagePos (endPlace stageSizeSteps nstages upTo stage) stage stageSizeSteps ∨
    getNextStagePos (endPlace stageSizeSteps nstages upTo stage) stage stageSizeSteps <
        computeStageEnds n stageSizeSteps nstages (stage + 1) -
          computeStageEnds n stageSizeSteps nstages stage ∧
      (stageCount stageSizeSteps nstages (stage + 1) upTo <
          computeStageEnds n stageSizeSteps nstages (stage + 1) -
            computeStageEnds n stageSizeSteps nstages stage ∨
        computeStageEnds n stageSizeSteps nstages stage = 0)

/-- All stages keep the comparisons in their segments, for the number of keys before the
interval and the number of keys up to its end. -/
def Inside (n nstages : ℕ) (stageSizeSteps : ℕ → ℕ) (below upTo : ℕ) : Prop :=
  ∀ stage < nstages - 1, InsideStage n nstages stageSizeSteps below upTo stage

/-- The end of the result when no stage moves it, the greatest that it can be. -/
def resultBound (stageSizeSteps : ℕ → ℕ) (nstages upTo : ℕ) : ℕ → ℕ
  | 0 => stagesCount stageSizeSteps nstages 0 upTo
  | stage + 1 => (resultBound stageSizeSteps nstages upTo stage + 1) * (stageSizeSteps stage + 1)

/-- The counters that the search goes on with fit an `int`. -/
def CountersFit (nstages : ℕ) (stageSizeSteps : ℕ → ℕ) (upTo : ℕ) : Prop :=
  stagesCount stageSizeSteps nstages 0 upTo < 2 ^ 31 ∧
    ∀ stage < nstages - 1,
      (resultBound stageSizeSteps nstages upTo stage + 1) * stageSizeSteps stage < 2 ^ 31

instance (n nstages : ℕ) (stageSizeSteps : ℕ → ℕ) (below upTo stage : ℕ) :
    Decidable (InsideStage n nstages stageSizeSteps below upTo stage) :=
  decidable_of_iff (_ ∧ _) ⟨fun h => ⟨h.1, h.2⟩, fun h => ⟨h.start, h.stop⟩⟩

instance (n nstages : ℕ) (stageSizeSteps : ℕ → ℕ) (below upTo : ℕ) :
    Decidable (Inside n nstages stageSizeSteps below upTo) :=
  inferInstanceAs (Decidable (∀ stage < nstages - 1, _))

instance (nstages : ℕ) (stageSizeSteps : ℕ → ℕ) (upTo : ℕ) :
    Decidable (CountersFit nstages stageSizeSteps upTo) :=
  inferInstanceAs (Decidable (_ ∧ _))

section Loops

variable {P : Call → Prop}

theorem callLess_ensures {less : ℕ → Bool} {stage position : ℕ} (h : P ⟨stage, position⟩) :
    (callLess less stage position).Ensures P (· = less position) := by
  have hnote : (Logged.note (⟨stage, position⟩ : Call)).Ensures P fun _ => True := .note h
  exact hnote.bind fun _ _ => .pure rfl

theorem callLessIf_ensures {c : Prop} [Decidable c] {less : ℕ → Bool} {stage position : ℕ}
    (h : c → P ⟨stage, position⟩) :
    (callLessIf c less stage position).Ensures P (· = if c then less position else true) := by
  unfold callLessIf
  split_ifs with hc
  · exact callLess_ensures (h hc)
  · exact .pure rfl

theorem mem_log_callLessIf {c : Prop} [Decidable c] {less : ℕ → Bool} {stage position : ℕ}
    (hc : c) : (⟨stage, position⟩ : Call) ∈ (callLessIf c less stage position).log := by
  rw [callLessIf, if_pos hc]
  exact List.mem_singleton_self _

variable {stage base e : ℕ}

/-- The scan for the end compares the positions up to where it stops. -/
theorem advanceEndCalls_ensures {stageEnd : ℕ} {lessEnd : ℕ → Bool} (hfit : e < 2 ^ 31)
    (he : e ≤ stageEnd) (hcalls : ∀ i ≤ e, i < stageEnd → P ⟨stage, sizeT (base + i)⟩)
    (hless : ∀ i ≤ e, i < stageEnd → (!lessEnd (sizeT (base + i))) = decide (i < e))
    (rounds k : ℕ) (hk : k ≤ e) (hrounds : e ≤ k + rounds) :
    (advanceEndCalls stage base stageEnd lessEnd rounds k).Ensures P (· = (e : ℤ)) := by
  induction rounds generalizing k with
  | zero =>
      obtain rfl : k = e := by omega
      exact .pure rfl
  | succ rounds ih =>
      rw [advanceEndCalls, sizeOfInt_natCast (by omega)]
      by_cases hlt : k < stageEnd
      · rw [if_pos hlt]
        refine (callLess_ensures (hcalls k hk hlt)).bind fun less hles => ?_
        rw [hles, hless k hk hlt]
        by_cases hke : k < e
        · rw [if_pos (decide_eq_true hke)]
          refine (Logged.Ensures.ofOption (Q := fun idx => idx = ((k + 1 : ℕ) : ℤ))
            (intSucc_natCast (by omega)) rfl).bind fun idx hidx => ?_
          rw [hidx]
          exact ih (k + 1) hke (by omega)
        · obtain rfl : k = e := by omega
          rw [if_neg (by simp)]
          exact .pure rfl
      · obtain rfl : k = e := by omega
        rw [if_neg hlt]
        exact .pure rfl

/-- A scan for the end that nothing stops before `e` compares the position there. -/
theorem mem_log_advanceEndCalls {stageEnd : ℕ} {lessEnd : ℕ → Bool} (hfit : e < 2 ^ 31)
    (he : e < stageEnd) (hless : ∀ i < e, lessEnd (sizeT (base + i)) = false) (rounds k : ℕ)
    (hk : k ≤ e) (hrounds : e < k + rounds) :
    (⟨stage, sizeT (base + e)⟩ : Call) ∈
      (advanceEndCalls stage base stageEnd lessEnd rounds k).log := by
  induction rounds generalizing k with
  | zero => omega
  | succ rounds ih =>
      rw [advanceEndCalls, sizeOfInt_natCast (by omega), if_pos (by omega)]
      by_cases hke : k < e
      · refine Logged.mem_log_bind.mpr (.inr ⟨_, rfl, ?_⟩)
        rw [if_pos (by simp [hless k hke]), intSucc_natCast (by omega)]
        exact Logged.mem_log_bind.mpr (.inr ⟨_, rfl, ih (k + 1) hke (by omega)⟩)
      · obtain rfl : k = e := by omega
        exact Logged.mem_log_bind.mpr (.inl (List.mem_singleton_self _))

/-- The scan for the start compares positions before the one it starts from. -/
theorem retreatStartCalls_ensures {lessStart : ℕ → Bool} (idx : ℕ)
    (hcalls : ∀ i < idx, P ⟨stage, sizeT (base + i)⟩)
    (hless : ∀ i < idx, lessStart (sizeT (base + i)) = decide (i < e)) :
    (retreatStartCalls stage base lessStart idx).Ensures P (· = min idx e) := by
  induction idx with
  | zero => exact .pure (Nat.zero_min e).symm
  | succ idx ih =>
      refine (callLess_ensures (hcalls idx (Nat.lt_succ_self idx))).bind fun less hles => ?_
      rw [hles, hless idx (Nat.lt_succ_self idx)]
      by_cases hlt : idx < e
      · rw [if_neg (by simp [hlt])]
        exact .pure (by omega)
      · rw [if_pos (by simp [hlt])]
        exact (ih (fun i hi => hcalls i (by omega)) fun i hi => hless i (by omega)).mono
          fun k hk => by omega

end Loops

section Bounds

variable {nstages : ℕ} {stageSizeSteps : ℕ → ℕ} (h : StepsFit stageSizeSteps (nstages - 1))

include h

theorem getStagePosItemsCount_le {a p stage : ℕ} (hs : stage + 1 < nstages) (ha : 1 ≤ a)
    (hp : p ≤ a * stageSizeSteps stage) :
    getStagePosItemsCount p (stage + 1) stageSizeSteps ≤ a * (stageSizeSteps stage + 1) + 1 := by
  have hitems : sizeT (p + 1) ≤ a * stageSizeSteps stage + 1 :=
    (Nat.mod_le _ _).trans (Nat.succ_le_succ hp)
  have hblocks : sizeT (p + 1) / (stageSizeSteps stage + 1) ≤ a := by
    refine Nat.div_le_of_le_mul (hitems.trans ?_)
    rw [Nat.add_mul, Nat.one_mul, Nat.mul_comm]
    omega
  rw [getStagePosItemsCount, if_neg (Nat.succ_ne_zero stage), Nat.add_sub_cancel,
    stageDivisor_eq h (by omega)]
  refine (Nat.mod_le _ _).trans ((Nat.add_le_add hitems hblocks).trans ?_)
  rw [Nat.mul_succ]
  omega

omit h in
theorem stagesCount_le_resultBound (m stage : ℕ) (hs : stage < nstages) :
    stagesCount stageSizeSteps nstages stage m ≤
      resultBound stageSizeSteps nstages m stage := by
  induction stage with
  | zero => exact le_rfl
  | succ stage ih =>
      have hprev := ih (by omega)
      rw [stagesCount_prev hs] at hprev
      rw [resultBound]
      exact (Nat.lt_mul_of_div_lt (Nat.lt_succ_of_le hprev) (Nat.succ_pos _)).le

/-- The end stays in the block of the bound, and its items stay below it. -/
theorem endPlace_le (m stage : ℕ) (hs : stage < nstages) :
    getStagePosItemsCount (endPlace stageSizeSteps nstages m stage) stage stageSizeSteps ≤
        resultBound stageSizeSteps nstages m stage + 1 ∧
      (stage + 1 < nstages → endPlace stageSizeSteps nstages m (stage + 1) ≤
        (resultBound stageSizeSteps nstages m stage + 1) *
          stageSizeSteps stage) := by
  have hnext : ∀ stage, stage < nstages →
      getStagePosItemsCount (endPlace stageSizeSteps nstages m stage) stage stageSizeSteps ≤
        resultBound stageSizeSteps nstages m stage + 1 →
      stage + 1 < nstages → endPlace stageSizeSteps nstages m (stage + 1) ≤
        (resultBound stageSizeSteps nstages m stage + 1) *
          stageSizeSteps stage := by
    intro stage hs hitems hsucc
    refine max_le ?_ ((stageCount_succ_le hsucc m).trans ?_)
    · exact (Nat.mod_le _ _).trans (Nat.mul_le_mul_right _ hitems)
    · exact Nat.mul_le_mul_right _ (Nat.succ_le_succ (stagesCount_le_resultBound m stage hs))
  have hitems : getStagePosItemsCount (endPlace stageSizeSteps nstages m stage) stage
      stageSizeSteps ≤
        resultBound stageSizeSteps nstages m stage + 1 := by
    induction stage with
    | zero => exact Nat.mod_le _ _
    | succ stage ih =>
        exact getStagePosItemsCount_le h hs (Nat.succ_pos _)
          (hnext stage (by omega) (ih (by omega)) hs)
  exact ⟨hitems, hnext stage hs hitems⟩

theorem startPlace_le {m m' : ℕ} (hm : m ≤ m') (stage : ℕ) (hs : stage < nstages) :
    getStagePosItemsCount (startPlace stageSizeSteps nstages m stage) stage stageSizeSteps ≤
        resultBound stageSizeSteps nstages m' stage + 1 ∧
      (stage + 1 < nstages → startPlace stageSizeSteps nstages m (stage + 1) ≤
        (resultBound stageSizeSteps nstages m' stage + 1) *
          stageSizeSteps stage) := by
  have hnext : ∀ stage, stage + 1 < nstages → startPlace stageSizeSteps nstages m (stage + 1) ≤
      (resultBound stageSizeSteps nstages m' stage + 1) *
        stageSizeSteps stage := by
    intro stage hs
    refine (min_le_right _ _).trans ((stageCount_succ_le hs m).trans (Nat.mul_le_mul_right _ ?_))
    exact Nat.succ_le_succ ((Nat.div_le_div_right hm).trans
      (stagesCount_le_resultBound m' stage (by omega)))
  refine ⟨?_, hnext stage⟩
  cases stage with
  | zero => exact (Nat.mod_le _ _).trans (Nat.succ_le_succ (Nat.div_le_div_right hm))
  | succ stage => exact getStagePosItemsCount_le h hs (Nat.succ_pos _) (hnext stage hs)

end Bounds

section Segments

variable {n nstages : ℕ} {stageSizeSteps : ℕ → ℕ} {stage i : ℕ} (hn : n < 2 ^ 64)
  (h : StepsFit stageSizeSteps (nstages - 1)) (hs : stage + 1 < nstages)

include hn h hs

theorem stageEnd_lt : computeStageEnds n stageSizeSteps nstages (stage + 1) < 2 ^ 64 := by
  rw [computeStageEnds_eq hn h hs]
  exact (Nat.div_le_self _ _).trans_lt hn

theorem inSegment_of_lt (hi : i < computeStageEnds n stageSizeSteps nstages (stage + 1) -
      computeStageEnds n stageSizeSteps nstages stage) :
    sizeT (computeStageEnds n stageSizeSteps nstages stage + i) =
        computeStageEnds n stageSizeSteps nstages stage + i ∧
      Call.InSegment n nstages stageSizeSteps
        ⟨stage + 1, sizeT (computeStageEnds n stageSizeSteps nstages stage + i)⟩ := by
  have hlt := stageEnd_lt hn h hs
  have hsize : computeStageEnds n stageSizeSteps nstages (stage + 1) ≤ n := by
    rw [computeStageEnds_eq hn h hs]
    exact Nat.div_le_self _ _
  have hin : computeStageEnds n stageSizeSteps nstages stage + i <
      computeStageEnds n stageSizeSteps nstages (stage + 1) := by omega
  have hposition := sizeT_of_lt (hin.trans hlt)
  refine ⟨hposition, ?_⟩
  rw [hposition]
  exact ⟨hin.trans_le hsize, Nat.le_add_right _ _, hin⟩

theorem not_inSegment_of_le (hi : computeStageEnds n stageSizeSteps nstages (stage + 1) -
      computeStageEnds n stageSizeSteps nstages stage ≤ i) (hfit : i < 2 ^ 31) :
    ¬Call.InSegment n nstages stageSizeSteps
      ⟨stage + 1, sizeT (computeStageEnds n stageSizeSteps nstages stage + i)⟩ := by
  rintro ⟨-, hle, hlt⟩
  have hend := stageEnd_lt hn h hs
  change computeStageEnds n stageSizeSteps nstages stage ≤ (_ % 2 ^ 64) at hle
  change _ % 2 ^ 64 < computeStageEnds n stageSizeSteps nstages (stage + 1) at hlt
  omega

end Segments

/-- A counter at a place, with its result up to a bound as long as that fits an `int`. -/
def Placed (place bound : ℕ) (r : ℤ × ℤ) : Prop :=
  r.1 = (place : ℤ) ∧ (bound < 2 ^ 31 → ∃ q ≤ bound, r.2 = (q : ℤ))

structure AtStage (nstages : ℕ) (stageSizeSteps : ℕ → ℕ) (below upTo stage : ℕ)
    (s : FindState) : Prop where
  start : Placed (startPlace stageSizeSteps nstages below stage)
    (resultBound stageSizeSteps nstages upTo stage) (s.layerIdxStart, s.resultStart)
  stop : Placed (endPlace stageSizeSteps nstages upTo stage)
    (resultBound stageSizeSteps nstages upTo stage) (s.layerIdxEnd, s.resultEnd)

section Results

variable {nstages : ℕ} {stageSizeSteps : ℕ → ℕ} {stage bound : ℕ}

theorem placed_moved {p : ℕ} (hp : p < 2 ^ 64)
    (hitems : getStagePosItemsCount p stage stageSizeSteps ≤ bound + 1) :
    Placed p bound ((p : ℤ),
      intOfSize (getStagePosItemsCount (sizeOfInt (p : ℤ)) stage stageSizeSteps - 1)) := by
  refine ⟨rfl, fun hbound => ⟨getStagePosItemsCount p stage stageSizeSteps - 1, by omega, ?_⟩⟩
  rw [sizeOfInt_natCast hp, intOfSize_of_lt (by omega)]

theorem placed_multiplied (h : StepsFit stageSizeSteps (nstages - 1)) (hs : stage + 1 < nstages)
    (p : ℕ) {q : ℕ} (hq : q ≤ bound) :
    Placed p ((bound + 1) * (stageSizeSteps stage + 1)) ((p : ℤ),
      intOfSize (sizeT (sizeOfInt ((q + 1 : ℕ) : ℤ) * stageDivisor stageSizeSteps stage))) := by
  have hle : (q + 1) * (stageSizeSteps stage + 1) ≤ (bound + 1) * (stageSizeSteps stage + 1) :=
    Nat.mul_le_mul_right _ (Nat.succ_le_succ hq)
  have hsucc := Nat.le_mul_of_pos_right (q + 1) (show 0 < stageSizeSteps stage + 1 by omega)
  refine ⟨rfl, fun hbound => ⟨_, hle, ?_⟩⟩
  rw [sizeOfInt_natCast (by omega), stageDivisor_eq h (by omega), stageFactor,
    sizeT_of_lt (by omega), intOfSize_of_lt (by omega)]

end Results

section Stage

variable {α : Type*} [LinearOrder α] {n nstages : ℕ} {stageSizeSteps : ℕ → ℕ}
  (x : SearchInput α n nstages stageSizeSteps) {stage : ℕ}

section Comparisons

variable {i : ℕ} (hn : n < 2 ^ 64) (h : StepsFit stageSizeSteps (nstages - 1))
  (hs : stage + 1 < nstages)
  (hi : i < computeStageEnds n stageSizeSteps nstages (stage + 1) -
    computeStageEnds n stageSizeSteps nstages stage)

include hn h hs hi

theorem SearchInput.lessStart_segment :
    x.lessStart (sizeT (computeStageEnds n stageSizeSteps nstages stage + i)) =
      decide (i < stageCount stageSizeSteps nstages (stage + 1) x.below) := by
  rw [(inSegment_of_lt hn h hs hi).1]
  exact x.lessStart_stage hn h hs (show computeStageEnds n stageSizeSteps nstages stage + i < _ by
    omega)

theorem SearchInput.lessEnd_segment :
    (!x.lessEnd (sizeT (computeStageEnds n stageSizeSteps nstages stage + i))) =
      decide (i < stageCount stageSizeSteps nstages (stage + 1) x.upTo) := by
  rw [(inSegment_of_lt hn h hs hi).1]
  exact x.lessEnd_stage hn h hs (show computeStageEnds n stageSizeSteps nstages stage + i < _ by
    omega)

end Comparisons

theorem CountersFit.places_lt (h : StepsFit stageSizeSteps (nstages - 1))
    (hfit : CountersFit nstages stageSizeSteps x.upTo) (hs : stage < nstages) :
    startPlace stageSizeSteps nstages x.below stage < 2 ^ 31 ∧
      endPlace stageSizeSteps nstages x.upTo stage < 2 ^ 31 := by
  cases stage with
  | zero => exact ⟨(Nat.div_le_div_right x.below_le_upTo).trans_lt hfit.1, hfit.1⟩
  | succ stage =>
      have hnext := hfit.2 stage (by omega)
      exact ⟨((startPlace_le h x.below_le_upTo stage (by omega)).2 hs).trans_lt hnext,
        ((endPlace_le h x.upTo stage (by omega)).2 hs).trans_lt hnext⟩

theorem CountersFit.bound_lt (hsteps : ∀ i < nstages - 1, 1 ≤ stageSizeSteps i)
    (hfit : CountersFit nstages stageSizeSteps x.upTo) (hs : stage + 1 < nstages) :
    resultBound stageSizeSteps nstages x.upTo stage + 1 < 2 ^ 31 :=
  (Nat.le_mul_of_pos_right _ (hsteps stage (by omega))).trans_lt (hfit.2 stage (by omega))

/-- The place at which the next stage is entered is an `int`. -/
theorem CountersFit.child_eq (hfit : CountersFit nstages stageSizeSteps x.upTo)
    (hs : stage + 1 < nstages) {p : ℕ} (hp : p < 2 ^ 31)
    (hitems : getStagePosItemsCount p stage stageSizeSteps ≤
      resultBound stageSizeSteps nstages x.upTo stage + 1) :
    getNextStagePos p stage stageSizeSteps < 2 ^ 31 ∧
      intOfSize (getNextStagePos (sizeOfInt (p : ℤ)) stage stageSizeSteps) =
        (getNextStagePos p stage stageSizeSteps : ℤ) := by
  have hlt : getNextStagePos p stage stageSizeSteps < 2 ^ 31 :=
    ((Nat.mod_le _ _).trans (Nat.mul_le_mul_right _ hitems)).trans_lt (hfit.2 stage (by omega))
  rw [sizeOfInt_natCast (by omega)]
  exact ⟨hlt, intOfSize_of_lt hlt⟩

variable (hn : n < 2 ^ 64) (h : StepsFit stageSizeSteps (nstages - 1))
  (hsteps : ∀ i < nstages - 1, 1 ≤ stageSizeSteps i)
  (hfit : CountersFit nstages stageSizeSteps x.upTo) (hs : stage + 1 < nstages)
  {layerIdx result : ℤ}

include hn h hsteps hfit hs

theorem findStageStartCalls_ensures
    (hat : Placed (startPlace stageSizeSteps nstages x.below stage)
      (resultBound stageSizeSteps nstages x.upTo stage) (layerIdx, result))
    (hin : getNextStagePos (startPlace stageSizeSteps nstages x.below stage) stage
      stageSizeSteps ≤ computeStageEnds n stageSizeSteps nstages (stage + 1) -
        computeStageEnds n stageSizeSteps nstages stage) :
    (findStageStartCalls (computeStageEnds n stageSizeSteps nstages) stageSizeSteps (stage + 1)
      x.lessStart layerIdx result).Ensures (Call.InSegment n nstages stageSizeSteps)
        (Placed (startPlace stageSizeSteps nstages x.below (stage + 1))
          (resultBound stageSizeSteps nstages x.upTo (stage + 1))) := by
  have hitems := (startPlace_le h x.below_le_upTo (stage + 1) hs).1
  have hplacelt := (hfit.places_lt x h hs).1
  have hbound := hfit.bound_lt x hsteps hs
  obtain ⟨hlt, hchild⟩ := hfit.child_eq x hs (hfit.places_lt x h (by omega)).1
    (startPlace_le h x.below_le_upTo stage (by omega)).1
  have hplace : startPlace stageSizeSteps nstages x.below (stage + 1) =
      min (getNextStagePos (startPlace stageSizeSteps nstages x.below stage) stage stageSizeSteps)
        (stageCount stageSizeSteps nstages (stage + 1) x.below) := rfl
  obtain ⟨hidx : layerIdx = _, hresult⟩ := hat
  obtain ⟨r, hr, hresult : result = _⟩ := hresult (by omega)
  simp only [findStageStartCalls, Nat.add_sub_cancel, hidx, hchild, Int.toNat_natCast, hresult]
  generalize getNextStagePos (startPlace stageSizeSteps nstages x.below stage) stage
    stageSizeSteps = c at hin hlt hplace ⊢
  generalize startPlace stageSizeSteps nstages x.below (stage + 1) = p at hplace hitems hplacelt ⊢
  refine (callLessIf_ensures fun hpos => ?_).bind fun less hless => ?_
  · rw [Nat.add_sub_assoc (by omega)]
    exact (inSegment_of_lt hn h hs (by omega)).2
  · have hkeys : less = decide (c ≤ stageCount stageSizeSteps nstages (stage + 1) x.below) := by
      rw [hless]
      by_cases hpos : 0 < c
      · rw [if_pos (by exact_mod_cast hpos), Nat.add_sub_assoc (by omega),
          x.lessStart_segment hn h hs (show c - 1 < _ by omega), decide_eq_decide]
        omega
      · rw [if_neg (by exact_mod_cast hpos), decide_eq_true (by omega)]
    rw [hkeys]
    by_cases hkept : c ≤ stageCount stageSizeSteps nstages (stage + 1) x.below
    · rw [decide_eq_true hkept, if_neg (by decide)]
      refine (Logged.Ensures.ofOption (Q := fun next => next = ((r + 1 : ℕ) : ℤ))
        (intSucc_natCast (by omega)) rfl).bind fun next hnext => .pure ?_
      rw [hnext, hplace, min_eq_left hkept, resultBound]
      exact placed_multiplied h hs c hr
    · rw [decide_eq_false hkept, if_pos (by decide)]
      refine (retreatStartCalls_ensures (e := stageCount stageSizeSteps nstages (stage + 1)
        x.below) (c - 1) (fun i hi => (inSegment_of_lt hn h hs (by omega)).2) fun i hi =>
          x.lessStart_segment hn h hs (by omega)).bind fun idx hidx => ?_
      obtain rfl : idx = p := by omega
      exact .pure (placed_moved (by omega) hitems)

theorem findStageEndCalls_ensures
    (hat : Placed (endPlace stageSizeSteps nstages x.upTo stage)
      (resultBound stageSizeSteps nstages x.upTo stage) (layerIdx, result))
    (hin : InsideStage n nstages stageSizeSteps x.below x.upTo stage) :
    (findStageEndCalls (computeStageEnds n stageSizeSteps nstages) stageSizeSteps (stage + 1)
      x.lessEnd layerIdx result).Ensures (Call.InSegment n nstages stageSizeSteps)
        (Placed (endPlace stageSizeSteps nstages x.upTo (stage + 1))
          (resultBound stageSizeSteps nstages x.upTo (stage + 1))) := by
  have hin := hin.stop
  have hitems := (endPlace_le h x.upTo (stage + 1) hs).1
  have hplacelt := (hfit.places_lt x h hs).2
  have hbound := hfit.bound_lt x hsteps hs
  have hcount : stageCount stageSizeSteps nstages (stage + 1) x.upTo ≤
      computeStageEnds n stageSizeSteps nstages (stage + 1) := by
    rw [computeStageEnds_eq hn h hs]
    exact (Nat.sub_le _ _).trans (Nat.div_le_div_right x.upTo_le)
  obtain ⟨hlt, hchild⟩ := hfit.child_eq x hs (hfit.places_lt x h (by omega)).2
    (endPlace_le h x.upTo stage (by omega)).1
  have hplace : endPlace stageSizeSteps nstages x.upTo (stage + 1) =
      max (getNextStagePos (endPlace stageSizeSteps nstages x.upTo stage) stage stageSizeSteps)
        (stageCount stageSizeSteps nstages (stage + 1) x.upTo) := rfl
  obtain ⟨hidx : layerIdx = _, hresult⟩ := hat
  obtain ⟨r, hr, hresult : result = _⟩ := hresult (by omega)
  simp only [findStageEndCalls, Nat.add_sub_cancel, hidx, hchild, hresult]
  generalize getNextStagePos (endPlace stageSizeSteps nstages x.upTo stage) stage
    stageSizeSteps = d at hin hlt hplace ⊢
  generalize endPlace stageSizeSteps nstages x.upTo (stage + 1) = p at hplace hitems hplacelt ⊢
  rw [sizeOfInt_natCast (show d < 2 ^ 64 by omega)]
  refine (callLessIf_ensures fun hlt => ?_).bind fun less hless => ?_
  · exact (inSegment_of_lt hn h hs (by omega)).2
  · have hkeys : (!less) = decide (d < stageCount stageSizeSteps nstages (stage + 1) x.upTo) := by
      rw [hless]
      split_ifs with hlt
      · exact x.lessEnd_segment hn h hs (by omega)
      · rw [decide_eq_false (by omega)]
        rfl
    rw [hkeys]
    by_cases hmoved : d < stageCount stageSizeSteps nstages (stage + 1) x.upTo
    · rw [decide_eq_true hmoved, if_pos rfl]
      have hp : stageCount stageSizeSteps nstages (stage + 1) x.upTo = p := by omega
      refine (Logged.Ensures.ofOption (Q := fun next => next = ((d + 1 : ℕ) : ℤ))
        (intSucc_natCast (by omega)) rfl).bind fun next hnext => ?_
      rw [hnext]
      refine (advanceEndCalls_ensures (e := stageCount stageSizeSteps nstages (stage + 1) x.upTo)
        (by omega) hcount (fun i hi hlt => (inSegment_of_lt hn h hs (by omega)).2)
        (fun i hi hlt => x.lessEnd_segment hn h hs (by omega)) _ (d + 1) hmoved
        (by omega)).bind fun idx hidx => ?_
      rw [hidx, hp]
      exact .pure (placed_moved (by omega) hitems)
    · rw [decide_eq_false hmoved, if_neg (by decide)]
      refine (Logged.Ensures.ofOption (Q := fun next => next = ((r + 1 : ℕ) : ℤ))
        (intSucc_natCast (by omega)) rfl).bind fun next hnext => .pure ?_
      rw [hnext, hplace, max_eq_left (by omega), resultBound]
      exact placed_multiplied h hs d hr

theorem findStageCalls_ensures {s : FindState}
    (hat : AtStage nstages stageSizeSteps x.below x.upTo stage s)
    (hin : InsideStage n nstages stageSizeSteps x.below x.upTo stage) :
    (findStageCalls (computeStageEnds n stageSizeSteps nstages) stageSizeSteps x.lessStart
      x.lessEnd (stage + 1) s).Ensures (Call.InSegment n nstages stageSizeSteps)
        (AtStage nstages stageSizeSteps x.below x.upTo (stage + 1)) :=
  (findStageStartCalls_ensures x hn h hsteps hfit hs hat.start hin.start).bind fun _ hstart =>
    (findStageEndCalls_ensures x hn h hsteps hfit hs hat.stop hin).bind fun _ hstop =>
      .pure ⟨hstart, hstop⟩

variable (result) in
omit hsteps in
theorem exists_startCall_outside
    (hidx : layerIdx = startPlace stageSizeSteps nstages x.below stage)
    (hout : computeStageEnds n stageSizeSteps nstages (stage + 1) -
        computeStageEnds n stageSizeSteps nstages stage <
      getNextStagePos (startPlace stageSizeSteps nstages x.below stage) stage stageSizeSteps) :
    ∃ c ∈ (findStageStartCalls (computeStageEnds n stageSizeSteps nstages) stageSizeSteps
      (stage + 1) x.lessStart layerIdx result).log, ¬c.InSegment n nstages stageSizeSteps := by
  obtain ⟨hlt, hchild⟩ := hfit.child_eq x hs (hfit.places_lt x h (by omega)).1
    (startPlace_le h x.below_le_upTo stage (by omega)).1
  simp only [findStageStartCalls, Nat.add_sub_cancel, hidx, hchild, Int.toNat_natCast]
  generalize getNextStagePos (startPlace stageSizeSteps nstages x.below stage) stage
    stageSizeSteps = c at hout hlt ⊢
  refine ⟨_, Logged.mem_log_bind.mpr (.inl (mem_log_callLessIf (by omega))), ?_⟩
  rw [Nat.add_sub_assoc (by omega)]
  exact not_inSegment_of_le hn h hs (by omega) (by omega)

variable (result) in
omit hsteps in
/-- The end of a stage that it enters behind the segment, or inside with no key of the stage
after the interval. -/
theorem exists_endCall_outside
    (hidx : layerIdx = endPlace stageSizeSteps nstages x.upTo stage)
    (henters : getNextStagePos (endPlace stageSizeSteps nstages x.upTo stage) stage
      stageSizeSteps < computeStageEnds n stageSizeSteps nstages (stage + 1))
    (hout : computeStageEnds n stageSizeSteps nstages (stage + 1) -
          computeStageEnds n stageSizeSteps nstages stage ≤
        getNextStagePos (endPlace stageSizeSteps nstages x.upTo stage) stage stageSizeSteps ∨
      computeStageEnds n stageSizeSteps nstages (stage + 1) -
          computeStageEnds n stageSizeSteps nstages stage ≤
        stageCount stageSizeSteps nstages (stage + 1) x.upTo ∧
      0 < computeStageEnds n stageSizeSteps nstages stage) :
    ∃ c ∈ (findStageEndCalls (computeStageEnds n stageSizeSteps nstages) stageSizeSteps
      (stage + 1) x.lessEnd layerIdx result).log, ¬c.InSegment n nstages stageSizeSteps := by
  have hcount : stageCount stageSizeSteps nstages (stage + 1) x.upTo < 2 ^ 31 :=
    (le_max_right _ _).trans_lt (hfit.places_lt x h hs).2
  obtain ⟨hlt, hchild⟩ := hfit.child_eq x hs (hfit.places_lt x h (by omega)).2
    (endPlace_le h x.upTo stage (by omega)).1
  simp only [findStageEndCalls, Nat.add_sub_cancel, hidx, hchild]
  generalize getNextStagePos (endPlace stageSizeSteps nstages x.upTo stage) stage
    stageSizeSteps = d at henters hout hlt ⊢
  rw [sizeOfInt_natCast (show d < 2 ^ 64 by omega)]
  by_cases hpast : computeStageEnds n stageSizeSteps nstages (stage + 1) -
      computeStageEnds n stageSizeSteps nstages stage ≤ d
  · exact ⟨_, Logged.mem_log_bind.mpr (.inl (mem_log_callLessIf henters)),
      not_inSegment_of_le hn h hs hpast hlt⟩
  · -- the scan goes on to the cumulative end
    obtain ⟨hkeys, hbefore⟩ := hout.resolve_left hpast
    have hless : ∀ i < computeStageEnds n stageSizeSteps nstages (stage + 1) -
        computeStageEnds n stageSizeSteps nstages stage,
        x.lessEnd (sizeT (computeStageEnds n stageSizeSteps nstages stage + i)) = false := by
      intro i hi
      have hless := x.lessEnd_segment hn h hs hi
      rwa [decide_eq_true (by omega), Bool.not_eq_true'] at hless
    refine ⟨_, Logged.mem_log_bind.mpr (.inr ⟨false, ?_, ?_⟩),
      not_inSegment_of_le hn h hs le_rfl (by omega)⟩
    · rw [value_callLessIf, if_pos henters, hless d (by omega)]
    · rw [if_pos (by rfl), intSucc_natCast (by omega)]
      exact Logged.mem_log_bind.mpr (.inr ⟨_, rfl, Logged.mem_log_bind.mpr (.inl
        (mem_log_advanceEndCalls (by omega) (by omega) hless _ (d + 1) (by omega) (by omega)))⟩)

theorem exists_call_outside {s : FindState}
    (hat : AtStage nstages stageSizeSteps x.below x.upTo stage s)
    (hnot : ¬InsideStage n nstages stageSizeSteps x.below x.upTo stage) :
    ∃ c ∈ (findStageCalls (computeStageEnds n stageSizeSteps nstages) stageSizeSteps x.lessStart
      x.lessEnd (stage + 1) s).log, ¬c.InSegment n nstages stageSizeSteps := by
  by_cases hstart : getNextStagePos (startPlace stageSizeSteps nstages x.below stage) stage
      stageSizeSteps ≤ computeStageEnds n stageSizeSteps nstages (stage + 1) -
        computeStageEnds n stageSizeSteps nstages stage
  · obtain ⟨r, hr, -⟩ :=
      (findStageStartCalls_ensures x hn h hsteps hfit hs hat.start hstart).returns
    obtain ⟨hstop, hinside⟩ := not_or.mp fun hstop => hnot ⟨hstart, hstop⟩
    obtain ⟨c, hc, hout⟩ := exists_endCall_outside x hn h hfit hs s.resultEnd
      hat.stop.1 (not_le.mp hstop) (by
        by_contra hneither
        obtain ⟨hlt, hkeys⟩ := not_or.mp hneither
        refine hinside ⟨not_le.mp hlt, ?_⟩
        by_contra hnone
        obtain ⟨hcount, hbefore⟩ := not_or.mp hnone
        exact hkeys ⟨not_lt.mp hcount, Nat.pos_of_ne_zero hbefore⟩)
    exact ⟨c, Logged.mem_log_bind.mpr (.inr ⟨r, hr, Logged.mem_log_bind.mpr (.inl hc)⟩), hout⟩
  · obtain ⟨c, hc, hout⟩ := exists_startCall_outside x hn h hfit hs s.resultStart
      hat.start.1 (not_le.mp hstart)
    exact ⟨c, Logged.mem_log_bind.mpr (.inl hc), hout⟩

omit hs in
/-- The stages from one on stay in their segments exactly if each of them does. -/
theorem findStagesCalls_ensures_iff (remaining stage : ℕ)
    (hstages : stage + remaining + 1 = nstages) {s : FindState}
    (hat : AtStage nstages stageSizeSteps x.below x.upTo stage s) :
    (findStagesCalls (computeStageEnds n stageSizeSteps nstages) stageSizeSteps x.lessStart
        x.lessEnd remaining (stage + 1) s).Ensures (Call.InSegment n nstages stageSizeSteps)
          (fun _ => True) ↔
      ∀ t, stage ≤ t → t < nstages - 1 →
        InsideStage n nstages stageSizeSteps x.below x.upTo t := by
  induction remaining generalizing stage s with
  | zero => exact ⟨fun _ t ht hlt => by omega, fun _ => .pure trivial⟩
  | succ remaining ih =>
      rw [findStagesCalls]
      by_cases hin : InsideStage n nstages stageSizeSteps x.below x.upTo stage
      · have hstage := findStageCalls_ensures x hn h hsteps hfit (by omega) hat hin
        obtain ⟨s', hs', hat'⟩ := hstage.returns
        rw [Logged.ensures_bind_iff_of_value hs', ih (stage + 1) (by omega) hat']
        constructor
        · rintro ⟨-, hrest⟩ t ht hlt
          rcases Nat.eq_or_lt_of_le ht with rfl | hlater
          · exact hin
          · exact hrest t hlater hlt
        · exact fun hall => ⟨hstage.entries, fun t ht => hall t (by omega)⟩
      · constructor
        · intro hensures
          obtain ⟨c, hc, hout⟩ := exists_call_outside x hn h hsteps hfit (by omega) hat hin
          exact absurd (hensures.entries c (Logged.mem_log_bind.mpr (.inl hc))) hout
        · exact fun hall => absurd (hall stage le_rfl (by omega)) hin

end Stage

/-- On two stages the last block decides: an interval that starts in it needs it to be full,
and one that ends in it needs the child behind it to be past the cumulative end. -/
theorem inside_two_iff {n : ℕ} {stageSizeSteps : ℕ → ℕ} {below upTo : ℕ} (hn : n < 2 ^ 64)
    (h : StepsFit stageSizeSteps 1) (hfit : CountersFit 2 stageSizeSteps upTo)
    (hbelow : below ≤ upTo) :
    Inside n 2 stageSizeSteps below upTo ↔
      (below / (stageSizeSteps 0 + 1) + 1) * stageSizeSteps 0 ≤ n - n / (stageSizeSteps 0 + 1) ∧
        (n ≤ (upTo / (stageSizeSteps 0 + 1) + 1) * stageSizeSteps 0 ∨
          (upTo / (stageSizeSteps 0 + 1) + 1) * stageSizeSteps 0 <
            n - n / (stageSizeSteps 0 + 1)) := by
  have hprev : ∀ m, stagesCount stageSizeSteps 2 0 m =
      stagesCount stageSizeSteps 2 (0 + 1) m / (stageSizeSteps 0 + 1) :=
    stagesCount_prev (by decide)
  simp only [stagesCount, Nat.zero_add, stride_self, Nat.div_one, Nat.add_one_sub_one] at hprev
  have hend : computeStageEnds n stageSizeSteps 2 0 = n / (stageSizeSteps 0 + 1) :=
    (computeStageEnds_eq hn h (by decide)).trans (hprev n)
  have hend' : computeStageEnds n stageSizeSteps 2 1 = n := computeStageEnds_last hn h (by decide)
  have hcount : stageCount stageSizeSteps 2 (0 + 1) upTo ≤
      (stagesCount stageSizeSteps 2 0 upTo + 1) * stageSizeSteps 0 :=
    stageCount_succ_le (by decide) upTo
  have hplace : ∀ m, stageCount stageSizeSteps 2 0 m = m / (stageSizeSteps 0 + 1) := hprev
  have hfirst := hfit.1
  have hchild := hfit.2 0 (by decide)
  rw [resultBound] at hchild
  rw [stagesCount, hprev] at hcount hfirst hchild
  have hnext : ∀ m ≤ upTo, getNextStagePos (m / (stageSizeSteps 0 + 1)) 0 stageSizeSteps =
      (m / (stageSizeSteps 0 + 1) + 1) * stageSizeSteps 0 := by
    intro m hm
    have hle : m / (stageSizeSteps 0 + 1) ≤ upTo / (stageSizeSteps 0 + 1) :=
      Nat.div_le_div_right hm
    have hmul := Nat.mul_le_mul_right (stageSizeSteps 0) (Nat.add_le_add_right hle 1)
    rw [getNextStagePos, getStagePosItemsCount, if_pos rfl,
      sizeT_of_lt (show m / (stageSizeSteps 0 + 1) + 1 < 2 ^ 64 by omega), sizeT_of_lt (by omega)]
  constructor
  · intro hin
    obtain ⟨hstart, hstop⟩ := hin 0 (by decide)
    rw [startPlace, hplace, hnext _ hbelow, Nat.zero_add, hend, hend'] at hstart
    rw [endPlace, hplace, hnext _ le_rfl, Nat.zero_add, hend, hend'] at hstop
    exact ⟨hstart, hstop.imp_right And.left⟩
  · rintro ⟨hstart, hstop⟩ stage hstage
    obtain rfl : stage = 0 := by omega
    refine ⟨?_, ?_⟩
    · rwa [startPlace, hplace, hnext _ hbelow, Nat.zero_add, hend, hend']
    · rw [endPlace, hplace, hnext _ le_rfl, Nat.zero_add, hend, hend']
      exact hstop.imp_right fun hlt => ⟨hlt, .inl (hcount.trans_lt hlt)⟩

end Storage

end DistStorage
