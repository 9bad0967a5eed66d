import DistStorage.Cpp.Integer

/-!
# The static sorted index

A sorted array is laid out in stages. Every stage but the last holds each
`step + 1`-th element of the stages up to the next one, so a lookup narrows the
range stage by stage. `stage_size_steps` and `stage_ends` are arrays passed by
pointer in the source and functions here; `nstages` is their length in use.

`computeStageEnds` goes down from the last stage to count the elements of each
stage, then sums the counts up. `getIdxPosition` finds the stage of an array
index by dividing while it can, and `findIdxRange` searches an interval from
the first stage to the last.
-/

namespace DistStorage

namespace Storage

open Cpp

/-- The divisor between a stage and the one before it. A step of `2 ^ 64 - 1`
makes it zero, and dividing by it is undefined in the source. -/
def stageDivisor (stageSizeSteps : ℕ → ℕ) (stage : ℕ) : ℕ :=
  sizeT (stageSizeSteps stage + 1)

/-- The first loop of `compute_stage_ends`, from `stage` down to one: store the
count of the stage and go on with the elements of the stages before it. -/
def countStages (stageSizeSteps : ℕ → ℕ) : ℕ → ℕ → (ℕ → ℕ) → ℕ × (ℕ → ℕ)
  | 0, n, stageEnds => (n, stageEnds)
  | stage + 1, n, stageEnds =>
      let upperItems := n / stageDivisor stageSizeSteps stage
      countStages stageSizeSteps stage upperItems
        (Function.update stageEnds (stage + 1) (n - upperItems))

/-- The second loop of `compute_stage_ends`: running sums of the counts of the
`remaining` stages from `stage` on. -/
def sumStages : ℕ → ℕ → ℕ → (ℕ → ℕ) → (ℕ → ℕ)
  | 0, _, _, stageEnds => stageEnds
  | remaining + 1, stage, pos, stageEnds =>
      let pos := sizeT (stageEnds stage + pos)
      sumStages remaining (stage + 1) pos (Function.update stageEnds stage pos)

def computeStageEnds (n : ℕ) (stageSizeSteps : ℕ → ℕ) (nstages : ℕ) : ℕ → ℕ :=
  let (n, stageEnds) := countStages stageSizeSteps (nstages - 1) n fun _ => 0
  sumStages nstages 0 0 (Function.update stageEnds 0 n)

/-- The loop of `get_idx_position`: divide while the divisor of the stage
divides. Returns the stage reached and the number left. -/
def descendStages (stageSizeSteps : ℕ → ℕ) : ℕ → ℕ → ℕ × ℕ
  | 0, n => (0, n)
  | stage + 1, n =>
      if n % stageDivisor stageSizeSteps stage = 0 then
        descendStages stageSizeSteps stage (n / stageDivisor stageSizeSteps stage)
      else (stage + 1, n)

def getIdxPosition (arrayIdx : ℕ) (stageEnds stageSizeSteps : ℕ → ℕ) (nstages : ℕ) : ℕ :=
  let (stage, n) := descendStages stageSizeSteps (nstages - 1) (sizeT (arrayIdx + 1))
  if 1 ≤ stage then
    sizeT (stageEnds (stage - 1) + (n - n / stageDivisor stageSizeSteps (stage - 1)) - 1)
  else n - 1

/-- The number of elements of the stages up to `stage` that end at the position
`stagePos` of that stage. -/
def getStagePosItemsCount (stagePos stage : ℕ) (stageSizeSteps : ℕ → ℕ) : ℕ :=
  let stageNitems := sizeT (stagePos + 1)
  if stage = 0 then stageNitems
  else
    sizeT (stageNitems + stageNitems / stageDivisor stageSizeSteps (stage - 1))

/-- The position in the next stage that corresponds to a position in `stage`. -/
def getNextStagePos (stagePos stage : ℕ) (stageSizeSteps : ℕ → ℕ) : ℕ :=
  sizeT (getStagePosItemsCount stagePos stage stageSizeSteps * stageSizeSteps stage)

/-- `while (idx < stage_end && !less_end(base + idx)) idx++`, undefined when the
`int` index overflows. An index that does not fit the bound is not moved, so
`stageEnd` rounds are enough. -/
def advanceEnd (base stageEnd : ℕ) (lessEnd : ℕ → Bool) : ℕ → ℤ → Option ℤ
  | 0, idx => some idx
  | rounds + 1, idx =>
      if sizeOfInt idx < stageEnd ∧ !lessEnd (sizeT (base + sizeOfInt idx)) then
        (intSucc idx).bind (advanceEnd base stageEnd lessEnd rounds)
      else some idx

/-- `while (idx > 0 && !less_start(base + idx - 1)) idx--`, for an index written
as a natural number. -/
def retreatStart (base : ℕ) (lessStart : ℕ → Bool) : ℕ → ℕ
  | 0 => 0
  | idx + 1 => if !lessStart (sizeT (base + idx)) then retreatStart base lessStart idx else idx + 1

/-- The state of `find_idx_range` between stages; all four are `int`s. -/
structure FindState where
  layerIdxStart : ℤ
  layerIdxEnd : ℤ
  resultStart : ℤ
  resultEnd : ℤ
  deriving DecidableEq, Repr

/-- The part of a round of `find_idx_range` that moves the start. -/
def findStageStart (stageEnds stageSizeSteps : ℕ → ℕ) (stage : ℕ) (lessStart : ℕ → Bool)
    (layerIdxStart resultStart : ℤ) : Option (ℤ × ℤ) :=
  let stageStart := stageEnds (stage - 1)
  let layerIdxStart :=
    intOfSize (getNextStagePos (sizeOfInt layerIdxStart) (stage - 1) stageSizeSteps)
  if 0 < layerIdxStart ∧ !lessStart (sizeT (stageStart + layerIdxStart.toNat - 1)) then
    let layerIdxStart : ℤ := retreatStart stageStart lessStart layerIdxStart.toNat
    some (layerIdxStart, intOfSize
      (getStagePosItemsCount (sizeOfInt layerIdxStart) stage stageSizeSteps - 1))
  else
    (intSucc resultStart).map fun next =>
      (layerIdxStart,
        intOfSize (sizeT (sizeOfInt next * stageDivisor stageSizeSteps (stage - 1))))

/-- The part of a round of `find_idx_range` that moves the end. -/
def findStageEnd (stageEnds stageSizeSteps : ℕ → ℕ) (stage : ℕ) (lessEnd : ℕ → Bool)
    (layerIdxEnd resultEnd : ℤ) : Option (ℤ × ℤ) :=
  let stageStart := stageEnds (stage - 1)
  let stageEnd := stageEnds stage
  let layerIdxEnd :=
    intOfSize (getNextStagePos (sizeOfInt layerIdxEnd) (stage - 1) stageSizeSteps)
  if sizeOfInt layerIdxEnd < stageEnd ∧
      !lessEnd (sizeT (stageStart + sizeOfInt layerIdxEnd)) then
    (advanceEnd stageStart stageEnd lessEnd stageEnd layerIdxEnd).map fun layerIdxEnd =>
      (layerIdxEnd, intOfSize
        (getStagePosItemsCount (sizeOfInt layerIdxEnd) stage stageSizeSteps - 1))
  else
    (intSucc resultEnd).map fun next =>
      (layerIdxEnd,
        intOfSize (sizeT (sizeOfInt next * stageDivisor stageSizeSteps (stage - 1))))

def findStage (stageEnds stageSizeSteps : ℕ → ℕ) (lessStart lessEnd : ℕ → Bool)
    (stage : ℕ) (s : FindState) : Option FindState :=
  (findStageStart stageEnds stageSizeSteps stage lessStart s.layerIdxStart
    s.resultStart).bind fun (layerIdxStart, resultStart) =>
  (findStageEnd stageEnds stageSizeSteps stage lessEnd s.layerIdxEnd
    s.resultEnd).map fun (layerIdxEnd, resultEnd) =>
  { layerIdxStart, layerIdxEnd, resultStart, resultEnd }

def findStages (stageEnds stageSizeSteps : ℕ → ℕ) (lessStart lessEnd : ℕ → Bool) :
    ℕ → ℕ → FindState → Option FindState
  | 0, _, s => some s
  | remaining + 1, stage, s =>
      (findStage stageEnds stageSizeSteps lessStart lessEnd stage s).bind
        (findStages stageEnds stageSizeSteps lessStart lessEnd remaining (stage + 1))

/-- The range of array indexes whose elements are neither before the start nor
after the end of the search interval; `none` when an `int` overflows. -/
def findIdxRange (stageEnds stageSizeSteps : ℕ → ℕ) (nstages : ℕ)
    (lessStart lessEnd : ℕ → Bool) : Option (ℤ × ℤ) :=
  (advanceEnd 0 (stageEnds 0) lessEnd (stageEnds 0) 0).bind fun layerIdxEnd =>
  let layerIdxStart : ℤ := retreatStart 0 lessStart layerIdxEnd.toNat
  (findStages stageEnds stageSizeSteps lessStart lessEnd (nstages - 1) 1
    { layerIdxStart, layerIdxEnd, resultStart := layerIdxStart,
      resultEnd := layerIdxEnd }).map fun s => (s.resultStart, s.resultEnd)

end Storage

end DistStorage
