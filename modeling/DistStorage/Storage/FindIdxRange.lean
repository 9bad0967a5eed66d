import DistStorage.Storage.StageLayout

/-!
# The interval search over the stages

With a single stage the search is a scan of the sorted array and finds both
bounds. From the second stage on a bound that needs no move is taken from the
stage before as `(result + 1) * (step + 1)`, one block too many: an interval
below every key gets a positive upper bound at each further stage. So the search
finds every interval of every array exactly when there is one stage and the scan
stays within `int`.
-/

namespace DistStorage

namespace Storage

open Cpp Numeration

/-- What a search is given: sorted keys in the tree order of the layout, an interval,
and the two comparisons, which are free on positions that hold no key. -/
structure SearchInput (α : Type*) [LinearOrder α] (n nstages : ℕ) (stageSizeSteps : ℕ → ℕ) where
  key : ℕ → α
  a : α
  b : α
  lessStart : ℕ → Bool
  lessEnd : ℕ → Bool
  sorted : ∀ i j, i ≤ j → j < n → key i ≤ key j
  a_le_b : a ≤ b
  lessStart_eq : ∀ i < n, lessStart (treePosition n stageSizeSteps nstages i) = decide (key i < a)
  lessEnd_eq : ∀ i < n, lessEnd (treePosition n stageSizeSteps nstages i) = decide (b < key i)

namespace SearchInput

variable {α : Type*} [LinearOrder α] {n nstages : ℕ} {stageSizeSteps : ℕ → ℕ}

/-- The number of keys before the interval. -/
def below (x : SearchInput α n nstages stageSizeSteps) : ℕ :=
  ((Finset.range n).filter (x.key · < x.a)).card

/-- The number of keys up to the end of the interval. -/
def upTo (x : SearchInput α n nstages stageSizeSteps) : ℕ :=
  ((Finset.range n).filter (x.key · ≤ x.b)).card

def Found (x : SearchInput α n nstages stageSizeSteps) : Prop :=
  findIdxRange (computeStageEnds n stageSizeSteps nstages) stageSizeSteps nstages
    x.lessStart x.lessEnd = some ((x.below : ℤ), (x.upTo : ℤ))

end SearchInput

/-- The search finds every interval of every sorted array of `n` keys. -/
def FindsRange (α : Type*) [LinearOrder α] (n nstages : ℕ) (stageSizeSteps : ℕ → ℕ) : Prop :=
  ∀ x : SearchInput α n nstages stageSizeSteps, x.Found

/-- A property that holds up to some point of the array holds below its count. -/
theorem lt_card_filter_iff {n : ℕ} {p : ℕ → Prop} [DecidablePred p]
    (hp : ∀ i j, i ≤ j → j < n → p j → p i) {i : ℕ} (hi : i < n) :
    i < ((Finset.range n).filter p).card ↔ p i := by
  constructor
  · intro hlt
    by_contra hnot
    have hsub : (Finset.range n).filter p ⊆ Finset.range i := by
      intro j hj
      rw [Finset.mem_filter, Finset.mem_range] at hj
      rw [Finset.mem_range]
      by_contra hij
      exact hnot (hp i j (not_lt.mp hij) hj.1 hj.2)
    have hcard := Finset.card_le_card hsub
    rw [Finset.card_range] at hcard
    omega
  · intro hpi
    have hsub : Finset.range (i + 1) ⊆ (Finset.range n).filter p := by
      intro j hj
      rw [Finset.mem_range] at hj
      rw [Finset.mem_filter, Finset.mem_range]
      exact ⟨by omega, hp j i (by omega) hi hpi⟩
    have hcard := Finset.card_le_card hsub
    rw [Finset.card_range] at hcard
    omega

theorem card_filter_le (n : ℕ) (p : ℕ → Prop) [DecidablePred p] :
    ((Finset.range n).filter p).card ≤ n :=
  (Finset.card_filter_le _ _).trans (Finset.card_range n).le

namespace SearchInput

variable {α : Type*} [LinearOrder α] {n nstages : ℕ} {stageSizeSteps : ℕ → ℕ}
  (x : SearchInput α n nstages stageSizeSteps)

theorem below_le_upTo : x.below ≤ x.upTo :=
  Finset.card_le_card fun i hi => by
    rw [Finset.mem_filter] at hi ⊢
    exact ⟨hi.1, (hi.2.trans_le x.a_le_b).le⟩

theorem upTo_le : x.upTo ≤ n :=
  card_filter_le n _

/-- The comparisons are those of the array index with the two numbers of keys. -/
theorem lessStart_treePosition {i : ℕ} (hi : i < n) :
    x.lessStart (treePosition n stageSizeSteps nstages i) = decide (i < x.below) := by
  rw [x.lessStart_eq i hi, decide_eq_decide]
  exact (lt_card_filter_iff (fun i j hij hj hlt => (x.sorted i j hij hj).trans_lt hlt) hi).symm

theorem lessEnd_treePosition {i : ℕ} (hi : i < n) :
    (!x.lessEnd (treePosition n stageSizeSteps nstages i)) = decide (i < x.upTo) := by
  rw [x.lessEnd_eq i hi, ← decide_not, decide_eq_decide, not_lt]
  exact (lt_card_filter_iff (fun i j hij hj hle => (x.sorted i j hij hj).trans hle) hi).symm

variable (hn : n < 2 ^ 64) (h : StepsFit stageSizeSteps (nstages - 1)) {s : ℕ} (hs : s < nstages)
  {p : ℕ} (hp : stageStart (computeStageEnds n stageSizeSteps nstages) s + p <
    computeStageEnds n stageSizeSteps nstages s)

include hn h hs hp

/-- In a stage the comparisons are those of the position with the numbers of keys of
the stage. -/
theorem lessStart_stage :
    x.lessStart (stageStart (computeStageEnds n stageSizeSteps nstages) s + p) =
      decide (p < stageCount stageSizeSteps nstages s x.below) :=
  less_stagePosition hn h hs x.lessStart (fun _ hi => x.lessStart_treePosition hi) hp

theorem lessEnd_stage :
    (!x.lessEnd (stageStart (computeStageEnds n stageSizeSteps nstages) s + p)) =
      decide (p < stageCount stageSizeSteps nstages s x.upTo) :=
  less_stagePosition hn h hs (fun p => !x.lessEnd p) (fun _ hi => x.lessEnd_treePosition hi) hp

end SearchInput

theorem advanceEnd_eq {lessEnd : ℕ → Bool} {stageEnd e : ℕ} (hfit : e < 2 ^ 31)
    (he : e ≤ stageEnd) (hbelow : ∀ i < e, lessEnd i = false)
    (hstop : e < stageEnd → lessEnd e = true) (rounds idx : ℕ) (hidx : idx ≤ e)
    (hrounds : e ≤ idx + rounds) : advanceEnd 0 stageEnd lessEnd rounds idx = some (e : ℤ) := by
  induction rounds generalizing idx with
  | zero =>
      obtain rfl : idx = e := by omega
      rfl
  | succ rounds ih =>
      rw [advanceEnd, sizeOfInt_natCast (by omega), Nat.zero_add, sizeT_of_lt (by omega)]
      by_cases hlt : idx < e
      · rw [if_pos ⟨by omega, by simp [hbelow idx hlt]⟩, intSucc_natCast (by omega)]
        exact ih (idx + 1) (by omega) (by omega)
      · obtain rfl : idx = e := by omega
        rw [if_neg]
        rintro ⟨hin, hless⟩
        simp [hstop hin] at hless

/-- A scan that nothing stops leaves the range of `int`. -/
theorem advanceEnd_overflow {lessEnd : ℕ → Bool} {stageEnd : ℕ} (hsize : 2 ^ 31 ≤ stageEnd)
    (hbelow : ∀ i < 2 ^ 31, lessEnd i = false) (rounds idx : ℕ) (hidx : idx < 2 ^ 31)
    (hrounds : 2 ^ 31 ≤ idx + rounds) : advanceEnd 0 stageEnd lessEnd rounds idx = none := by
  induction rounds generalizing idx with
  | zero => omega
  | succ rounds ih =>
      rw [advanceEnd, sizeOfInt_natCast (by omega), Nat.zero_add, sizeT_of_lt (by omega),
        if_pos ⟨by omega, by simp [hbelow idx hidx]⟩]
      by_cases hlast : idx + 1 < 2 ^ 31
      · rw [intSucc_natCast hlast]
        exact ih (idx + 1) hlast (by omega)
      · rw [intSucc_natCast_last hidx hlast, Option.bind_none]

theorem retreatStart_eq {lessStart : ℕ → Bool} {s e : ℕ} (he : e < 2 ^ 64) (hse : s ≤ e)
    (hstop : ∀ i < s, lessStart i = true)
    (habove : ∀ i, s ≤ i → i < e → lessStart i = false) :
    retreatStart 0 lessStart e = s := by
  induction e with
  | zero =>
      rw [retreatStart]
      omega
  | succ e ih =>
      rw [retreatStart, Nat.zero_add, sizeT_of_lt (by omega)]
      by_cases hlt : s ≤ e
      · rw [if_pos (by simp [habove e hlt (Nat.lt_succ_self e)])]
        exact ih (by omega) hlt fun i hsi hie => habove i hsi (by omega)
      · rw [if_neg (by simp [hstop e (by omega)])]
        omega

section First

variable {α : Type*} [LinearOrder α] {n nstages : ℕ} {stageSizeSteps : ℕ → ℕ}
  (x : SearchInput α n nstages stageSizeSteps) (hn : n < 2 ^ 64)
  (h : StepsFit stageSizeSteps (nstages - 1)) (hstages : 1 ≤ nstages)

include hn h hstages

theorem SearchInput.stagesCount_upTo_le :
    stagesCount stageSizeSteps nstages 0 x.upTo ≤ computeStageEnds n stageSizeSteps nstages 0 := by
  rw [computeStageEnds_eq hn h hstages]
  exact Nat.div_le_div_right x.upTo_le

theorem SearchInput.lessStart_first {i : ℕ}
    (hi : i < computeStageEnds n stageSizeSteps nstages 0) :
    x.lessStart i = decide (i < stagesCount stageSizeSteps nstages 0 x.below) := by
  have hless := x.lessStart_stage hn h hstages (p := i)
  rw [stageStart, if_pos rfl, Nat.zero_add, stageCount, stageRank, if_pos rfl] at hless
  exact hless hi

theorem SearchInput.lessEnd_first {i : ℕ}
    (hi : i < computeStageEnds n stageSizeSteps nstages 0) :
    (!x.lessEnd i) = decide (i < stagesCount stageSizeSteps nstages 0 x.upTo) := by
  have hless := x.lessEnd_stage hn h hstages (p := i)
  rw [stageStart, if_pos rfl, Nat.zero_add, stageCount, stageRank, if_pos rfl] at hless
  exact hless hi

theorem SearchInput.advanceEnd_first (hfit : stagesCount stageSizeSteps nstages 0 x.upTo < 2 ^ 31) :
    advanceEnd 0 (computeStageEnds n stageSizeSteps nstages 0) x.lessEnd
      (computeStageEnds n stageSizeSteps nstages 0) 0 =
        some (stagesCount stageSizeSteps nstages 0 x.upTo : ℤ) := by
  have hle := x.stagesCount_upTo_le hn h hstages
  refine advanceEnd_eq hfit hle (fun i hi => ?_) (fun hlt => ?_) _ 0 (Nat.zero_le _) (by omega)
  · have hless := x.lessEnd_first hn h hstages (hi.trans_le hle)
    rwa [decide_eq_true hi, Bool.not_eq_true'] at hless
  · have hless := x.lessEnd_first hn h hstages hlt
    rwa [decide_eq_false (lt_irrefl _), Bool.not_eq_false'] at hless

theorem SearchInput.advanceEnd_first_overflow
    (hlarge : 2 ^ 31 ≤ stagesCount stageSizeSteps nstages 0 x.upTo) :
    advanceEnd 0 (computeStageEnds n stageSizeSteps nstages 0) x.lessEnd
      (computeStageEnds n stageSizeSteps nstages 0) 0 = none := by
  have hle := x.stagesCount_upTo_le hn h hstages
  refine advanceEnd_overflow (hlarge.trans hle) (fun i hi => ?_) _ 0 (by decide) (by omega)
  have hless := x.lessEnd_first hn h hstages (show i < _ by omega)
  rwa [decide_eq_true (by omega), Bool.not_eq_true'] at hless

end First

theorem stepsFit_zero (stageSizeSteps : ℕ → ℕ) : StepsFit stageSizeSteps 0 :=
  fun _ hi => absurd hi (Nat.not_lt_zero _)

theorem stagesCount_single (stageSizeSteps : ℕ → ℕ) (m : ℕ) :
    stagesCount stageSizeSteps 1 0 m = m := by
  simp [stagesCount]

theorem computeStageEnds_single {n : ℕ} (stageSizeSteps : ℕ → ℕ) (hn : n < 2 ^ 64) :
    computeStageEnds n stageSizeSteps 1 0 = n :=
  computeStageEnds_last hn (stepsFit_zero stageSizeSteps) le_rfl

/-- On a single stage the search finds an interval exactly if the number of keys up to its
end is an `int`. -/
theorem SearchInput.found_single_iff {α : Type*} [LinearOrder α] {n : ℕ} {stageSizeSteps : ℕ → ℕ}
    (x : SearchInput α n 1 stageSizeSteps) (hn : n < 2 ^ 64) : x.Found ↔ x.upTo < 2 ^ 31 := by
  have hsteps := stepsFit_zero stageSizeSteps
  constructor
  · intro hfound
    by_contra hlarge
    have hoverflow := x.advanceEnd_first_overflow hn hsteps le_rfl
      (by rw [stagesCount_single]; omega)
    unfold Found findIdxRange at hfound
    simp [hoverflow] at hfound
  · intro hfit
    have hadvance := x.advanceEnd_first hn hsteps le_rfl (by rwa [stagesCount_single])
    rw [stagesCount_single] at hadvance
    have hretreat : retreatStart 0 x.lessStart x.upTo = x.below := by
      have hle := x.upTo_le
      have hless : ∀ i < n, x.lessStart i = decide (i < x.below) := by
        intro i hi
        have hfirst := x.lessStart_first hn hsteps le_rfl (i := i)
        rw [computeStageEnds_single stageSizeSteps hn, stagesCount_single] at hfirst
        exact hfirst hi
      have hbelow := x.below_le_upTo
      refine retreatStart_eq (by omega) hbelow (fun i hi => ?_) fun i hsi hie => ?_
      · rw [hless i (by omega), decide_eq_true hi]
      · rw [hless i (by omega), decide_eq_false (by omega)]
    unfold Found findIdxRange
    simp only [hadvance, Option.bind_some, Int.toNat_natCast, hretreat]
    rfl

/-- The bound of the block counts that the search multiplies up. -/
def blockBound (stageSizeSteps : ℕ → ℕ) (stage k : ℕ) : ℕ :=
  ∏ i ∈ Finset.Ico stage k, (stageSizeSteps i + 2)

theorem blockBound_pos (stageSizeSteps : ℕ → ℕ) (stage k : ℕ) :
    0 < blockBound stageSizeSteps stage k :=
  Finset.prod_pos fun _ _ => Nat.succ_pos _

theorem blockBound_succ (stageSizeSteps : ℕ → ℕ) {stage k : ℕ} (h : stage < k) :
    blockBound stageSizeSteps stage k =
      (stageSizeSteps stage + 2) * blockBound stageSizeSteps (stage + 1) k :=
  Finset.prod_eq_prod_Ico_succ_bot h _

/-- A round whose end does not move multiplies the upper bound. -/
theorem findStageEnd_of_stop (stageEnds stageSizeSteps : ℕ → ℕ) (stage r : ℕ)
    (layerIdxEnd : ℤ) (lessEnd : ℕ → Bool)
    (hstop : lessEnd (sizeT (stageEnds stage + sizeOfInt (intOfSize
      (getNextStagePos (sizeOfInt layerIdxEnd) stage stageSizeSteps)))) = true ∨
      stageEnds (stage + 1) ≤ sizeOfInt (intOfSize
        (getNextStagePos (sizeOfInt layerIdxEnd) stage stageSizeSteps)))
    (hr : (r + 1) * (stageSizeSteps stage + 1) < 2 ^ 31) :
    ∃ layerIdxEnd', findStageEnd stageEnds stageSizeSteps (stage + 1) lessEnd layerIdxEnd r =
      some (layerIdxEnd', (((r + 1) * (stageSizeSteps stage + 1) : ℕ) : ℤ)) := by
  have hr1 : r + 1 < 2 ^ 31 := (Nat.le_mul_of_pos_right _ (Nat.succ_pos _)).trans_lt hr
  have hstep : stageSizeSteps stage + 1 < 2 ^ 31 :=
    (Nat.le_mul_of_pos_left _ (Nat.succ_pos r)).trans_lt hr
  refine ⟨intOfSize (getNextStagePos (sizeOfInt layerIdxEnd) stage stageSizeSteps), ?_⟩
  unfold findStageEnd
  simp only [Nat.add_sub_cancel]
  rw [if_neg, intSucc_natCast hr1, Option.map_some, sizeOfInt_natCast (by omega), stageDivisor,
    sizeT_of_lt (show stageSizeSteps stage + 1 < 2 ^ 64 by omega), sizeT_of_lt (by omega),
    intOfSize_of_lt hr]
  rintro ⟨hlt, hless⟩
  rcases hstop with hstop | hstop
  · simp [hstop] at hless
  · omega

theorem resultEnd_of_findStage {stageEnds stageSizeSteps : ℕ → ℕ} {lessStart lessEnd : ℕ → Bool}
    {stage : ℕ} {s t : FindState} {layerIdxEnd resultEnd : ℤ}
    (hstage : findStage stageEnds stageSizeSteps lessStart lessEnd stage s = some t)
    (hend : findStageEnd stageEnds stageSizeSteps stage lessEnd s.layerIdxEnd s.resultEnd =
      some (layerIdxEnd, resultEnd)) :
    t.resultEnd = resultEnd := by
  rw [findStage, hend] at hstage
  obtain ⟨start, -, ht⟩ := Option.bind_eq_some_iff.mp hstage
  simp only [Option.map_some, Option.some_inj] at ht
  rw [← ht]

/-- With every key after the interval, each round makes the upper bound positive. -/
theorem findStages_resultEnd_pos {stageEnds stageSizeSteps : ℕ → ℕ} {lessStart : ℕ → Bool}
    (remaining stage r : ℕ) (s s' : FindState) (hs : s.resultEnd = r)
    (hfit : (r + 1) * blockBound stageSizeSteps stage (stage + remaining) ≤ 2 ^ 31)
    (hrun : findStages stageEnds stageSizeSteps lessStart (fun _ => true) remaining
      (stage + 1) s = some s') :
    (0 < r ∨ 0 < remaining) → 0 < s'.resultEnd := by
  induction remaining generalizing stage r s with
  | zero =>
      intro hpos
      rw [findStages, Option.some_inj] at hrun
      rw [← hrun, hs]
      omega
  | succ remaining ih =>
      intro _
      rw [blockBound_succ _ (by omega), ← Nat.mul_assoc] at hfit
      have hrest := blockBound_pos stageSizeSteps (stage + 1) (stage + (remaining + 1))
      have hprod : (r + 1) * (stageSizeSteps stage + 2) ≤ 2 ^ 31 :=
        (Nat.le_mul_of_pos_right _ hrest).trans hfit
      have hsplit : (r + 1) * (stageSizeSteps stage + 2) =
          (r + 1) * (stageSizeSteps stage + 1) + (r + 1) := by ring
      obtain ⟨layerIdxEnd, hend⟩ := findStageEnd_of_stop stageEnds stageSizeSteps stage r
        s.layerIdxEnd (fun _ => true) (.inl rfl) (by omega)
      rw [← hs] at hend
      obtain ⟨t, ht, hrun⟩ := Option.bind_eq_some_iff.mp hrun
      have hpos : 0 < (r + 1) * (stageSizeSteps stage + 1) :=
        Nat.mul_pos (Nat.succ_pos _) (Nat.succ_pos _)
      refine ih (stage + 1) ((r + 1) * (stageSizeSteps stage + 1)) t
        (resultEnd_of_findStage ht hend) ?_ hrun (Or.inl hpos)
      · rw [show stage + 1 + remaining = stage + (remaining + 1) by omega]
        refine le_trans (Nat.mul_le_mul_right _ ?_) hfit
        omega

/-- Keys that are all alike, and an interval of one key. -/
def SearchInput.constant {α : Type*} [LinearOrder α] (n nstages : ℕ) (stageSizeSteps : ℕ → ℕ)
    (k c : α) : SearchInput α n nstages stageSizeSteps where
  key := fun _ => k
  a := c
  b := c
  lessStart := fun _ => decide (k < c)
  lessEnd := fun _ => decide (c < k)
  sorted := fun _ _ _ _ => le_rfl
  a_le_b := le_rfl
  lessStart_eq := fun _ _ => rfl
  lessEnd_eq := fun _ _ => rfl

theorem not_findsRange_of_stages {α : Type*} [LinearOrder α] [Nontrivial α] {n nstages : ℕ}
    {stageSizeSteps : ℕ → ℕ} (hstages : 2 ≤ nstages)
    (hfit : blockBound stageSizeSteps 0 (nstages - 1) ≤ 2 ^ 31) :
    ¬ FindsRange α n nstages stageSizeSteps := by
  intro hfinds
  obtain ⟨x, y, hxy⟩ := exists_pair_lt α
  have hresult := hfinds (SearchInput.constant n nstages stageSizeSteps y x)
  simp only [SearchInput.Found, SearchInput.below, SearchInput.upTo, SearchInput.constant,
    hxy.not_ge, hxy.not_gt, hxy, decide_true, decide_false, Finset.filter_false,
    Finset.card_empty] at hresult
  unfold findIdxRange at hresult
  obtain ⟨layerIdxEnd, hadvance, hresult⟩ := Option.bind_eq_some_iff.mp hresult
  have hzero : layerIdxEnd = 0 := by
    cases h : computeStageEnds n stageSizeSteps nstages 0 with
    | zero =>
        rw [h, advanceEnd, Option.some_inj] at hadvance
        exact hadvance.symm
    | succ m =>
        rw [h, advanceEnd, if_neg (by simp), Option.some_inj] at hadvance
        exact hadvance.symm
  obtain ⟨s, hrun, hs⟩ := Option.map_eq_some_iff.mp hresult
  have hpos := findStages_resultEnd_pos (nstages - 1) 0 0 _ s (by exact_mod_cast hzero)
    (by simpa using hfit) hrun (Or.inr (by omega))
  have hend : s.resultEnd = 0 := congrArg Prod.snd hs
  omega

/-- One stage of more than `2 ^ 31 - 1` elements does not fit an `int` index. -/
theorem not_findsRange_of_size {α : Type*} [LinearOrder α] [Nonempty α] {n : ℕ}
    {stageSizeSteps : ℕ → ℕ} (hn : n < 2 ^ 64) (hsize : 2 ^ 31 ≤ n) :
    ¬ FindsRange α n 1 stageSizeSteps := by
  intro hfinds
  obtain ⟨k⟩ := ‹Nonempty α›
  have hfit := ((SearchInput.constant n 1 stageSizeSteps k k).found_single_iff hn).mp (hfinds _)
  have hall : (SearchInput.constant n 1 stageSizeSteps k k).upTo = n := by
    simp [SearchInput.upTo, SearchInput.constant]
  omega

/-- The counter of the second stage, as long as it is an `int`. -/
theorem nextStagePos_first {stageSizeSteps : ℕ → ℕ} {e : ℕ} (he : e + 1 < 2 ^ 31)
    (hfit : (e + 1) * stageSizeSteps 0 < 2 ^ 31) :
    sizeOfInt (intOfSize (getNextStagePos (sizeOfInt (e : ℤ)) 0 stageSizeSteps)) =
      (e + 1) * stageSizeSteps 0 := by
  rw [sizeOfInt_natCast (by omega), getNextStagePos, getStagePosItemsCount, if_pos rfl,
    sizeT_of_lt (show e + 1 < 2 ^ 64 by omega), sizeT_of_lt (by omega),
    intOfSize_of_lt hfit, sizeOfInt_natCast (by omega)]

/-- On two stages no interval is found when the positions behind the keys compare as after
it: its end is never moved in the second stage, and so is one block too far. -/
theorem SearchInput.not_found_two {α : Type*} [LinearOrder α] {n : ℕ} {stageSizeSteps : ℕ → ℕ}
    (x : SearchInput α n 2 stageSizeSteps) (hn : n < 2 ^ 64)
    (hbehind : ∀ p, n ≤ p → x.lessEnd p = true)
    (hfit : (x.upTo / (stageSizeSteps 0 + 1) + 1) * (stageSizeSteps 0 + 1) < 2 ^ 31) :
    ¬ x.Found := by
  intro hfound
  have hsteps : StepsFit stageSizeSteps (2 - 1) := fun i hi => by
    obtain rfl : i = 0 := by omega
    have hstep := (Nat.le_mul_of_pos_left (stageSizeSteps 0 + 1) (Nat.succ_pos _)).trans_lt hfit
    omega
  have hprev : ∀ m, stagesCount stageSizeSteps 2 0 m =
      stagesCount stageSizeSteps 2 (0 + 1) m / (stageSizeSteps 0 + 1) :=
    stagesCount_prev (by decide)
  have hlast : ∀ m, stagesCount stageSizeSteps 2 1 m = m := by simp [stagesCount]
  simp only [Nat.zero_add, hlast] at hprev
  have hcount : stageCount stageSizeSteps 2 (0 + 1) x.upTo ≤
      (stagesCount stageSizeSteps 2 0 x.upTo + 1) * stageSizeSteps 0 :=
    stageCount_succ_le (by decide) x.upTo
  have hlate : x.upTo < (x.upTo / (stageSizeSteps 0 + 1) + 1) * (stageSizeSteps 0 + 1) :=
    Nat.lt_mul_of_div_lt (Nat.lt_succ_self _) (Nat.succ_pos _)
  have hadvance := x.advanceEnd_first hn hsteps (by decide)
  rw [← hprev] at hfit hlate
  generalize stagesCount stageSizeSteps 2 0 x.upTo = e at hfit hlate hcount hadvance
  have hsplit : (e + 1) * (stageSizeSteps 0 + 1) = (e + 1) * stageSizeSteps 0 + (e + 1) :=
    Nat.mul_succ _ _
  have hchild : sizeOfInt (intOfSize (getNextStagePos (sizeOfInt (e : ℤ)) 0 stageSizeSteps)) =
      (e + 1) * stageSizeSteps 0 := nextStagePos_first (by omega) (by omega)
  have hstop : x.lessEnd (sizeT (computeStageEnds n stageSizeSteps 2 0 +
      (e + 1) * stageSizeSteps 0)) = true := by
    have hend : computeStageEnds n stageSizeSteps 2 1 = n :=
      computeStageEnds_last hn hsteps (by decide)
    have hstart : stageStart (computeStageEnds n stageSizeSteps 2) 1 =
        computeStageEnds n stageSizeSteps 2 0 := rfl
    by_cases hin : computeStageEnds n stageSizeSteps 2 0 + (e + 1) * stageSizeSteps 0 < n
    · have hless := x.lessEnd_stage hn hsteps (show 1 < 2 by decide)
        (p := (e + 1) * stageSizeSteps 0) (by rwa [hstart, hend])
      rw [decide_eq_false (not_lt.mpr hcount), Bool.not_eq_false', hstart] at hless
      rwa [sizeT_of_lt (by omega)]
    · refine hbehind _ ?_
      rw [sizeT_of_lt]
      · omega
      · rcases Nat.eq_zero_or_pos (stageSizeSteps 0) with hzero | hpos
        · rw [hzero, Nat.mul_zero, Nat.add_zero, computeStageEnds_eq hn hsteps (by decide)]
          exact (Nat.div_le_self _ _).trans_lt hn
        · have hhalf : computeStageEnds n stageSizeSteps 2 0 ≤ n / 2 := by
            rw [computeStageEnds_prev hn hsteps (show 0 + 1 < 2 by decide)]
            rw [Nat.zero_add, hend]
            exact Nat.div_le_div_left (by omega) Nat.two_pos
          omega
  obtain ⟨layerIdxEnd, hstage⟩ := findStageEnd_of_stop (computeStageEnds n stageSizeSteps 2)
    stageSizeSteps 0 e e x.lessEnd (.inl (by rwa [hchild])) hfit
  unfold Found findIdxRange at hfound
  rw [hadvance (by omega), Option.bind_some] at hfound
  obtain ⟨s, hrun, hs⟩ := Option.map_eq_some_iff.mp hfound
  rw [show 2 - 1 = 0 + 1 from rfl, findStages] at hrun
  obtain ⟨t, ht, hrun⟩ := Option.bind_eq_some_iff.mp hrun
  rw [findStages, Option.some_inj] at hrun
  have hend := resultEnd_of_findStage ht hstage
  rw [hrun, show s.resultEnd = _ from congrArg Prod.snd hs, Nat.cast_inj] at hend
  exact hlate.ne hend

/-- The search finds every interval of every array of `n` keys exactly for a
single stage within `int`. That it then does needs no bound on the steps; that it
fails otherwise is for steps whose block counts fit an `int`. For one array and
one interval: on a single stage it is found exactly if the number of keys up to
its end is an `int`, and on two stages it is not found as long as the result fits
an `int` and positions behind the keys compare as after the interval. -/
theorem findsRange_iff (α : Type*) [LinearOrder α] [Nontrivial α] (n nstages : ℕ)
    (stageSizeSteps : ℕ → ℕ) (hn : n < 2 ^ 64) (hstages : 1 ≤ nstages) :
    (nstages = 1 ∧ n < 2 ^ 31 → FindsRange α n nstages stageSizeSteps) ∧
    (blockBound stageSizeSteps 0 (nstages - 1) ≤ 2 ^ 31 →
      (FindsRange α n nstages stageSizeSteps ↔ nstages = 1 ∧ n < 2 ^ 31)) ∧
    ∀ x : SearchInput α n nstages stageSizeSteps,
      (nstages = 1 → (x.Found ↔ x.upTo < 2 ^ 31)) ∧
      (nstages = 2 → (x.upTo / (stageSizeSteps 0 + 1) + 1) * (stageSizeSteps 0 + 1) < 2 ^ 31 →
        (∀ p, n ≤ p → x.lessEnd p = true) → ¬ x.Found) := by
  have hsingle : nstages = 1 ∧ n < 2 ^ 31 → FindsRange α n nstages stageSizeSteps := by
    rintro ⟨rfl, hsize⟩ x
    exact (x.found_single_iff hn).mpr (x.upTo_le.trans_lt hsize)
  refine ⟨hsingle, fun hfit => ⟨fun hfinds => ?_, hsingle⟩, fun x => ⟨?_, ?_⟩⟩
  · have hone : nstages = 1 := by
      by_contra hne
      exact not_findsRange_of_stages (by omega) hfit hfinds
    subst hone
    refine ⟨rfl, ?_⟩
    by_contra hsize
    exact not_findsRange_of_size hn (not_lt.mp hsize) hfinds
  · rintro rfl
    exact x.found_single_iff hn
  · rintro rfl hfit hbehind
    exact x.not_found_two hn hbehind hfit

/-- A thousand keys in one stage, and the same in three. -/
theorem findsRange_iff_sample :
    FindsRange ℤ 1000 1 (fun _ => 4) ∧ ¬ FindsRange ℤ 1000 3 (fun _ => 4) :=
  ⟨(findsRange_iff ℤ 1000 1 (fun _ => 4) (by decide) (by decide)).1 ⟨rfl, by decide⟩,
    fun hfinds => absurd
      (((findsRange_iff ℤ 1000 3 (fun _ => 4) (by decide) (by decide)).2.1 (by decide)).mp
        hfinds).1 (by decide)⟩

def threeKeysAt (p : ℕ) : ℤ := if p = 0 then 1 else if p = 1 then 0 else p

theorem threeKeysAt_treePosition : ∀ i < 3, threeKeysAt (treePosition 3 (fun _ => 1) 2 i) = i := by
  decide

def threeKeys (k : ℤ) : SearchInput ℤ 3 2 fun _ => 1 where
  key := fun i => i
  a := k
  b := k
  lessStart := fun p => decide (threeKeysAt p < k)
  lessEnd := fun p => decide (k < threeKeysAt p)
  sorted := fun _ _ hij _ => Int.ofNat_le.mpr hij
  a_le_b := le_rfl
  lessStart_eq := fun i hi =>
    congrArg (fun key => decide (key < k)) (threeKeysAt_treePosition i hi)
  lessEnd_eq := fun i hi =>
    congrArg (fun key => decide (k < key)) (threeKeysAt_treePosition i hi)

/-- The keys 0, 1 and 2 in two stages, and the interval from -1 to -1: no key is
in it or below it, and the search returns `(0, 2)`. -/
theorem not_findsRange_three_keys : ¬ FindsRange ℤ 3 2 (fun _ => 1) := by
  intro hfinds
  have hresult := hfinds (threeKeys (-1))
  have hcode : findIdxRange (computeStageEnds 3 (fun _ => 1) 2) (fun _ => 1) 2
      (threeKeys (-1)).lessStart (threeKeys (-1)).lessEnd = some (0, 2) := by decide
  rw [SearchInput.Found, hcode] at hresult
  revert hresult
  decide

end Storage

end DistStorage
