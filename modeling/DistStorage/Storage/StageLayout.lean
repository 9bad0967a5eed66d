import DistStorage.Numeration.Stride
import DistStorage.Storage.IdxSortStatic

/-!
# The layout of the static sorted index

With `d i = step i + 1`, the elements of the stages up to `s` are those whose
array index plus one is a multiple of `stride d s (nstages - 1)`. This is the
common description of the two functions that fix the layout:
`computeStageEnds` stores the number of such indexes, and `getIdxPosition`
finds the least such `s` and counts the elements of that stage before the
given one. The results below only combine the two.
-/

namespace DistStorage

namespace Storage

open Cpp Numeration

/-- The factor between a stage and the one before it. -/
def stageFactor (stageSizeSteps : ℕ → ℕ) (stage : ℕ) : ℕ := stageSizeSteps stage + 1

def stageStart (stageEnds : ℕ → ℕ) (stage : ℕ) : ℕ :=
  if stage = 0 then 0 else stageEnds (stage - 1)

def InStage (stageEnds : ℕ → ℕ) (stage p : ℕ) : Prop :=
  stageStart stageEnds stage ≤ p ∧ p < stageEnds stage

theorem stageStart_pos {stageEnds : ℕ → ℕ} {s : ℕ} (hs : 1 ≤ s) :
    stageStart stageEnds s = stageEnds (s - 1) :=
  if_neg (by omega)

/-- The steps of the first `k` stages leave room for the addition of one. -/
def StepsFit (stageSizeSteps : ℕ → ℕ) (k : ℕ) : Prop :=
  ∀ i < k, stageSizeSteps i + 1 < 2 ^ 64

theorem stageDivisor_eq {stageSizeSteps : ℕ → ℕ} {k i : ℕ} (h : StepsFit stageSizeSteps k)
    (hi : i < k) : stageDivisor stageSizeSteps i = stageFactor stageSizeSteps i :=
  sizeT_of_lt (h i hi)

theorem stageFactor_pos (stageSizeSteps : ℕ → ℕ) (i : ℕ) :
    0 < stageFactor stageSizeSteps i :=
  Nat.succ_pos _

theorem countStages_eq {stageSizeSteps : ℕ → ℕ} {k : ℕ} (h : StepsFit stageSizeSteps k)
    (n : ℕ) (stageEnds : ℕ → ℕ) :
    countStages stageSizeSteps k n stageEnds =
      (n / stride (stageFactor stageSizeSteps) 0 k, fun s =>
        if 1 ≤ s ∧ s ≤ k then
          n / stride (stageFactor stageSizeSteps) s k -
            n / stride (stageFactor stageSizeSteps) (s - 1) k
        else stageEnds s) := by
  induction k generalizing n stageEnds with
  | zero =>
      refine Prod.ext (by simp [countStages]) ?_
      funext s
      exact (if_neg (by omega)).symm
  | succ k ih =>
      rw [countStages, stageDivisor_eq h (Nat.lt_succ_self k),
        ih fun i hi => h i (hi.trans (Nat.lt_succ_self k))]
      refine Prod.ext (div_div_stride _ n (Nat.zero_le k)) ?_
      funext s
      by_cases hs : 1 ≤ s ∧ s ≤ k
      · simp only [if_pos hs, if_pos (show 1 ≤ s ∧ s ≤ k + 1 by omega)]
        rw [div_div_stride _ n hs.2, div_div_stride _ n (by omega : s - 1 ≤ k)]
      · simp only [if_neg hs]
        by_cases hsk : s = k + 1
        · subst hsk
          have hlast : stride (stageFactor stageSizeSteps) k (k + 1) =
              stageFactor stageSizeSteps k := by
            rw [stride_succ_right _ le_rfl, stride_self, Nat.one_mul]
          simp [hlast]
        · rw [Function.update_of_ne hsk, if_neg (by omega)]

theorem sumStages_eq {E : ℕ → ℕ} {n : ℕ} (hmono : Monotone E) (hn : ∀ s, E s ≤ n)
    (hlt : n < 2 ^ 64) (remaining stage : ℕ) (stageEnds : ℕ → ℕ)
    (hends : ∀ t, stage ≤ t → t < stage + remaining →
      stageEnds t = E t - stageStart E t) (s : ℕ) :
    sumStages remaining stage (stageStart E stage) stageEnds s =
      if stage ≤ s ∧ s < stage + remaining then E s else stageEnds s := by
  induction remaining generalizing stage stageEnds with
  | zero => rw [if_neg (by omega), sumStages]
  | succ remaining ih =>
      have hstart : stageStart E stage ≤ E stage := by
        rw [stageStart]
        split
        · exact Nat.zero_le _
        · exact hmono (Nat.sub_le stage 1)
      have hpos : sizeT (stageEnds stage + stageStart E stage) = E stage := by
        rw [hends stage le_rfl (by omega), Nat.sub_add_cancel hstart]
        exact sizeT_of_lt ((hn stage).trans_lt hlt)
      have hnext : E stage = stageStart E (stage + 1) := by simp [stageStart]
      rw [sumStages]
      simp only [hpos]
      have hih := ih (stage + 1) (Function.update stageEnds stage (E stage)) (by
        intro t hle hlt
        rw [Function.update_of_ne (by omega)]
        exact hends t (by omega) (by omega))
      rw [← hnext] at hih
      rw [hih]
      by_cases hs : s = stage
      · subst hs
        rw [if_neg (by omega), Function.update_self, if_pos (by omega)]
      · rw [Function.update_of_ne hs]
        by_cases hin : stage + 1 ≤ s ∧ s < stage + 1 + remaining
        · rw [if_pos hin, if_pos (by omega)]
        · rw [if_neg hin, if_neg (by omega)]

theorem monotone_div_stride (stageSizeSteps : ℕ → ℕ) (n k : ℕ) :
    Monotone fun s => n / stride (stageFactor stageSizeSteps) s k := by
  apply monotone_nat_of_le_succ
  intro s
  by_cases hs : s < k
  · apply Nat.div_le_div_left
    · rw [stride_succ_left _ hs]
      exact Nat.le_mul_of_pos_left _ (stageFactor_pos _ s)
    · exact stride_pos (stageFactor_pos _) _ _
  · simp [stride, Finset.Ico_eq_empty_of_le (not_lt.mp hs),
      Finset.Ico_eq_empty_of_le ((not_lt.mp hs).trans (Nat.le_succ s))]

/-- Every stage ends at the number of elements of the stages up to it. -/
theorem computeStageEnds_eq {n nstages : ℕ} {stageSizeSteps : ℕ → ℕ} (hn : n < 2 ^ 64)
    (h : StepsFit stageSizeSteps (nstages - 1)) {s : ℕ} (hs : s < nstages) :
    computeStageEnds n stageSizeSteps nstages s =
      n / stride (stageFactor stageSizeSteps) s (nstages - 1) := by
  have hsum := sumStages_eq (monotone_div_stride stageSizeSteps n (nstages - 1))
    (fun s => Nat.div_le_self n _) hn nstages 0
    (Function.update (countStages stageSizeSteps (nstages - 1) n fun _ => 0).2 0
      (countStages stageSizeSteps (nstages - 1) n fun _ => 0).1) (by
      intro t _ ht
      rw [countStages_eq h]
      by_cases ht0 : t = 0
      · subst ht0
        simp [stageStart]
      · rw [Function.update_of_ne ht0]
        simp only [stageStart, if_neg ht0]
        rw [if_pos (by omega)]) s
  rw [if_pos (by omega)] at hsum
  exact hsum

/-- The array index `idx` belongs to stage `s`, where it is the element number
`r` among those of the stages up to `s`. -/
structure OnStage (stageSizeSteps : ℕ → ℕ) (k idx s r : ℕ) : Prop where
  le : s ≤ k
  eq : idx + 1 = r * stride (stageFactor stageSizeSteps) s k
  not_dvd : 1 ≤ s → ¬ stageFactor stageSizeSteps (s - 1) ∣ r

/-- The number of elements of stage `s` alone among the first `r` of the stages
up to `s`. -/
def stageRank (stageSizeSteps : ℕ → ℕ) (s r : ℕ) : ℕ :=
  if s = 0 then r else r - r / stageFactor stageSizeSteps (s - 1)

theorem stageRank_pos (stageSizeSteps : ℕ → ℕ) {s r : ℕ} (hs : 1 ≤ s) :
    stageRank stageSizeSteps s r = r - r / stageFactor stageSizeSteps (s - 1) :=
  if_neg (by omega)

/-- The loop of `getIdxPosition` finds the stage and the number in it. -/
theorem descendStages_spec {stageSizeSteps : ℕ → ℕ} {k : ℕ} (h : StepsFit stageSizeSteps k)
    (idx m : ℕ) (hm : m = idx + 1) :
    OnStage stageSizeSteps k idx (descendStages stageSizeSteps k m).1
      (descendStages stageSizeSteps k m).2 := by
  induction k generalizing idx m with
  | zero => exact ⟨le_rfl, by simp [descendStages, hm], by simp [descendStages]⟩
  | succ k ih =>
      rw [descendStages, stageDivisor_eq h (Nat.lt_succ_self k)]
      by_cases hdvd : m % stageFactor stageSizeSteps k = 0
      · rw [if_pos hdvd]
        obtain ⟨q, hq⟩ := Nat.dvd_of_mod_eq_zero hdvd
        have hdiv : m / stageFactor stageSizeSteps k = q := by
          rw [hq, Nat.mul_div_cancel_left _ (stageFactor_pos _ k)]
        have hqpos : 0 < q := Nat.pos_of_ne_zero fun h0 => by
          rw [h0, Nat.mul_zero] at hq
          omega
        have hrec := ih (fun i hi => h i (hi.trans (Nat.lt_succ_self k))) (q - 1) q (by omega)
        rw [hdiv]
        refine ⟨hrec.le.trans (Nat.le_succ k), ?_, hrec.not_dvd⟩
        rw [stride_succ_right _ hrec.le, ← Nat.mul_assoc, ← hrec.eq,
          Nat.sub_add_cancel hqpos, ← hm, hq, Nat.mul_comm]
      · rw [if_neg hdvd]
        refine ⟨le_rfl, by simp [hm], fun _ hd => hdvd ?_⟩
        exact Nat.mod_eq_zero_of_dvd (by simpa using hd)

theorem OnStage.le_iff {stageSizeSteps : ℕ → ℕ} {k idx s r : ℕ}
    (h : OnStage stageSizeSteps k idx s r) {t : ℕ} (ht : t ≤ k) :
    stride (stageFactor stageSizeSteps) t k ∣ idx + 1 ↔ s ≤ t := by
  rw [h.eq]
  exact stride_dvd_mul_iff (stageFactor_pos _) h.le ht h.not_dvd

theorem OnStage.number_le {stageSizeSteps : ℕ → ℕ} {k idx s r n : ℕ}
    (h : OnStage stageSizeSteps k idx s r) (hidx : idx < n) :
    r ≤ n / stride (stageFactor stageSizeSteps) s k := by
  rw [Nat.le_div_iff_mul_le (stride_pos (stageFactor_pos _) _ _), ← h.eq]
  exact hidx

theorem OnStage.one_le_rank {stageSizeSteps : ℕ → ℕ} {k idx s r : ℕ}
    (h : OnStage stageSizeSteps k idx s r) : 1 ≤ stageRank stageSizeSteps s r := by
  rw [stageRank]
  split
  · exact Nat.pos_of_ne_zero fun h0 => by
      have := h.eq
      rw [h0, Nat.zero_mul] at this
      omega
  · exact one_le_sub_div (h.not_dvd (by omega))

section Layout

variable {n nstages : ℕ} {stageSizeSteps : ℕ → ℕ}

/-- The end of a stage counts the blocks of the next one. -/
theorem computeStageEnds_prev (hn : n < 2 ^ 64) (h : StepsFit stageSizeSteps (nstages - 1))
    {s : ℕ} (hs : s + 1 < nstages) :
    computeStageEnds n stageSizeSteps nstages s =
      computeStageEnds n stageSizeSteps nstages (s + 1) / (stageSizeSteps s + 1) := by
  rw [computeStageEnds_eq hn h hs, computeStageEnds_eq hn h (by omega),
    stride_succ_left _ (show s < nstages - 1 by omega), Nat.div_div_eq_div_mul, Nat.mul_comm]
  rfl

/-- The last stage ends at the number of elements. -/
theorem computeStageEnds_last (hn : n < 2 ^ 64) (h : StepsFit stageSizeSteps (nstages - 1))
    (hstages : 1 ≤ nstages) : computeStageEnds n stageSizeSteps nstages (nstages - 1) = n := by
  rw [computeStageEnds_eq hn h (by omega), stride_self, Nat.div_one]

/-- The elements of a stage fill its segment. -/
theorem stageStart_add_rank (hn : n < 2 ^ 64) (h : StepsFit stageSizeSteps (nstages - 1))
    {s : ℕ} (hs : s < nstages) :
    stageStart (computeStageEnds n stageSizeSteps nstages) s +
        stageRank stageSizeSteps s
          (n / stride (stageFactor stageSizeSteps) s (nstages - 1)) =
      computeStageEnds n stageSizeSteps nstages s := by
  rw [← computeStageEnds_eq hn h hs, stageStart, stageRank]
  split
  · simp
  · next hs0 =>
      have hprev := computeStageEnds_prev hn h (show s - 1 + 1 < nstages by omega)
      rw [Nat.sub_add_cancel (by omega)] at hprev
      rw [hprev, stageFactor, Nat.add_sub_cancel' (Nat.div_le_self _ _)]

theorem getIdxPosition_eq (hn : n < 2 ^ 64) (h : StepsFit stageSizeSteps (nstages - 1))
    {idx : ℕ} (hidx : idx < n) (hstages : 1 ≤ nstages) :
    ∃ s r, OnStage stageSizeSteps (nstages - 1) idx s r ∧
      getIdxPosition idx (computeStageEnds n stageSizeSteps nstages) stageSizeSteps nstages =
        stageStart (computeStageEnds n stageSizeSteps nstages) s +
          stageRank stageSizeSteps s r - 1 := by
  have hspec := descendStages_spec h idx (idx + 1) rfl
  obtain ⟨s, r, hsr⟩ : ∃ s r, descendStages stageSizeSteps (nstages - 1) (idx + 1) = (s, r) :=
    ⟨_, _, rfl⟩
  simp only [hsr] at hspec
  refine ⟨s, r, hspec, ?_⟩
  rw [getIdxPosition, sizeT_of_lt (by omega), hsr]
  simp only
  by_cases hs : 1 ≤ s
  · have hle := hspec.le
    have hfill := stageStart_add_rank hn h (show s < nstages by omega)
    have hnumber := sub_div_mono (d := stageFactor stageSizeSteps (s - 1))
      (hspec.number_le hidx)
    have hend := computeStageEnds_eq hn h (show s < nstages by omega)
    have hbound := Nat.div_le_self n
      (stride (stageFactor stageSizeSteps) s (nstages - 1))
    rw [stageStart_pos hs, stageRank_pos _ hs] at hfill
    rw [if_pos hs, stageDivisor_eq h (by omega), stageStart_pos hs, stageRank_pos _ hs,
      sizeT_of_lt (by omega)]
  · obtain rfl : s = 0 := by omega
    simp [stageStart, stageRank]

theorem InStage.unique (hn : n < 2 ^ 64) (h : StepsFit stageSizeSteps (nstages - 1))
    {s t p : ℕ} (hs : s < nstages) (ht : t < nstages)
    (hsp : InStage (computeStageEnds n stageSizeSteps nstages) s p)
    (htp : InStage (computeStageEnds n stageSizeSteps nstages) t p) : s = t := by
  have hlt : ∀ {a b}, a < nstages → b < nstages → a < b →
      computeStageEnds n stageSizeSteps nstages a ≤
        stageStart (computeStageEnds n stageSizeSteps nstages) b := by
    intro a b ha hb hab
    rw [stageStart, if_neg (by omega), computeStageEnds_eq hn h ha,
      computeStageEnds_eq hn h (by omega)]
    exact monotone_div_stride stageSizeSteps n (nstages - 1) (by omega)
  have hs' := hsp
  have ht' := htp
  unfold InStage at hs' ht'
  rcases lt_trichotomy s t with hst | hst | hst
  · have := hlt hs ht hst
    omega
  · exact hst
  · have := hlt ht hs hst
    omega

theorem OnStage.inStage (hn : n < 2 ^ 64) (h : StepsFit stageSizeSteps (nstages - 1))
    (hstages : 1 ≤ nstages) {idx s r : ℕ} (hidx : idx < n)
    (hon : OnStage stageSizeSteps (nstages - 1) idx s r) :
    InStage (computeStageEnds n stageSizeSteps nstages) s
      (stageStart (computeStageEnds n stageSizeSteps nstages) s +
        stageRank stageSizeSteps s r - 1) := by
  have hle := hon.le
  have hfill := stageStart_add_rank hn h (show s < nstages by omega)
  have hpos := hon.one_le_rank
  have hrank : stageRank stageSizeSteps s r ≤ stageRank stageSizeSteps s
      (n / stride (stageFactor stageSizeSteps) s (nstages - 1)) := by
    unfold stageRank
    split
    · exact hon.number_le hidx
    · exact sub_div_mono (hon.number_le hidx)
  unfold InStage
  omega

/-- The tree position of an array index in the layout of `n` elements. -/
def treePosition (n : ℕ) (stageSizeSteps : ℕ → ℕ) (nstages idx : ℕ) : ℕ :=
  getIdxPosition idx (computeStageEnds n stageSizeSteps nstages) stageSizeSteps nstages

/-- The element with the array index `idx` lies in the segment of stage `s`. -/
def ElementOf (n : ℕ) (stageSizeSteps : ℕ → ℕ) (nstages s idx : ℕ) : Prop :=
  InStage (computeStageEnds n stageSizeSteps nstages) s
    (treePosition n stageSizeSteps nstages idx)

instance (n : ℕ) (stageSizeSteps : ℕ → ℕ) (nstages s idx : ℕ) :
    Decidable (ElementOf n stageSizeSteps nstages s idx) :=
  inferInstanceAs (Decidable (_ ∧ _))

def ElementBelow (n : ℕ) (stageSizeSteps : ℕ → ℕ) (nstages s idx : ℕ) : Prop :=
  ∃ t < s, ElementOf n stageSizeSteps nstages t idx

theorem elementOf_iff (hn : n < 2 ^ 64) (h : StepsFit stageSizeSteps (nstages - 1))
    (hstages : 1 ≤ nstages) {idx : ℕ} (hidx : idx < n) :
    ∃ s r, s < nstages ∧ OnStage stageSizeSteps (nstages - 1) idx s r ∧
      treePosition n stageSizeSteps nstages idx =
        stageStart (computeStageEnds n stageSizeSteps nstages) s +
          stageRank stageSizeSteps s r - 1 ∧
      ∀ t < nstages, ElementOf n stageSizeSteps nstages t idx ↔ t = s := by
  obtain ⟨s, r, hon, hpos⟩ := getIdxPosition_eq hn h hidx hstages
  have hle := hon.le
  have hin := hon.inStage hn h hstages hidx
  rw [← hpos] at hin
  refine ⟨s, r, by omega, hon, hpos, fun t ht => ⟨fun htin => ?_, ?_⟩⟩
  · exact InStage.unique hn h ht (by omega) htin hin
  · rintro rfl
    exact hin

/-- The stages up to `s` hold the elements that the stride of `s` selects. -/
theorem elementBelow_succ_iff (hn : n < 2 ^ 64) (h : StepsFit stageSizeSteps (nstages - 1))
    {s : ℕ} (hs : s < nstages) {idx : ℕ} (hidx : idx < n) :
    ElementBelow n stageSizeSteps nstages (s + 1) idx ↔
      stride (stageFactor stageSizeSteps) s (nstages - 1) ∣ idx + 1 := by
  obtain ⟨t, r, ht, hon, -, hiff⟩ := elementOf_iff hn h (by omega) hidx
  rw [hon.le_iff (by omega)]
  constructor
  · rintro ⟨u, hu, hin⟩
    have := (hiff u (by omega)).mp hin
    omega
  · intro hle
    exact ⟨t, by omega, (hiff t ht).mpr rfl⟩

/-- The stages below `s` hold the elements that the stride of `s - 1` selects. -/
theorem elementBelow_iff (hn : n < 2 ^ 64) (h : StepsFit stageSizeSteps (nstages - 1))
    {s : ℕ} (hs : 1 ≤ s) (hstages : s < nstages) {idx : ℕ} (hidx : idx < n) :
    ElementBelow n stageSizeSteps nstages s idx ↔
      stride (stageFactor stageSizeSteps) (s - 1) (nstages - 1) ∣ idx + 1 := by
  obtain ⟨t, rfl⟩ := Nat.exists_eq_add_of_le' hs
  exact elementBelow_succ_iff hn h (by omega) hidx

theorem elementOf_iff_dvd (hn : n < 2 ^ 64) (h : StepsFit stageSizeSteps (nstages - 1))
    {s : ℕ} (hs : 1 ≤ s) (hstages : s < nstages) {idx : ℕ} (hidx : idx < n)
    (hbelow : ¬ ElementBelow n stageSizeSteps nstages s idx) :
    ElementOf n stageSizeSteps nstages s idx ↔
      stride (stageFactor stageSizeSteps) s (nstages - 1) ∣ idx + 1 := by
  obtain ⟨t, r, ht, hon, -, hiff⟩ := elementOf_iff hn h (by omega) hidx
  rw [elementBelow_iff hn h hs hstages hidx, hon.le_iff (by omega)] at hbelow
  rw [hiff s hstages, hon.le_iff (by omega)]
  omega

theorem treePosition_lt (hn : n < 2 ^ 64) (h : StepsFit stageSizeSteps (nstages - 1))
    (hstages : 1 ≤ nstages) {s : ℕ} (hs : s < nstages) {i j : ℕ} (hij : i < j) (hj : j < n)
    (hsi : ElementOf n stageSizeSteps nstages s i)
    (hsj : ElementOf n stageSizeSteps nstages s j) :
    treePosition n stageSizeSteps nstages i < treePosition n stageSizeSteps nstages j := by
  obtain ⟨t, q, -, honi, hposi, hiffi⟩ := elementOf_iff hn h hstages (hij.trans hj)
  obtain ⟨u, r, -, honj, hposj, hiffj⟩ := elementOf_iff hn h hstages hj
  obtain rfl := (hiffi s hs).mp hsi
  obtain rfl := (hiffj s hs).mp hsj
  have hqr : q < r := by
    refine Nat.lt_of_mul_lt_mul_right
      (a := stride (stageFactor stageSizeSteps) s (nstages - 1)) ?_
    rw [← honi.eq, ← honj.eq]
    omega
  have hrank : stageRank stageSizeSteps s q < stageRank stageSizeSteps s r := by
    by_cases hs1 : 1 ≤ s
    · rw [stageRank_pos _ hs1, stageRank_pos _ hs1]
      exact sub_div_lt hqr (honj.not_dvd hs1)
    · simpa [stageRank, show s = 0 by omega] using hqr
  have := honi.one_le_rank
  rw [hposi, hposj]
  omega

theorem treePosition_lt_size (hn : n < 2 ^ 64) (h : StepsFit stageSizeSteps (nstages - 1))
    (hstages : 1 ≤ nstages) {idx : ℕ} (hidx : idx < n) :
    treePosition n stageSizeSteps nstages idx < n := by
  obtain ⟨s, r, hs, -, -, hiff⟩ := elementOf_iff hn h hstages hidx
  have hin : ElementOf n stageSizeSteps nstages s idx := (hiff s hs).mpr rfl
  refine hin.2.trans_le ?_
  rw [computeStageEnds_eq hn h hs]
  exact Nat.div_le_self n _

theorem treePosition_injOn (hn : n < 2 ^ 64) (h : StepsFit stageSizeSteps (nstages - 1))
    (hstages : 1 ≤ nstages) :
    Set.InjOn (treePosition n stageSizeSteps nstages) (Set.Iio n) := by
  intro i hi j hj heq
  obtain ⟨s, -, hs, -, -, hiffi⟩ := elementOf_iff hn h hstages hi
  have hsi : ElementOf n stageSizeSteps nstages s i := (hiffi s hs).mpr rfl
  have hsj : ElementOf n stageSizeSteps nstages s j := by
    unfold ElementOf at hsi ⊢
    rwa [← heq]
  rcases lt_trichotomy i j with hij | hij | hij
  · exact absurd heq (treePosition_lt hn h hstages hs hij hj hsi hsj).ne
  · exact hij
  · exact absurd heq (treePosition_lt hn h hstages hs hij hi hsj hsi).ne'

theorem bijOn_treePosition (hn : n < 2 ^ 64) (h : StepsFit stageSizeSteps (nstages - 1))
    (hstages : 1 ≤ nstages) :
    Set.BijOn (treePosition n stageSizeSteps nstages) (Set.Iio n) (Set.Iio n) :=
  ((Set.finite_Iio n).injOn_iff_bijOn_of_mapsTo fun _ hi =>
    treePosition_lt_size hn h hstages hi).mp (treePosition_injOn hn h hstages)

/-- The number of elements of the stages up to `s` among the first `m` array indexes. -/
def stagesCount (stageSizeSteps : ℕ → ℕ) (nstages s m : ℕ) : ℕ :=
  m / stride (stageFactor stageSizeSteps) s (nstages - 1)

/-- The number of elements of stage `s` among the first `m` array indexes. -/
def stageCount (stageSizeSteps : ℕ → ℕ) (nstages s m : ℕ) : ℕ :=
  stageRank stageSizeSteps s (stagesCount stageSizeSteps nstages s m)

theorem stagesCount_prev {s : ℕ} (hs : s + 1 < nstages) (m : ℕ) :
    stagesCount stageSizeSteps nstages s m =
      stagesCount stageSizeSteps nstages (s + 1) m / (stageSizeSteps s + 1) := by
  rw [stagesCount, stagesCount, stride_succ_left _ (show s < nstages - 1 by omega),
    Nat.div_div_eq_div_mul, Nat.mul_comm]
  rfl

theorem stageCount_succ {s : ℕ} (hs : s + 1 < nstages) (m : ℕ) :
    stageCount stageSizeSteps nstages (s + 1) m =
      stagesCount stageSizeSteps nstages (s + 1) m - stagesCount stageSizeSteps nstages s m := by
  rw [stagesCount_prev hs]
  rfl

/-- The elements of a stage before an index lie in the blocks up to that of the index. -/
theorem stageCount_succ_le {s : ℕ} (hs : s + 1 < nstages) (m : ℕ) :
    stageCount stageSizeSteps nstages (s + 1) m ≤
      (stagesCount stageSizeSteps nstages s m + 1) * stageSizeSteps s := by
  have hprev : stagesCount stageSizeSteps nstages s m = _ := stagesCount_prev hs m
  rw [stageCount_succ hs]
  generalize stagesCount stageSizeSteps nstages (s + 1) m = c at hprev ⊢
  have hmod := Nat.div_add_mod c (stageSizeSteps s + 1)
  have hlt := Nat.mod_lt c (show 0 < stageSizeSteps s + 1 by omega)
  rw [← hprev] at hmod
  generalize stagesCount stageSizeSteps nstages s m = c' at hmod ⊢
  rw [Nat.add_mul, Nat.one_mul] at hmod
  rw [Nat.mul_comm, Nat.mul_add, Nat.mul_one]
  omega

theorem OnStage.rank_le_iff {k idx s r : ℕ} (hon : OnStage stageSizeSteps k idx s r) (q : ℕ) :
    stageRank stageSizeSteps s r ≤ stageRank stageSizeSteps s q ↔ r ≤ q := by
  by_cases hs : 1 ≤ s
  · rw [stageRank_pos _ hs, stageRank_pos _ hs]
    refine ⟨fun hle => ?_, sub_div_mono⟩
    by_contra hlt
    exact absurd hle (not_le.mpr (sub_div_lt (not_le.mp hlt) (hon.not_dvd hs)))
  · simp [stageRank, show s = 0 by omega]

/-- A comparison with an array index compares the position in a stage with the number of
elements of the stage before that index. -/
theorem less_stagePosition (hn : n < 2 ^ 64) (h : StepsFit stageSizeSteps (nstages - 1))
    {s : ℕ} (hs : s < nstages) (less : ℕ → Bool) {m : ℕ}
    (hless : ∀ i < n, less (treePosition n stageSizeSteps nstages i) = decide (i < m)) {p : ℕ}
    (hp : stageStart (computeStageEnds n stageSizeSteps nstages) s + p <
      computeStageEnds n stageSizeSteps nstages s) :
    less (stageStart (computeStageEnds n stageSizeSteps nstages) s + p) =
      decide (p < stageCount stageSizeSteps nstages s m) := by
  have hsize : computeStageEnds n stageSizeSteps nstages s ≤ n := by
    rw [computeStageEnds_eq hn h hs]
    exact Nat.div_le_self n _
  obtain ⟨i, hi, hpos⟩ := (bijOn_treePosition hn h (show 1 ≤ nstages by omega)).surjOn
    (Set.mem_Iio.mpr (hp.trans_le hsize))
  obtain ⟨t, r, -, hon, hrank, hiff⟩ := elementOf_iff hn h (by omega) (Set.mem_Iio.mp hi)
  have hin : ElementOf n stageSizeSteps nstages s i := by
    rw [ElementOf, hpos]
    exact ⟨Nat.le_add_right _ _, hp⟩
  obtain rfl := (hiff s hs).mp hin
  have hone := hon.one_le_rank
  have hp1 : p + 1 = stageRank stageSizeSteps s r := by omega
  rw [← hpos, hless i hi, decide_eq_decide, ← Nat.add_one_le_iff, hon.eq, stageCount, stagesCount,
    ← Nat.add_one_le_iff, hp1, hon.rank_le_iff,
    Nat.le_div_iff_mul_le (stride_pos (stageFactor_pos _) _ _)]

/-- Two neighbours among the elements below stage `s` have exactly
`stageSizeSteps (s - 1)` elements of stage `s` between them. -/
theorem card_elementOf_between (hn : n < 2 ^ 64) (h : StepsFit stageSizeSteps (nstages - 1))
    {s : ℕ} (hs : 1 ≤ s) (hstages : s < nstages) {i j : ℕ} (hij : i < j) (hj : j < n)
    (hi : ElementBelow n stageSizeSteps nstages s i)
    (hj' : ElementBelow n stageSizeSteps nstages s j)
    (hbetween : ∀ k, i < k → k < j → ¬ ElementBelow n stageSizeSteps nstages s k) :
    ((Finset.Ioo i j).filter (ElementOf n stageSizeSteps nstages s)).card =
      stageSizeSteps (s - 1) := by
  have hlong : stride (stageFactor stageSizeSteps) (s - 1) (nstages - 1) =
      stageFactor stageSizeSteps (s - 1) *
        stride (stageFactor stageSizeSteps) s (nstages - 1) := by
    rw [stride_succ_left _ (by omega : s - 1 < nstages - 1), Nat.sub_add_cancel hs]
  have hfactor := stageFactor_pos stageSizeSteps (s - 1)
  have hstride : 0 < stride (stageFactor stageSizeSteps) s (nstages - 1) :=
    stride_pos (stageFactor_pos _) _ _
  obtain ⟨a, ha⟩ := (elementBelow_iff hn h hs hstages (hij.trans hj)).mp hi
  obtain ⟨b, hb⟩ := (elementBelow_iff hn h hs hstages hj).mp hj'
  rw [hlong, Nat.mul_comm] at ha hb
  have hlongpos : 0 < stageFactor stageSizeSteps (s - 1) *
      stride (stageFactor stageSizeSteps) s (nstages - 1) := Nat.mul_pos hfactor hstride
  -- The two are consecutive multiples, since a multiple between them would be a
  -- further element below stage `s`.
  have hab : b = a + 1 := by
    have hlt : a < b := by
      refine Nat.lt_of_mul_lt_mul_right (a := stageFactor stageSizeSteps (s - 1) *
        stride (stageFactor stageSizeSteps) s (nstages - 1)) ?_
      omega
    by_contra hne
    have hstep : (a + 1) * (stageFactor stageSizeSteps (s - 1) *
        stride (stageFactor stageSizeSteps) s (nstages - 1)) < j + 1 := by
      rw [hb]
      exact Nat.mul_lt_mul_of_pos_right (by omega) hlongpos
    have hstep' : i + 1 < (a + 1) * (stageFactor stageSizeSteps (s - 1) *
        stride (stageFactor stageSizeSteps) s (nstages - 1)) := by
      rw [ha]
      exact Nat.mul_lt_mul_of_pos_right (by omega) hlongpos
    refine hbetween ((a + 1) * (stageFactor stageSizeSteps (s - 1) *
        stride (stageFactor stageSizeSteps) s (nstages - 1)) - 1) (by omega) (by omega) ?_
    rw [elementBelow_iff hn h hs hstages (by omega), Nat.sub_add_cancel (by omega), hlong]
    exact Dvd.intro_left _ rfl
  subst hab
  rw [← Nat.add_sub_cancel (n := stageSizeSteps (s - 1)) (m := 1)]
  change _ = stageFactor stageSizeSteps (s - 1) - 1
  rw [← card_dvd_between hfactor hstride a, ← ha, ← hb]
  refine Finset.card_bij (fun k _ => k + 1) ?_ (fun _ _ _ _ heq => Nat.succ_injective heq) ?_
  · intro k hk
    rw [Finset.mem_filter, Finset.mem_Ioo] at hk ⊢
    obtain ⟨⟨hik, hkj⟩, hk⟩ := hk
    exact ⟨⟨by omega, by omega⟩,
      (elementOf_iff_dvd hn h hs hstages (by omega) (hbetween k hik hkj)).mp hk⟩
  · intro m hm
    rw [Finset.mem_filter, Finset.mem_Ioo] at hm
    obtain ⟨⟨him, hmj⟩, hm⟩ := hm
    refine ⟨m - 1, ?_, by omega⟩
    rw [Finset.mem_filter, Finset.mem_Ioo]
    refine ⟨⟨by omega, by omega⟩, ?_⟩
    rw [elementOf_iff_dvd hn h hs hstages (by omega) (hbetween (m - 1) (by omega) (by omega)),
      Nat.sub_add_cancel (by omega)]
    exact hm

/-- The positions of the elements are a permutation of the array, each element
lies in one segment, a segment is sorted by array index, and the elements of a
stage are evenly spread between those of the stages below it. -/
theorem stage_layout (n nstages : ℕ) (stageSizeSteps : ℕ → ℕ) (hn : n < 2 ^ 64)
    (hstages : 1 ≤ nstages) (h : StepsFit stageSizeSteps (nstages - 1)) :
    Set.BijOn (treePosition n stageSizeSteps nstages) (Set.Iio n) (Set.Iio n) ∧
    (∀ i < n, ∃! s, s < nstages ∧ ElementOf n stageSizeSteps nstages s i) ∧
    (∀ s < nstages, StrictMonoOn (treePosition n stageSizeSteps nstages)
      {i | i < n ∧ ElementOf n stageSizeSteps nstages s i}) ∧
    ∀ s, 1 ≤ s → s < nstages → ∀ i j, i < j → j < n →
      ElementBelow n stageSizeSteps nstages s i → ElementBelow n stageSizeSteps nstages s j →
      (∀ k, i < k → k < j → ¬ ElementBelow n stageSizeSteps nstages s k) →
      ((Finset.Ioo i j).filter (ElementOf n stageSizeSteps nstages s)).card =
        stageSizeSteps (s - 1) := by
  refine ⟨bijOn_treePosition hn h hstages, ?_, ?_, ?_⟩
  · intro i hi
    obtain ⟨s, -, hs, -, -, hiff⟩ := elementOf_iff hn h hstages hi
    exact ⟨s, ⟨hs, (hiff s hs).mpr rfl⟩, fun t ht => (hiff t ht.1).mp ht.2⟩
  · intro s hs i hi j hj hij
    exact treePosition_lt hn h hstages hs hij hj.1 hi.2 hj.2
  · intro s hs hs' i j hij hj hi hj' hbetween
    exact card_elementOf_between hn h hs hs' hij hj hi hj' hbetween

end Layout

/-- Eleven elements in three stages, with one element of the second stage and two
of the third between neighbours. -/
theorem stage_layout_sample :
    Set.BijOn (treePosition 11 (fun stage => stage + 1) 3) (Set.Iio 11) (Set.Iio 11) ∧
    ∀ i < 11, ∃! s, s < 3 ∧ ElementOf 11 (fun stage => stage + 1) 3 s i :=
  have hlayout := stage_layout 11 3 (fun stage => stage + 1) (by decide) (by decide)
    fun i hi => show i + 1 + 1 < 2 ^ 64 by omega
  ⟨hlayout.1, hlayout.2.1⟩

end Storage

end DistStorage
