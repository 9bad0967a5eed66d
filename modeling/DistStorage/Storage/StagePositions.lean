import DistStorage.Storage.StageLayout

/-!
# From a position in a stage to the array

The first function here is to count the elements of the stages up to a stage that
end at a position of it, and the second to find the child of the position in the
next stage. The number `m` of an element becomes its position by taking
`m / (step + 1)` elements away. The source divides the position by `step + 1` once
more to put them back, which is enough only while `m / (step + 1)` is at most the
remainder of `m`.
-/

namespace DistStorage

namespace Storage

open Cpp Numeration

instance (n : ℕ) (stageSizeSteps : ℕ → ℕ) (nstages s idx : ℕ) :
    Decidable (ElementBelow n stageSizeSteps nstages s idx) :=
  inferInstanceAs (Decidable (∃ t, t < s ∧ _))

/-- The number of an element among those of the stages up to `s`, in array order
and counted from one. -/
def elementNumber (n : ℕ) (stageSizeSteps : ℕ → ℕ) (nstages s idx : ℕ) : ℕ :=
  ((Finset.range (idx + 1)).filter (ElementBelow n stageSizeSteps nstages (s + 1))).card

/-- The number of elements of stage `s` before an array index. -/
def elementsBefore (n : ℕ) (stageSizeSteps : ℕ → ℕ) (nstages s idx : ℕ) : ℕ :=
  ((Finset.range idx).filter (ElementOf n stageSizeSteps nstages s)).card

section Counts

variable {n nstages : ℕ} {stageSizeSteps : ℕ → ℕ} (hn : n < 2 ^ 64)
  (h : StepsFit stageSizeSteps (nstages - 1))

include hn h

theorem card_elementBelow_succ {s k : ℕ} (hs : s < nstages) (hk : k ≤ n) :
    ((Finset.range k).filter (ElementBelow n stageSizeSteps nstages (s + 1))).card =
      k / stride (stageFactor stageSizeSteps) s (nstages - 1) := by
  rw [← Nat.card_multiples]
  refine congrArg Finset.card (Finset.filter_congr fun j hj => ?_)
  rw [Finset.mem_range] at hj
  exact elementBelow_succ_iff hn h hs (by omega)

theorem card_elementOf_succ {s k : ℕ} (hs : s + 1 < nstages) (hk : k ≤ n) :
    k / stride (stageFactor stageSizeSteps) s (nstages - 1) +
        elementsBefore n stageSizeSteps nstages (s + 1) k =
      k / stride (stageFactor stageSizeSteps) (s + 1) (nstages - 1) := by
  rw [← card_elementBelow_succ hn h (show s < nstages by omega) hk,
    ← card_elementBelow_succ hn h hs hk, elementsBefore, ← Finset.card_union_of_disjoint]
  · rw [← Finset.filter_or]
    refine congrArg Finset.card (Finset.filter_congr fun j _ => ?_)
    simp only [ElementBelow, Nat.lt_succ_iff_lt_or_eq (n := s + 1), or_and_right, exists_or,
      exists_eq_left]
  · rw [Finset.disjoint_filter]
    rintro j hj ⟨t, ht, htj⟩ hsj
    rw [Finset.mem_range] at hj
    obtain ⟨u, r, -, -, -, hiff⟩ := elementOf_iff hn h (by omega) (hj.trans_le hk)
    have htu := (hiff t (by omega)).mp htj
    have hsu := (hiff (s + 1) hs).mp hsj
    omega

end Counts

theorem elementNumber_le {n idx : ℕ} (stageSizeSteps : ℕ → ℕ) (nstages s : ℕ) (hidx : idx < n) :
    elementNumber n stageSizeSteps nstages s idx ≤ n := by
  have hcard := Finset.card_filter_le (Finset.range (idx + 1))
    (ElementBelow n stageSizeSteps nstages (s + 1))
  rw [Finset.card_range] at hcard
  unfold elementNumber
  omega

section Inverse

variable {n nstages : ℕ} {stageSizeSteps : ℕ → ℕ} (hn : n < 2 ^ 64)
  (h : StepsFit stageSizeSteps (nstages - 1))
  {s p idx : ℕ} (hs : s < nstages) (hidx : idx < n)
  (hin : ElementOf n stageSizeSteps nstages s idx)
  (hpos : treePosition n stageSizeSteps nstages idx =
    stageStart (computeStageEnds n stageSizeSteps nstages) s + p)

include hn h hs hidx hin hpos

theorem stageRank_elementNumber :
    p + 1 = stageRank stageSizeSteps s (elementNumber n stageSizeSteps nstages s idx) ∧
      idx + 1 = elementNumber n stageSizeSteps nstages s idx *
        stride (stageFactor stageSizeSteps) s (nstages - 1) := by
  obtain ⟨t, r, -, hon, htree, hiff⟩ := elementOf_iff hn h (by omega) hidx
  obtain rfl := (hiff s hs).mp hin
  have hnumber : elementNumber n stageSizeSteps nstages s idx = r := by
    rw [elementNumber, card_elementBelow_succ hn h hs (by omega), hon.eq]
    exact Nat.mul_div_cancel _ (stride_pos (stageFactor_pos _) _ _)
  have hone := hon.one_le_rank
  rw [hnumber]
  exact ⟨by omega, hon.eq⟩

/-- The number of elements is counted right from the position exactly when the
quotient of the element number is at most its remainder. -/
theorem getStagePosItemsCount_eq_iff :
    getStagePosItemsCount p s stageSizeSteps = elementNumber n stageSizeSteps nstages s idx ↔
      s = 0 ∨ elementNumber n stageSizeSteps nstages s idx / (stageSizeSteps (s - 1) + 1) ≤
        elementNumber n stageSizeSteps nstages s idx % (stageSizeSteps (s - 1) + 1) := by
  obtain ⟨hrank, -⟩ := stageRank_elementNumber hn h hs hidx hin hpos
  have hle := elementNumber_le stageSizeSteps nstages s hidx
  generalize elementNumber n stageSizeSteps nstages s idx = m at hrank hle
  rw [getStagePosItemsCount]
  by_cases hs0 : s = 0
  · subst hs0
    rw [stageRank, if_pos rfl] at hrank
    simp only [if_pos, true_or, iff_true]
    rw [hrank, sizeT_of_lt (by omega)]
  · rw [stageRank_pos _ (by omega)] at hrank
    have hfactor : stageFactor stageSizeSteps (s - 1) = stageSizeSteps (s - 1) + 1 := rfl
    rw [hfactor] at hrank
    have hp : p + 1 ≤ m := hrank.trans_le (Nat.sub_le _ _)
    have hquotient := sub_div_add_div_le m (stageSizeSteps (s - 1) + 1)
    rw [← hrank] at hquotient
    simp only [hs0, if_false, false_or]
    rw [sizeT_of_lt (show p + 1 < 2 ^ 64 by omega), stageDivisor_eq h (by omega), hfactor,
      sizeT_of_lt (hquotient.trans_lt (by omega)), hrank]
    exact sub_div_add_div_eq_iff (Nat.succ_pos _)

/-- Every element up to the given one has `step` children before it. -/
theorem elementsBefore_eq (hnext : s + 1 < nstages) :
    elementsBefore n stageSizeSteps nstages (s + 1) idx =
      elementNumber n stageSizeSteps nstages s idx * stageSizeSteps s := by
  obtain ⟨-, hidx'⟩ := stageRank_elementNumber hn h hs hidx hin hpos
  generalize elementNumber n stageSizeSteps nstages s idx = m at hidx' ⊢
  have hcount := card_elementOf_succ hn h hnext (show idx ≤ n by omega)
  have hstride := stride_succ_left (stageFactor stageSizeSteps) (show s < nstages - 1 by omega)
  have hpos : 0 < stride (stageFactor stageSizeSteps) (s + 1) (nstages - 1) :=
    stride_pos (stageFactor_pos _) _ _
  have hpos' : 0 < stride (stageFactor stageSizeSteps) s (nstages - 1) :=
    stride_pos (stageFactor_pos _) _ _
  have hbelow : ∀ {x a : ℕ}, 0 < x → idx + 1 = a * x → idx / x + 1 = a := by
    intro x a hx ha
    have hdiv := Nat.succ_div_of_dvd (show x ∣ idx + 1 from ⟨a, by rw [ha, Nat.mul_comm]⟩)
    rw [ha, Nat.mul_div_cancel _ hx] at hdiv
    exact hdiv.symm
  have hm := hbelow hpos' hidx'
  have hm' := hbelow hpos (a := m * stageFactor stageSizeSteps s)
    (by rw [hidx', hstride, Nat.mul_assoc])
  rw [stageFactor, Nat.mul_add, Nat.mul_one] at hm'
  omega

/-- Both functions are right about the position of an element exactly when it is in
the first stage, or the quotient of its number by `step + 1` is at most the
remainder. -/
theorem stagePosition_iff :
    (getStagePosItemsCount p s stageSizeSteps = elementNumber n stageSizeSteps nstages s idx ∧
      (s + 1 < nstages → getNextStagePos p s stageSizeSteps =
        elementsBefore n stageSizeSteps nstages (s + 1) idx)) ↔
      s = 0 ∨ elementNumber n stageSizeSteps nstages s idx / (stageSizeSteps (s - 1) + 1) ≤
        elementNumber n stageSizeSteps nstages s idx % (stageSizeSteps (s - 1) + 1) := by
  rw [← getStagePosItemsCount_eq_iff hn h hs hidx hin hpos]
  refine ⟨fun hboth => hboth.1, fun hcount => ⟨hcount, fun hnext => ?_⟩⟩
  have hbefore := elementsBefore_eq hn h hs hidx hin hpos hnext
  have hle : elementsBefore n stageSizeSteps nstages (s + 1) idx ≤ idx :=
    (Finset.card_filter_le _ _).trans (Finset.card_range idx).le
  rw [getNextStagePos, hcount, ← hbefore, sizeT_of_lt (by omega)]

end Inverse

/-- The third of five elements is second in the last of two stages. -/
theorem stagePosition_sample :
    getStagePosItemsCount 1 1 (fun _ => 1) = elementNumber 5 (fun _ => 1) 2 1 2 :=
  ((stagePosition_iff (show 5 < 2 ^ 64 by decide) (fun i _ => show 1 + 1 < 2 ^ 64 by decide)
    (by decide) (by decide) (by decide) (by decide)).mpr (by decide)).1

/-- The fifth of them is third in that stage, and counted as the fourth. -/
theorem getStagePosItemsCount_fifth :
    ElementOf 5 (fun _ => 1) 2 1 4 ∧
      treePosition 5 (fun _ => 1) 2 4 = stageStart (computeStageEnds 5 (fun _ => 1) 2) 1 + 2 ∧
      getStagePosItemsCount 2 1 (fun _ => 1) = 4 ∧ elementNumber 5 (fun _ => 1) 2 1 4 = 5 := by
  decide

end Storage

end DistStorage
