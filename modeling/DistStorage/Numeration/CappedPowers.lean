import Mathlib

/-!
# Powers with a cap

A sequence that starts with `x`, is multiplied by `r` at each step and cut down to
`M`, with a cap that is not negative. The cap only moves a term toward zero, so the
sequence lies between zero and the powers without the cap. Both bounds below say of
an initial part of the sequence that it stays on one side of a number, in terms of
those powers.
-/

namespace Numeration

variable {K : Type*} [Field K] [LinearOrder K] [IsStrictOrderedRing K] {x r M : K}

def cappedPower (x r M : K) : ℕ → K
  | 0 => x
  | i + 1 => min (cappedPower x r M i * r) M

omit [IsStrictOrderedRing K] in
theorem cappedPower_succ_le (x r M : K) (i : ℕ) : cappedPower x r M (i + 1) ≤ M :=
  min_le_right _ _

/-- The unit of the sequence is that of its start and its cap. -/
theorem mul_cappedPower {c : K} (hc : 0 ≤ c) (x r M : K) (i : ℕ) :
    c * cappedPower x r M i = cappedPower (c * x) r (c * M) i := by
  induction i with
  | zero => rfl
  | succ i ih => rw [cappedPower, cappedPower, mul_min_of_nonneg _ _ hc, ← mul_assoc, ih]

/-- Cutting down to a cap that is not negative moves toward zero. -/
theorem min_eq_mul (hM : 0 ≤ M) (z : K) : ∃ θ : K, 0 ≤ θ ∧ θ ≤ 1 ∧ min z M = θ * z := by
  rcases le_or_gt z M with hle | hlt
  · exact ⟨1, zero_le_one, le_rfl, by rw [min_eq_left hle, one_mul]⟩
  · have hz : 0 < z := hM.trans_lt hlt
    exact ⟨M / z, div_nonneg hM hz.le, (div_le_one hz).mpr hlt.le,
      by rw [min_eq_right hlt.le, div_mul_cancel₀ M hz.ne']⟩

theorem cappedPower_eq_mul (hM : 0 ≤ M) (x r : K) (i : ℕ) :
    ∃ θ : K, 0 ≤ θ ∧ θ ≤ 1 ∧ cappedPower x r M i = θ * (x * r ^ i) := by
  induction i with
  | zero => exact ⟨1, zero_le_one, le_rfl, by simp [cappedPower]⟩
  | succ i ih =>
      obtain ⟨θ, hnonneg, hle, hpower⟩ := ih
      obtain ⟨θ', hnonneg', hle', hmin⟩ := min_eq_mul hM (cappedPower x r M i * r)
      refine ⟨θ' * θ, mul_nonneg hnonneg' hnonneg, mul_le_one₀ hle' hnonneg hle, ?_⟩
      rw [cappedPower, hmin, hpower]
      ring

omit [IsStrictOrderedRing K] in
/-- A term is the power, or the cap was in force at some term up to it. -/
theorem cappedPower_eq_or (x r M : K) (i : ℕ) :
    cappedPower x r M i = x * r ^ i ∨
      ∃ j, 1 ≤ j ∧ j ≤ i ∧ cappedPower x r M j = M ∧ M < x * r ^ j := by
  induction i with
  | zero => exact .inl (by simp [cappedPower])
  | succ i ih =>
      rcases ih with hpower | ⟨j, hj, hji, hcap⟩
      · have hnext : cappedPower x r M (i + 1) = min (x * r ^ (i + 1)) M := by
          rw [cappedPower, hpower, mul_assoc, pow_succ]
        rcases le_or_gt (x * r ^ (i + 1)) M with hle | hlt
        · exact .inl (hnext.trans (min_eq_left hle))
        · exact .inr ⟨i + 1, by omega, le_rfl, hnext.trans (min_eq_right hlt.le), hlt⟩
      · exact .inr ⟨j, hj, by omega, hcap⟩

theorem forall_lt_cappedPower_iff {b : K} (hb : b < 0) (hM : 0 ≤ M) (n : ℕ) :
    (∀ i < n, b < cappedPower x r M i) ↔
      ∀ i < n, b < x * r ^ i ∨ 2 ≤ i ∧ r < 0 ∧ b < M * r := by
  constructor
  · intro h i hi
    rw [or_iff_not_imp_left, not_lt]
    intro hlow
    rcases cappedPower_eq_or x r M i with hpower | ⟨j, hj, hji, hcap, hlt⟩
    · exact absurd (h i hi) (by rw [hpower]; exact hlow.not_gt)
    have hne : j ≠ i := by
      rintro rfl
      exact absurd (hM.trans_lt hlt) (hlow.trans_lt hb).not_gt
    refine ⟨by omega, ?_, ?_⟩
    · by_contra hr
      have hx : x < 0 := by
        by_contra hx
        exact absurd (mul_nonneg (not_lt.mp hx) (pow_nonneg (not_lt.mp hr) i))
          (hlow.trans_lt hb).not_ge
      exact absurd (mul_nonpos_of_nonpos_of_nonneg hx.le (pow_nonneg (not_lt.mp hr) j))
        (hM.trans_lt hlt).not_ge
    · have hnext : cappedPower x r M (j + 1) ≤ M * r := by
        rw [cappedPower, hcap]
        exact min_le_left _ _
      exact (h (j + 1) (by omega)).trans_le hnext
  · intro h i hi
    rcases h i hi with hpower | ⟨h2, hr, hcap⟩
    · obtain ⟨θ, hnonneg, hle, heq⟩ := cappedPower_eq_mul hM x r i
      rw [heq]
      rcases le_or_gt 0 (x * r ^ i) with hpos | hneg
      · exact hb.trans_le (mul_nonneg hnonneg hpos)
      · exact hpower.trans_le (le_mul_of_le_one_left hneg.le hle)
    · obtain ⟨k, rfl⟩ := Nat.exists_eq_add_of_le' h2
      have hprev : M * r ≤ cappedPower x r M (k + 1) * r :=
        mul_le_mul_of_nonpos_right (cappedPower_succ_le x r M k) hr.le
      exact lt_min (hcap.trans_le hprev) (hb.trans_le hM)

theorem forall_cappedPower_lt_iff {b : K} (hb : 0 < b) (hM : 0 ≤ M) (hx : x < b) (n : ℕ) :
    (∀ i < n, cappedPower x r M i < b) ↔ M < b ∨ ∀ i < n, x * r ^ i < b := by
  constructor
  · intro h
    rw [or_iff_not_imp_left, not_lt]
    intro hlow i hi
    rcases cappedPower_eq_or x r M i with hpower | ⟨j, -, hji, hcap, -⟩
    · rw [← hpower]
      exact h i hi
    · exact absurd (h j (by omega)) (by rw [hcap]; exact hlow.not_gt)
  · rintro (hcap | hpower) i hi
    · cases i with
      | zero => exact hx
      | succ i => exact (cappedPower_succ_le x r M i).trans_lt hcap
    · obtain ⟨θ, hnonneg, hle, heq⟩ := cappedPower_eq_mul hM x r i
      rw [heq]
      rcases le_or_gt 0 (x * r ^ i) with hpos | hneg
      · exact (mul_le_of_le_one_left hpos hle).trans_lt (hpower i hi)
      · exact (mul_nonpos_of_nonneg_of_nonpos hnonneg hneg.le).trans_lt hb

end Numeration
