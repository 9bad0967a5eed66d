import Mathlib

/-!
# Nested multiples

For factors `d 0, d 1, …` the stride `stride d s k` is the product of the
factors from `s` up to `k`. The multiples of the strides form a chain of nested
sets, coarser for smaller `s`, and every positive number has a depth in that
chain: the least `s` whose stride divides it.

The second half counts: among `1, …, r` there are `r - r / d` numbers that `d`
does not divide, and that count grows strictly at each of them.
-/

namespace Numeration

/-- The product of the factors `d s, …, d (k - 1)`. -/
def stride (d : ℕ → ℕ) (s k : ℕ) : ℕ := ∏ i ∈ Finset.Ico s k, d i

@[simp] theorem stride_self (d : ℕ → ℕ) (k : ℕ) : stride d k k = 1 := by
  simp [stride]

theorem stride_succ_right (d : ℕ → ℕ) {s k : ℕ} (h : s ≤ k) :
    stride d s (k + 1) = stride d s k * d k :=
  Finset.prod_Ico_succ_top h _

theorem stride_succ_left (d : ℕ → ℕ) {s k : ℕ} (h : s < k) :
    stride d s k = d s * stride d (s + 1) k :=
  Finset.prod_eq_prod_Ico_succ_bot h _

theorem stride_mul_stride (d : ℕ → ℕ) {s t k : ℕ} (hst : s ≤ t) (htk : t ≤ k) :
    stride d s t * stride d t k = stride d s k :=
  Finset.prod_Ico_consecutive _ hst htk

theorem stride_pos {d : ℕ → ℕ} (hd : ∀ i, 0 < d i) (s k : ℕ) : 0 < stride d s k :=
  Finset.prod_pos fun i _ => hd i

theorem stride_dvd (d : ℕ → ℕ) {s t k : ℕ} (hst : s ≤ t) (htk : t ≤ k) :
    stride d t k ∣ stride d s k :=
  ⟨stride d s t, by rw [← stride_mul_stride d hst htk, Nat.mul_comm]⟩

/-- Dividing by a factor and then by the stride below it is dividing by the
longer stride. -/
theorem div_div_stride (d : ℕ → ℕ) (n : ℕ) {s k : ℕ} (h : s ≤ k) :
    n / d k / stride d s k = n / stride d s (k + 1) := by
  rw [Nat.div_div_eq_div_mul, stride_succ_right d h, Nat.mul_comm]

theorem stride_dvd_mul_iff {d : ℕ → ℕ} (hd : ∀ i, 0 < d i) {s t k r : ℕ}
    (hsk : s ≤ k) (htk : t ≤ k) (hr : 1 ≤ s → ¬ d (s - 1) ∣ r) :
    stride d t k ∣ r * stride d s k ↔ s ≤ t := by
  constructor
  · intro hdvd
    by_contra hlt
    have hts : t < s := not_le.mp hlt
    obtain ⟨s, rfl⟩ : ∃ u, s = u + 1 := ⟨s - 1, by omega⟩
    have hsplit : stride d t k = stride d t s * d s * stride d (s + 1) k := by
      rw [← stride_mul_stride d (by omega : t ≤ s) (by omega : s ≤ k),
        stride_succ_left d (by omega : s < k), Nat.mul_assoc]
    rw [hsplit] at hdvd
    have hfactor : stride d t s * d s ∣ r :=
      Nat.dvd_of_mul_dvd_mul_right (stride_pos hd (s + 1) k) hdvd
    exact hr (by omega) ((Dvd.intro_left _ rfl).trans hfactor)
  · intro hst
    exact (stride_dvd d hst htk).mul_left r

/-- The numbers up to `r` that `d` does not divide are counted without gaps. -/
theorem sub_div_mono {d r r' : ℕ} (h : r ≤ r') : r - r / d ≤ r' - r' / d := by
  rcases Nat.eq_zero_or_pos d with rfl | hd
  · simpa using h
  · obtain ⟨k, rfl⟩ := Nat.exists_eq_add_of_le h
    have hle : (r + k) / d ≤ r / d + k := by
      rw [Nat.div_le_iff_le_mul_add_pred hd]
      have hr := Nat.lt_div_mul_add (a := r) hd
      have hk : k ≤ d * k := Nat.le_mul_of_pos_left k hd
      rw [Nat.mul_add, Nat.mul_comm d (r / d)]
      omega
    have := Nat.div_le_self r d
    omega

theorem sub_div_lt {d r r' : ℕ} (h : r < r') (hr' : ¬ d ∣ r') :
    r - r / d < r' - r' / d := by
  obtain ⟨m, rfl⟩ : ∃ m, r' = m + 1 := ⟨r' - 1, by omega⟩
  have hdiv : (m + 1) / d = m / d := Nat.succ_div_of_not_dvd hr'
  have hmono := sub_div_mono (d := d) (Nat.lt_succ_iff.mp h)
  have hle := Nat.div_le_self m d
  rw [hdiv]
  omega

theorem one_le_sub_div {d r : ℕ} (hr : ¬ d ∣ r) : 1 ≤ r - r / d := by
  have hpos : 0 < r := Nat.pos_of_ne_zero fun h => hr (h ▸ dvd_zero d)
  have := sub_div_lt hpos hr
  omega

/-- Putting back the quotient of what is left gives at most the number. -/
theorem sub_div_add_div_le (r d : ℕ) : (r - r / d) + (r - r / d) / d ≤ r := by
  have hle := Nat.div_le_self r d
  have hdiv : (r - r / d) / d ≤ r / d := Nat.div_le_div_right (Nat.sub_le _ _)
  omega

theorem sub_div_add_div_eq_iff {r d : ℕ} (hd : 0 < d) :
    (r - r / d) + (r - r / d) / d = r ↔ r / d ≤ r % d := by
  have hsplit := Nat.div_add_mod r d
  have hmod := Nat.mod_lt r hd
  have hle := Nat.div_le_self r d
  rw [Nat.mul_comm] at hsplit
  constructor
  · intro heq
    have hdiv : (r - r / d) / d = r / d := by omega
    have hmul := Nat.div_mul_le_self (r - r / d) d
    rw [hdiv] at hmul
    omega
  · intro hq
    have hdiv : (r - r / d) / d = r / d := by
      rw [Nat.div_eq_iff hd]
      generalize r / d = q at hsplit hq hle ⊢
      omega
    omega

/-- Strictly between two consecutive multiples of `d * s` lie `d - 1` multiples
of `s`. -/
theorem card_dvd_between {d s : ℕ} (hd : 0 < d) (hs : 0 < s) (a : ℕ) :
    ((Finset.Ioo (a * (d * s)) ((a + 1) * (d * s))).filter (s ∣ ·)).card = d - 1 := by
  have himage : (Finset.Ioo (a * (d * s)) ((a + 1) * (d * s))).filter (s ∣ ·) =
      (Finset.range (d - 1)).image fun q => (a * d + q + 1) * s := by
    ext m
    simp only [Finset.mem_filter, Finset.mem_Ioo, Finset.mem_image, Finset.mem_range]
    constructor
    · rintro ⟨⟨hlo, hhi⟩, q, rfl⟩
      have hlo' : a * d < q := by
        rw [← Nat.mul_assoc, Nat.mul_comm s q] at hlo
        exact Nat.lt_of_mul_lt_mul_right hlo
      have hhi' : q < (a + 1) * d := by
        rw [← Nat.mul_assoc, Nat.mul_comm s q] at hhi
        exact Nat.lt_of_mul_lt_mul_right hhi
      rw [Nat.add_mul, Nat.one_mul] at hhi'
      refine ⟨q - a * d - 1, by omega, ?_⟩
      rw [show a * d + (q - a * d - 1) + 1 = q by omega, Nat.mul_comm]
    · rintro ⟨q, hq, rfl⟩
      refine ⟨⟨?_, ?_⟩, Dvd.intro_left _ rfl⟩
      · rw [← Nat.mul_assoc]
        exact Nat.mul_lt_mul_of_pos_right (by omega) hs
      · rw [← Nat.mul_assoc, Nat.add_mul a 1 d, Nat.one_mul]
        exact Nat.mul_lt_mul_of_pos_right (by omega) hs
  rw [himage, Finset.card_image_of_injective, Finset.card_range]
  intro q q' h
  have := Nat.eq_of_mul_eq_mul_right hs h
  omega

end Numeration
