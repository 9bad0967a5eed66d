import Mathlib

/-!
# Folds by an odd factor in rings where two is nilpotent

The integers modulo a power of two are a commutative ring in which two is
nilpotent, so the odd elements are units there. A loop
`acc := (acc + x + b) * m` over a list adds each entry with a power of `m` as its
weight. For an odd factor the weight of an entry that occurs several times is odd
exactly when the number of its occurrences is.
-/

namespace Numeration

section Units

variable {R : Type*} [CommRing R]

theorem isUnit_of_odd (h : IsNilpotent (2 : R)) {a : R} (ha : Odd a) : IsUnit a := by
  obtain ⟨k, rfl⟩ := ha
  exact (Commute.isNilpotent_mul_right (Commute.all 2 k) h).isUnit_add_one

/-- An odd factor can be cancelled. -/
theorem mul_right_inj_of_odd (h : IsNilpotent (2 : R)) {m : R} (hm : Odd m) {a b : R} :
    a * m = b * m ↔ a = b :=
  (isUnit_of_odd h hm).mul_left_inj

end Units

section Fold

variable {R ι : Type*} [CommRing R] (m b : R)

def hornerFold (v : ι → R) (start : R) (l : List ι) : R :=
  l.foldl (fun acc i => (acc + v i + b) * m) start

def hornerWeight [DecidableEq ι] (c : ι) : List ι → R
  | [] => 0
  | i :: l => (if i = c then m ^ (l.length + 1) else 0) + hornerWeight c l

/-- Changing the value of one entry and the start changes the result by their
weights. -/
theorem hornerFold_update [DecidableEq ι] (v : ι → R) (c : ι) (δ start ε : R) (l : List ι) :
    hornerFold m b (Function.update v c (v c + δ)) (start + ε) l =
      hornerFold m b v start l + ε * m ^ l.length + δ * hornerWeight m c l := by
  induction l generalizing start ε with
  | nil => simp [hornerFold, hornerWeight]
  | cons i l ih =>
      have hstep : (start + ε + Function.update v c (v c + δ) i + b) * m =
          (start + v i + b) * m + (ε + if i = c then δ else 0) * m := by
        by_cases hic : i = c
        · subst hic
          rw [Function.update_self, if_pos rfl]
          ring
        · rw [Function.update_of_ne hic, if_neg hic]
          ring
      change hornerFold m b _ ((start + ε + Function.update v c (v c + δ) i + b) * m) l =
        hornerFold m b v ((start + v i + b) * m) l + _ + _
      rw [hstep, ih, hornerWeight, List.length_cons, pow_succ]
      split_ifs <;> ring

/-- A change of one entry is lost when its weight takes it to zero. -/
theorem hornerFold_update_eq_iff [DecidableEq ι] (v : ι → R) (c : ι) (δ start : R) (l : List ι) :
    hornerFold m b (Function.update v c (v c + δ)) start l = hornerFold m b v start l ↔
      δ * hornerWeight m c l = 0 := by
  have hupdate := hornerFold_update m b v c δ start 0 l
  rw [add_zero, zero_mul, add_zero] at hupdate
  rw [hupdate, add_eq_left]

variable {m}

/-- The weight of an entry has the parity of its occurrences. -/
theorem hornerWeight_parity [DecidableEq ι] (hm : Odd m) (c : ι) (l : List ι) :
    (Odd (l.count c) → Odd (hornerWeight m c l)) ∧
      (¬Odd (l.count c) → Even (hornerWeight m c l)) := by
  induction l with
  | nil => simp [hornerWeight]
  | cons i l ih =>
      rw [hornerWeight]
      by_cases hic : i = c
      · subst hic
        have hpow : Odd (m ^ (l.length + 1)) := hm.pow
        rw [if_pos rfl, List.count_cons_self, Nat.odd_add_one, not_not]
        exact ⟨fun h => hpow.add_even (ih.2 h), fun h => hpow.add_odd (ih.1 h)⟩
      · rw [if_neg hic, zero_add, List.count_cons_of_ne hic]
        exact ih

end Fold

end Numeration
