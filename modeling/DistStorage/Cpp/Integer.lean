import Mathlib

/-!
# Fixed width integers

A `size_t` is a natural number and every result that may exceed 64 bits is
reduced modulo `2 ^ 64`; an `int` is an integer between `-2 ^ 31` and
`2 ^ 31 - 1`. The two conversions between them keep the value modulo the width
of the target. Adding to an `int` beyond its range is undefined in the source,
so the increment is partial.
-/

namespace Cpp

/-- Reduce a result to a `size_t`. -/
def sizeT (x : ℕ) : ℕ := x % 2 ^ 64

def intOfSize (x : ℕ) : ℤ := Int.bmod x (2 ^ 32)

def sizeOfInt (x : ℤ) : ℕ := (x % 2 ^ 64).toNat

def intMax : ℤ := 2 ^ 31 - 1

/-- Add one to an `int`, undefined at the greatest one. -/
def intSucc (x : ℤ) : Option ℤ :=
  if x = intMax then none else some (x + 1)

theorem sizeT_of_lt {x : ℕ} (h : x < 2 ^ 64) : sizeT x = x :=
  Nat.mod_eq_of_lt h

theorem sizeOfInt_natCast {x : ℕ} (h : x < 2 ^ 64) : sizeOfInt x = x := by
  unfold sizeOfInt
  omega

theorem intOfSize_of_lt {x : ℕ} (h : x < 2 ^ 31) : intOfSize x = x := by
  unfold intOfSize
  rw [Int.bmod_def]
  omega

theorem intSucc_natCast {x : ℕ} (h : x + 1 < 2 ^ 31) :
    intSucc x = some ((x + 1 : ℕ) : ℤ) := by
  rw [intSucc, if_neg (by unfold intMax; omega)]
  rfl

theorem intSucc_natCast_last {x : ℕ} (h : x < 2 ^ 31) (hlast : ¬x + 1 < 2 ^ 31) :
    intSucc x = none := by
  rw [intSucc, if_pos (by unfold intMax; omega)]

end Cpp
