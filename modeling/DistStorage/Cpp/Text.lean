import Mathlib

/-!
# Strings of the C++ library

A `std::string` is a list of bytes. `find` and `rfind` give the first and the last
position of an element; each is known by the split of the list at that position.
`stoul` reads a number in base ten as `std::stoul` does: blanks and a sign may come
before the digits, what comes after them is not looked at, and a negative number wraps
around.
-/

namespace Cpp

section Find

variable {α : Type} [DecidableEq α]

def find (a : α) (s : List α) : Option ℕ := s.findIdx? (· = a)

def rfind (a : α) (s : List α) : Option ℕ :=
  (find a s.reverse).map fun i => s.length - 1 - i

theorem find_split {a : α} {pre : List α} (post : List α) (h : a ∉ pre) :
    find a (pre ++ a :: post) = some pre.length := by
  have hnone : pre.findIdx? (· = a) = none := by
    rw [List.findIdx?_eq_none_iff]
    intro b hb
    exact decide_eq_false fun hba => h (hba ▸ hb)
  rw [find, List.findIdx?_append, hnone, List.findIdx?_cons]
  simp

theorem exists_split_of_find {a : α} {s : List α} {i : ℕ} (h : find a s = some i) :
    ∃ pre post, s = pre ++ a :: post ∧ a ∉ pre ∧ i = pre.length := by
  induction s generalizing i with
  | nil => cases h
  | cons b s ih =>
      by_cases hb : b = a
      · refine ⟨[], s, by rw [hb]; rfl, List.not_mem_nil, ?_⟩
        rw [find, List.findIdx?_cons, if_pos (decide_eq_true hb)] at h
        exact (Option.some.inj h).symm
      · rw [find, List.findIdx?_cons, if_neg (by simpa using hb)] at h
        obtain ⟨j, hj, rfl⟩ := Option.map_eq_some_iff.mp h
        obtain ⟨pre, post, rfl, hpre, rfl⟩ := ih hj
        exact ⟨b :: pre, post, rfl, List.not_mem_cons_of_ne_of_not_mem (Ne.symm hb) hpre, rfl⟩

theorem rfind_split {a : α} (pre : List α) {post : List α} (h : a ∉ post) :
    rfind a (pre ++ a :: post) = some pre.length := by
  have hreverse : (pre ++ a :: post).reverse = post.reverse ++ a :: pre.reverse := by simp
  rw [rfind, hreverse, find_split pre.reverse (by simpa using h)]
  simp

theorem exists_split_of_rfind {a : α} {s : List α} {i : ℕ} (h : rfind a s = some i) :
    ∃ pre post, s = pre ++ a :: post ∧ a ∉ post ∧ i = pre.length := by
  obtain ⟨j, hj, rfl⟩ := Option.map_eq_some_iff.mp h
  obtain ⟨post, pre, hs, hpost, rfl⟩ := exists_split_of_find hj
  have hsplit : s = pre.reverse ++ a :: post.reverse := by
    simpa using congrArg List.reverse hs
  refine ⟨pre.reverse, post.reverse, hsplit, by simpa using hpost, ?_⟩
  rw [hsplit]
  simp

theorem split_inj {a : α} {pre pre' post post' : List α} (h : a ∉ pre) (h' : a ∉ pre')
    (heq : pre ++ a :: post = pre' ++ a :: post') : pre = pre' ∧ post = post' := by
  have hfind := find_split post h
  rw [heq, find_split post' h'] at hfind
  obtain ⟨hpre, hpost⟩ := List.append_inj heq (Option.some.inj hfind).symm
  exact ⟨hpre, (List.cons.inj hpost).2⟩

theorem rsplit_inj {a : α} {pre pre' post post' : List α} (h : a ∉ post) (h' : a ∉ post')
    (heq : pre ++ a :: post = pre' ++ a :: post') : pre = pre' ∧ post = post' := by
  have hfind := rfind_split pre h
  rw [heq, rfind_split pre' h'] at hfind
  obtain ⟨hpre, hpost⟩ := List.append_inj heq (Option.some.inj hfind).symm
  exact ⟨hpre, (List.cons.inj hpost).2⟩

end Find

section Numbers

/-- What a function that takes `c_str` sees of a string. -/
def cStr (s : List UInt8) : List UInt8 := s.takeWhile (· ≠ 0)

theorem cStr_of_not_mem {s : List UInt8} (h : 0 ∉ s) : cStr s = s := by
  refine List.takeWhile_eq_self_iff.mpr fun b hb => ?_
  exact decide_eq_true fun hzero => h (hzero ▸ hb)

def isBlank (b : UInt8) : Bool := b = 32 || (9 ≤ b && b ≤ 13)

def isDecimal (b : UInt8) : Bool := 48 ≤ b && b ≤ 57

/-- The number that decimal digits stand for. -/
def decimalValue (digits : List UInt8) : ℕ :=
  digits.foldl (fun n b => 10 * n + (b.toNat - 48)) 0

/-- `std::stoul` in base ten, with no value where it throws. -/
def stoul (s : List UInt8) : Option ℕ :=
  let text := s.dropWhile isBlank
  let negative := text.head? = some 45
  let signed := negative || text.head? = some 43
  let digits := (if signed then text.drop 1 else text).takeWhile isDecimal
  if digits = [] ∨ 2 ^ 64 ≤ decimalValue digits then none
  else some (if negative then (2 ^ 64 - decimalValue digits) % 2 ^ 64 else decimalValue digits)

example : stoul [32, 43, 56, 48, 120] = some 80 := by decide

theorem isDecimal_bounds {b : UInt8} (h : isDecimal b = true) : 48 ≤ b.toNat ∧ b.toNat ≤ 57 := by
  simpa [isDecimal, UInt8.le_iff_toNat_le] using h

/-- Digits alone are read as the number that they stand for. -/
theorem stoul_of_decimal {s : List UInt8} (hne : s ≠ []) (hs : ∀ b ∈ s, isDecimal b = true) :
    stoul s = if 2 ^ 64 ≤ decimalValue s then none else some (decimalValue s) := by
  obtain ⟨b, rest, rfl⟩ := List.exists_cons_of_ne_nil hne
  obtain ⟨hlow, hhigh⟩ := isDecimal_bounds (hs b List.mem_cons_self)
  have hblank : ¬isBlank b = true := by
    simp only [isBlank, Bool.or_eq_true, decide_eq_true_eq, Bool.and_eq_true,
      UInt8.le_iff_toNat_le, ← UInt8.toNat_inj]
    have h32 : (32 : UInt8).toNat = 32 := rfl
    have h13 : (13 : UInt8).toNat = 13 := rfl
    omega
  have hminus : b ≠ 45 := by
    rintro rfl
    exact absurd hlow (by decide)
  have hplus : b ≠ 43 := by
    rintro rfl
    exact absurd hlow (by decide)
  have htake : (b :: rest).takeWhile isDecimal = b :: rest := List.takeWhile_eq_self_iff.mpr hs
  simp only [stoul, List.dropWhile_cons_of_neg hblank, List.head?_cons, Option.some.injEq,
    hminus, hplus, decide_false, Bool.or_self, Bool.false_eq_true, if_false, htake,
    List.cons_ne_nil, false_or]

end Numbers

end Cpp
