import DistStorage.Storage.Block

/-!
# The ranges of block copies

Both copies of a block cut the number of elements off at the end of the block.
The test for that adds the offset and the number, and the sum is reduced to 64
bits: when it wraps, the number is not cut off.
-/

namespace DistStorage

namespace Storage

open Cpp

/-- The number of elements from an offset on, as many as the block has. -/
def copyCount (n offset dataCount : ℕ) : ℕ :=
  if offset ≤ n then min dataCount (n - offset) else 0

/-- Exactly the elements of the range are copied out. -/
def ReadsRange (data : Bytes) (elemSize n offset dataCount : ℕ) : Prop :=
  let count := copyCount n offset dataCount
  readData data elemSize n offset dataCount =
    some (count, (data.drop (offset * elemSize)).take (count * elemSize))

/-- Exactly the elements of the range are overwritten. -/
def WritesRange (inData : Bytes) (offset dataCount : ℕ) (data : Bytes) (elemSize n : ℕ) : Prop :=
  let count := copyCount n offset dataCount
  ∃ block, writeData inData offset dataCount data elemSize n false = some (.ok (count, block)) ∧
    ∀ k, block[k]? =
      if offset * elemSize ≤ k ∧ k < (offset + count) * elemSize then
        inData[k - offset * elemSize]?
      else data[k]?

section Range

variable {data inData : Bytes} {elemSize n offset dataCount : ℕ}

theorem copyCount_of_le (h : offset ≤ n) :
    copyCount n offset dataCount = min dataCount (n - offset) := if_pos h

theorem copyCount_of_lt (h : n < offset) : copyCount n offset dataCount = 0 :=
  if_neg (by omega)

theorem add_copyCount_le (h : offset ≤ n) : offset + copyCount n offset dataCount ≤ n := by
  rw [copyCount_of_le h]
  omega

/-- A sum that does not wrap cuts the number off. -/
theorem clamp_eq (hoffset : offset ≤ n) (hsum : offset + dataCount < 2 ^ 64) :
    (if sizeT (offset + dataCount) > n then n - offset else dataCount) =
      copyCount n offset dataCount := by
  rw [sizeT_of_lt hsum, copyCount_of_le hoffset]
  split_ifs <;> omega

/-- A sum that wraps is below the offset, and so is never past the end. -/
theorem clamp_eq_of_wrap (hoffset : offset ≤ n) (hcount : dataCount < 2 ^ 64)
    (hn : n < 2 ^ 64) (hsum : 2 ^ 64 ≤ offset + dataCount) :
    sizeT (offset + dataCount) < offset ∧
      (if sizeT (offset + dataCount) > n then n - offset else dataCount) = dataCount := by
  have hlt : sizeT (offset + dataCount) < offset := by
    unfold sizeT
    omega
  exact ⟨hlt, if_neg (by omega)⟩

theorem getElem?_replaced {first count : ℕ} (hin : count ≤ inData.length)
    (hdata : first + count ≤ data.length) (k : ℕ) :
    (data.take first ++ inData.take count ++ data.drop (first + count))[k]? =
      if first ≤ k ∧ k < first + count then inData[k - first]? else data[k]? := by
  have hfirst : (data.take first).length = first := by
    rw [List.length_take]
    omega
  have hfront : (data.take first ++ inData.take count).length = first + count := by
    rw [List.length_append, hfirst, List.length_take]
    omega
  by_cases hbefore : k < first
  · rw [if_neg (by omega), List.getElem?_append_left (by omega),
      List.getElem?_append_left (by omega), List.getElem?_take_of_lt hbefore]
  · by_cases hmiddle : k < first + count
    · rw [if_pos ⟨by omega, hmiddle⟩, List.getElem?_append_left (by omega),
        List.getElem?_append_right (by omega), hfirst, List.getElem?_take_of_lt (by omega)]
    · rw [if_neg (by omega), List.getElem?_append_right (by omega), hfront,
        List.getElem?_drop, Nat.add_sub_cancel' (by omega)]

end Range

section Copies

variable {data inData : Bytes} {elemSize n offset dataCount : ℕ}
  (helem : 1 ≤ elemSize) (hsize : n * elemSize < 2 ^ 64) (hdata : data.length = n * elemSize)

include hsize hdata

theorem readsRange_of_sum (hsum : n < offset ∨ offset + dataCount < 2 ^ 64) :
    ReadsRange data elemSize n offset dataCount := by
  unfold ReadsRange
  rw [readData]
  rcases lt_or_ge n offset with hlt | hoffset
  · rw [if_pos hlt, copyCount_of_lt hlt]
    simp
  · rw [if_neg (by omega), clamp_eq hoffset (hsum.resolve_left (by omega))]
    have hend : offset + copyCount n offset dataCount ≤ n := add_copyCount_le hoffset
    set count := copyCount n offset dataCount
    have hend' : (offset + count) * elemSize ≤ n * elemSize := Nat.mul_le_mul_right _ hend
    by_cases hzero : count = 0
    · simp [hzero]
    · have hn : offset + count < 2 ^ 64 := by
        have := hsum.resolve_left (by omega)
        have : count ≤ dataCount := by
          simp only [count, copyCount_of_le hoffset]
          omega
        omega
      rw [Nat.add_mul] at hend'
      rw [if_neg hzero, sizeT_of_lt hn, sizeT_of_lt (by omega),
        sizeT_of_lt (show (offset + count) * elemSize < 2 ^ 64 by rw [Nat.add_mul]; omega)]
      simp only [Nat.add_mul, Nat.add_sub_cancel_left]
      rw [if_pos ⟨by omega, by omega⟩]

theorem writesRange_of_sum (hsum : n < offset ∨ offset + dataCount < 2 ^ 64)
    (hin : copyCount n offset dataCount * elemSize ≤ inData.length) :
    WritesRange inData offset dataCount data elemSize n := by
  unfold WritesRange
  rw [writeData]
  rcases lt_or_ge n offset with hlt | hoffset
  · rw [if_pos hlt, copyCount_of_lt hlt]
    exact ⟨data, rfl, fun k => by rw [if_neg (by rw [Nat.add_zero]; omega)]⟩
  · rw [if_neg (by omega), clamp_eq hoffset (hsum.resolve_left (by omega))]
    have hend : offset + copyCount n offset dataCount ≤ n := add_copyCount_le hoffset
    set count := copyCount n offset dataCount
    have hend' : (offset + count) * elemSize ≤ n * elemSize := Nat.mul_le_mul_right _ hend
    simp only [Nat.add_mul] at hend' ⊢
    by_cases hzero : count = 0
    · rw [if_pos hzero, hzero]
      exact ⟨data, rfl, fun k => by rw [if_neg (by omega)]⟩
    · rw [if_neg hzero, if_neg (by simp), sizeT_of_lt (show offset * elemSize < 2 ^ 64 by omega),
        sizeT_of_lt (show count * elemSize < 2 ^ 64 by omega)]
      exact ⟨_, if_pos ⟨hin, by omega⟩, getElem?_replaced hin (by omega)⟩

omit hdata in
include helem in
theorem size_lt_of_bytes : n < 2 ^ 64 :=
  (Nat.le_mul_of_pos_right n helem).trans_lt hsize

include helem

omit hdata in
/-- With a wrapped sum the range to read ends before it starts. -/
theorem not_readsRange_of_wrap (hoffset : offset ≤ n) (hcount : dataCount < 2 ^ 64)
    (hsum : 2 ^ 64 ≤ offset + dataCount) : ¬ReadsRange data elemSize n offset dataCount := by
  obtain ⟨hwrap, hclamp⟩ :=
    clamp_eq_of_wrap hoffset hcount (size_lt_of_bytes helem hsize) hsum
  have hbytes : offset * elemSize ≤ n * elemSize := Nat.mul_le_mul_right _ hoffset
  have hends : sizeT (offset + dataCount) * elemSize < offset * elemSize :=
    Nat.mul_lt_mul_of_pos_right hwrap helem
  have hn := size_lt_of_bytes helem hsize
  unfold ReadsRange
  rw [readData, if_neg (by omega), hclamp, if_neg (by omega), sizeT_of_lt (x := offset * elemSize)
    (by omega), sizeT_of_lt (x := sizeT (offset + dataCount) * elemSize) (by omega),
    if_neg (by omega)]
  exact Option.some_ne_none _ ∘ Eq.symm

omit hdata in
/-- With a wrapped sum the number written is one the block does not have. -/
theorem not_writesRange_of_wrap (hoffset : offset ≤ n) (hcount : dataCount < 2 ^ 64)
    (hsum : 2 ^ 64 ≤ offset + dataCount) :
    ¬WritesRange inData offset dataCount data elemSize n := by
  have hn := size_lt_of_bytes helem hsize
  obtain ⟨-, hclamp⟩ := clamp_eq_of_wrap hoffset hcount hn hsum
  rintro ⟨block, hwrite, -⟩
  rw [writeData, if_neg (by omega), hclamp, if_neg (by omega), if_neg (by simp),
    Option.ite_none_right_eq_some] at hwrite
  have hcounts : dataCount = copyCount n offset dataCount :=
    congrArg Prod.fst (Except.ok.inj (Option.some.inj hwrite.2))
  rw [copyCount_of_le hoffset] at hcounts
  omega

/-- Both copies are of the range exactly when the offset is past the end or the
sum of the offset and the number does not wrap. -/
theorem copiesRange_iff (hcount : dataCount < 2 ^ 64)
    (hin : copyCount n offset dataCount * elemSize ≤ inData.length) :
    (ReadsRange data elemSize n offset dataCount ↔
        n < offset ∨ offset + dataCount < 2 ^ 64) ∧
      (WritesRange inData offset dataCount data elemSize n ↔
        n < offset ∨ offset + dataCount < 2 ^ 64) := by
  constructor
  · refine ⟨fun h => ?_, readsRange_of_sum hsize hdata⟩
    by_contra hnot
    exact not_readsRange_of_wrap helem hsize (by omega) hcount (by omega) h
  · refine ⟨fun h => ?_, fun hsum => writesRange_of_sum hsize hdata hsum hin⟩
    by_contra hnot
    exact not_writesRange_of_wrap helem hsize (by omega) hcount (by omega) h

end Copies

/-- Two of the three elements of a block from the second one on. -/
theorem copiesRange_sample :
    ReadsRange [1, 2, 3, 4, 5, 6] 2 3 1 9 ∧ WritesRange [7, 8, 9, 10] 1 2 [1, 2, 3, 4, 5, 6] 2 3 :=
  have hin : copyCount 3 1 9 * 2 ≤ ([7, 8, 9, 10] : Bytes).length := by decide
  ⟨(copiesRange_iff (by decide) (by decide) rfl (by decide) hin).1.mpr (by decide),
    (copiesRange_iff (by decide) (by decide) rfl (by decide) (by decide)).2.mpr (by decide)⟩

/-- The greatest number of elements, from the second one on: the copy is undefined
instead of being of the two elements that are there. -/
theorem not_readsRange_three_elements :
    readData [1, 2, 3, 4, 5, 6] 2 3 1 (2 ^ 64 - 1) = none ∧
      ¬ReadsRange [1, 2, 3, 4, 5, 6] 2 3 1 (2 ^ 64 - 1) := by
  have hnone : readData [1, 2, 3, 4, 5, 6] 2 3 1 (2 ^ 64 - 1) = none := by decide
  refine ⟨hnone, fun h => ?_⟩
  unfold ReadsRange at h
  rw [hnone] at h
  cases h

end Storage

end DistStorage
