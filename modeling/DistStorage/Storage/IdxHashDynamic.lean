import DistStorage.Cpp.Bytes
import DistStorage.Cpp.Integer
import DistStorage.Cpp.Logged

/-!
# The hashes of the hash index

The three hashes of a sequence go over it with a result of type
`hash_compute_t`, which each round reduces by the modulus. A round takes a result
below `2 ^ 32` to one below the modulus without leaving 64 bits. The constant a
loop starts from is not reduced, so it is returned as it is for an empty
sequence, and the `int` that counts the rounds limits the length.
-/

namespace DistStorage

namespace Storage

open Cpp

abbrev HashT := UInt32

/-- A sum or product on `hash_compute_t`: the exact number is noted, and 64 bits
of it are kept. -/
def compute (x : ℕ) : Logged ℕ ℕ := do
  Logged.note x
  pure (x % 2 ^ 64)

/-- `hash_fast` of a value. -/
def hashFast (mod : HashT) (value : UInt64) : Logged ℕ HashT :=
  pure (UInt32.ofNat (value.toNat % mod.toNat))

def hashRounds {α : Type} (round : ℕ → ℤ → α → Logged ℕ ℕ) : ℕ → ℤ → List α → Logged ℕ ℕ
  | result, _, [] => pure result
  | result, it, a :: data => do
      let result ← round result it a
      let it ← Logged.ofOption (intSucc it)
      hashRounds round result it data

/-- A hash of a sequence, from the constant `start`. -/
def hashData {α : Type} (round : ℕ → ℤ → α → Logged ℕ ℕ) (start : ℕ) (data : List α) :
    Logged ℕ HashT := do
  let result ← hashRounds round start 0 data
  pure (UInt32.ofNat result)

def bytesRound (mod : HashT) (result : ℕ) (_it : ℤ) (b : UInt8) : Logged ℕ ℕ := do
  let product ← compute (result * 13)
  let sum ← compute (product + b.toNat)
  let sum ← compute (sum + 7)
  pure (sum % mod.toNat)

def hashesRound (mod : HashT) (result : ℕ) (it : ℤ) (hash : HashT) : Logged ℕ ℕ := do
  let product ← compute (result * 127)
  let sum ← compute (product % mod.toNat + hash.toNat)
  let sum ← compute (sum + sizeOfInt it)
  let sum ← compute (sum + 7)
  pure (sum % mod.toNat)

def setRound (mod : HashT) (result : ℕ) (_it : ℤ) (hash : HashT) : Logged ℕ ℕ := do
  let product ← compute (result * hash.toNat)
  pure (product % mod.toNat)

def hashFastBytes (mod : HashT) (data : Bytes) : Logged ℕ HashT :=
  hashData (bytesRound mod) 127 data

def hashFastHashes (mod : HashT) (data : List HashT) : Logged ℕ HashT :=
  hashData (hashesRound mod) 191 data

def hashFastSet (mod : HashT) (data : List HashT) : Logged ℕ HashT :=
  hashData (setRound mod) 1 data

/-- A bucket of a table with `mod` buckets, computed within 64 bits. -/
def BucketIndex (mod : HashT) (hash : Logged ℕ HashT) : Prop :=
  hash.Ensures (· < 2 ^ 64) (· < mod)

section Rounds

/-- A round reduces its result, as long as the result before it is one. -/
def Reduces {α : Type} (mod : HashT) (round : ℕ → ℤ → α → Logged ℕ ℕ) : Prop :=
  ∀ (result k : ℕ) (a : α), result < 2 ^ 32 → k < 2 ^ 31 →
    (round result k a).Ensures (· < 2 ^ 64) (· < mod.toNat)

theorem compute_ensures {x : ℕ} (h : x < 2 ^ 64) :
    (compute x).Ensures (· < 2 ^ 64) (· = x) := by
  have hnote : (Logged.note x).Ensures (· < 2 ^ 64) fun _ => True := .note h
  exact hnote.bind fun _ _ => .pure (Nat.mod_eq_of_lt h)

variable {mod : HashT} (hmod : 0 < mod)

include hmod

theorem toNat_pos : 0 < mod.toNat := hmod

theorem bytesRound_reduces : Reduces mod (bytesRound mod) := by
  intro result k b hresult hk
  have hb := b.toNat_lt
  refine (compute_ensures (by omega)).bind fun product hproduct => ?_
  refine (compute_ensures (by omega)).bind fun sum hsum => ?_
  refine (compute_ensures (by omega)).bind fun sum hsum => ?_
  exact .pure (Nat.mod_lt _ (toNat_pos hmod))

theorem hashesRound_reduces : Reduces mod (hashesRound mod) := by
  intro result k hash hresult hk
  have hhash := hash.toNat_lt
  have hlt := mod.toNat_lt
  refine (compute_ensures (by omega)).bind fun product hproduct => ?_
  have hreduced := Nat.mod_lt product (toNat_pos hmod)
  refine (compute_ensures (by omega)).bind fun sum hsum => ?_
  rw [sizeOfInt_natCast (by omega)]
  refine (compute_ensures (by omega)).bind fun sum hsum => ?_
  refine (compute_ensures (by omega)).bind fun sum hsum => ?_
  exact .pure (Nat.mod_lt _ (toNat_pos hmod))

theorem setRound_reduces : Reduces mod (setRound mod) := by
  intro result k hash hresult hk
  have hproduct : result * hash.toNat < 2 ^ 32 * 2 ^ 32 :=
    Nat.mul_lt_mul'' hresult hash.toNat_lt
  refine (compute_ensures (by omega)).bind fun product _ => ?_
  exact .pure (Nat.mod_lt _ (toNat_pos hmod))

end Rounds

section Loop

variable {α : Type} {mod : HashT} {round : ℕ → ℤ → α → Logged ℕ ℕ}

/-- The invariant of a loop is that its result has 32 bits. Every round ends with
a result below the modulus, and so does a loop with rounds. -/
theorem hashRounds_ensures (hround : Reduces mod round) (data : List α) (result k : ℕ)
    (hresult : result < 2 ^ 32) (hk : k + data.length < 2 ^ 31) :
    (hashRounds round result k data).Ensures (· < 2 ^ 64)
      fun r => if data = [] then r = result else r < mod.toNat := by
  induction data generalizing result k with
  | nil => exact .pure (by rw [if_pos rfl])
  | cons a data ih =>
      rw [List.length_cons] at hk
      refine (hround result k a hresult (by omega)).bind fun r hr => ?_
      have hr32 : r < 2 ^ 32 := hr.trans mod.toNat_lt
      refine (Logged.Ensures.ofOption (Q := fun it => it = ((k + 1 : ℕ) : ℤ))
        (intSucc_natCast (by omega)) rfl).bind fun it hit => ?_
      rw [hit]
      refine (ih r (k + 1) hr32 (by omega)).mono fun r' hr' => ?_
      rw [if_neg (by simp)]
      split_ifs at hr' with hnil
      · exact hr'.trans_lt hr
      · exact hr'

theorem hashRounds_value_of_long (data : List α) (result k : ℕ) (hk : k < 2 ^ 31)
    (hlong : 2 ^ 31 ≤ k + data.length) : (hashRounds round result k data).value = none := by
  induction data generalizing result k with
  | nil =>
      rw [List.length_nil] at hlong
      omega
  | cons a data ih =>
      rw [List.length_cons] at hlong
      rw [hashRounds, Logged.value_bind, Option.bind_eq_none_iff]
      intro r _
      rw [Logged.value_bind]
      by_cases hlast : k + 1 < 2 ^ 31
      · rw [Logged.ofOption, intSucc_natCast hlast]
        exact ih r (k + 1) hlast (by omega)
      · rw [Logged.ofOption, intSucc_natCast_last hk hlast]
        rfl

/-- A hash of a sequence is a bucket when a round is made or the constant is one
already, and the rounds can be counted. -/
theorem hashData_bucketIndex_iff (hround : Reduces mod round) {start : ℕ}
    (hstart : start < 2 ^ 32) (data : List α) :
    BucketIndex mod (hashData round start data) ↔
      data.length < 2 ^ 31 ∧ (data ≠ [] ∨ start < mod.toNat) := by
  have hofNat : ∀ r : ℕ, r < 2 ^ 32 → (UInt32.ofNat r < mod ↔ r < mod.toNat) := by
    intro r hr
    rw [UInt32.lt_iff_toNat_lt, UInt32.toNat_ofNat_of_lt' hr]
  by_cases hlong : data.length < 2 ^ 31
  · have hrounds := hashRounds_ensures hround data start 0 hstart (by omega)
    rw [and_iff_right hlong]
    constructor
    · rintro ⟨-, hash, hvalue, hlt⟩
      by_contra hnot
      obtain ⟨hnil, hge⟩ := not_or.mp hnot
      rw [not_not] at hnil
      subst hnil
      obtain rfl : UInt32.ofNat start = hash := Option.some.inj hvalue
      exact hge ((hofNat start hstart).mp hlt)
    · intro hor
      refine hrounds.bind fun r hr => .pure ?_
      split_ifs at hr with hnil
      · subst hr
        exact (hofNat r hstart).mpr (hor.resolve_left (not_not_intro hnil))
      · exact (hofNat r (hr.trans mod.toNat_lt)).mpr hr
  · have hnone : (hashRounds round start ((0 : ℕ) : ℤ) data).value = none :=
      hashRounds_value_of_long data start 0 (by omega) (by omega)
    refine iff_of_false ?_ fun h => hlong h.1
    rintro ⟨-, hash, hvalue, -⟩
    rw [Nat.cast_zero] at hnone
    rw [hashData, Logged.value_bind, hnone] at hvalue
    cases hvalue

end Loop

/-- The hash of a value is always a bucket. The others are for a sequence with an
element, or a modulus above the constant they start from, whose length is in the
range of an `int`. -/
theorem hashFast_bucketIndex_iff (mod : HashT) (hmod : 0 < mod) (value : UInt64)
    (data : Bytes) (hashes : List HashT) :
    BucketIndex mod (hashFast mod value) ∧
      (BucketIndex mod (hashFastBytes mod data) ↔
        data.length < 2 ^ 31 ∧ (data ≠ [] ∨ 127 < mod.toNat)) ∧
      (BucketIndex mod (hashFastHashes mod hashes) ↔
        hashes.length < 2 ^ 31 ∧ (hashes ≠ [] ∨ 191 < mod.toNat)) ∧
      (BucketIndex mod (hashFastSet mod hashes) ↔
        hashes.length < 2 ^ 31 ∧ (hashes ≠ [] ∨ 1 < mod.toNat)) := by
  refine ⟨.pure ?_, hashData_bucketIndex_iff (bytesRound_reduces hmod) (by norm_num) data,
    hashData_bucketIndex_iff (hashesRound_reduces hmod) (by norm_num) hashes,
    hashData_bucketIndex_iff (setRound_reduces hmod) (by norm_num) hashes⟩
  have hlt := Nat.mod_lt value.toNat (toNat_pos hmod)
  rw [UInt32.lt_iff_toNat_lt, UInt32.toNat_ofNat_of_lt' (hlt.trans mod.toNat_lt)]
  exact hlt

/-- A table of a hundred buckets. -/
theorem hashFast_bucketIndex_sample :
    BucketIndex 100 (hashFast 100 12345) ∧ BucketIndex 100 (hashFastBytes 100 [1, 2, 3]) ∧
      ¬BucketIndex 100 (hashFastBytes 100 []) :=
  have h := hashFast_bucketIndex_iff 100 (by decide) 12345
  ⟨(h [] []).1, (h [1, 2, 3] []).2.1.mpr (by decide), fun hb => by
    have hcond := (h [] []).2.1.mp hb
    revert hcond
    decide⟩

/-- The hash of no hashes is the bucket 191 of a table with a hundred buckets. -/
theorem hashFastHashes_nil_not_bucketIndex :
    (hashFastHashes 100 []).value = some 191 ∧ ¬BucketIndex 100 (hashFastHashes 100 []) := by
  refine ⟨rfl, ?_⟩
  rintro ⟨-, hash, hvalue, hlt⟩
  obtain rfl : (191 : HashT) = hash := Option.some.inj hvalue
  revert hlt
  decide

section Product

variable {mod : HashT}

def productMod (mod : HashT) (hashes : List HashT) : ℕ :=
  (hashes.map UInt32.toNat).prod % mod.toNat

theorem productMod_perm {hashes hashes' : List HashT} (h : hashes.Perm hashes') :
    productMod mod hashes = productMod mod hashes' := by
  rw [productMod, productMod, (h.map UInt32.toNat).prod_eq]

theorem setRound_ensures {result k : ℕ} (hash : HashT) (hresult : result < 2 ^ 32) :
    (setRound mod result k hash).Ensures (· < 2 ^ 64)
      (· = result * hash.toNat % mod.toNat) := by
  have hproduct : result * hash.toNat < 2 ^ 32 * 2 ^ 32 :=
    Nat.mul_lt_mul'' hresult hash.toNat_lt
  refine (compute_ensures (by omega)).bind fun product hproduct => .pure ?_
  rw [hproduct]

/-- After every round the result is congruent to the start times the hashes so far, so
reducing early changes nothing. -/
theorem hashRounds_setRound (hmod : 0 < mod) (hashes : List HashT) (result k : ℕ)
    (hresult : result < mod.toNat) (hk : k + hashes.length < 2 ^ 31) :
    (hashRounds (setRound mod) result k hashes).Ensures (· < 2 ^ 64)
      (· = result * (hashes.map UInt32.toNat).prod % mod.toNat) := by
  induction hashes generalizing result k with
  | nil =>
      refine .pure ?_
      rw [List.map_nil, List.prod_nil, mul_one, Nat.mod_eq_of_lt hresult]
  | cons hash hashes ih =>
      rw [List.length_cons] at hk
      refine (setRound_ensures hash (hresult.trans mod.toNat_lt)).bind fun r hr => ?_
      refine (Logged.Ensures.ofOption (Q := fun it => it = ((k + 1 : ℕ) : ℤ))
        (intSucc_natCast (by omega)) rfl).bind fun it hit => ?_
      have hlt : r < mod.toNat := hr ▸ Nat.mod_lt _ (toNat_pos hmod)
      rw [hit]
      refine (ih r (k + 1) hlt (by omega)).mono fun r' hr' => ?_
      calc r' = r * (hashes.map UInt32.toNat).prod % mod.toNat := hr'
        _ = result * hash.toNat * (hashes.map UInt32.toNat).prod % mod.toNat := by
            rw [hr, Nat.mod_mul_mod]
        _ = result * ((hash :: hashes).map UInt32.toNat).prod % mod.toNat := by
            rw [List.map_cons, List.prod_cons, mul_assoc]

end Product

/-- The call returns the product of the hashes, and so does a call with the hashes in
another order. -/
structure IsSetProduct (mod : HashT) (hashes : List HashT) : Prop where
  product : ∃ hash, (hashFastSet mod hashes).value = some hash ∧
    hash.toNat = productMod mod hashes
  perm : ∀ hashes', hashes.Perm hashes' →
    (hashFastSet mod hashes').value = (hashFastSet mod hashes).value

/-- Reduced by a modulus above `1`, the hash of a set is the product of the hashes in
any order exactly as long as an `int` can count them. -/
theorem hashFastSet_isSetProduct_iff (mod : HashT) (hmod : 2 ≤ mod) (hashes : List HashT) :
    IsSetProduct mod hashes ↔ hashes.length < 2 ^ 31 := by
  have hone : 1 < mod.toNat := hmod
  have hvalue : ∀ hashes' : List HashT, hashes'.length < 2 ^ 31 →
      (hashFastSet mod hashes').value = some (UInt32.ofNat (productMod mod hashes')) := by
    intro hashes' hlength
    have hpos : 0 < mod := lt_of_lt_of_le (b := 2) (by decide) hmod
    obtain ⟨r, hr, hproduct⟩ :=
      (hashRounds_setRound hpos hashes' 1 0 hone (by omega)).returns
    rw [one_mul] at hproduct
    rw [hashFastSet, hashData, Logged.value_bind, ← Nat.cast_zero, hr, hproduct]
    rfl
  constructor
  · intro h
    by_contra hlong
    obtain ⟨hash, hhash, -⟩ := h.product
    have hnone : (hashRounds (setRound mod) 1 ((0 : ℕ) : ℤ) hashes).value = none :=
      hashRounds_value_of_long hashes 1 0 (by omega) (by omega)
    rw [Nat.cast_zero] at hnone
    rw [hashFastSet, hashData, Logged.value_bind, hnone] at hhash
    cases hhash
  · intro hlength
    have hlt : productMod mod hashes < 2 ^ 32 :=
      (Nat.mod_lt _ (by omega)).trans mod.toNat_lt
    refine ⟨⟨_, hvalue hashes hlength, UInt32.toNat_ofNat_of_lt' hlt⟩, fun hashes' hperm => ?_⟩
    rw [hvalue hashes hlength, hvalue hashes' (hperm.length_eq ▸ hlength),
      productMod_perm hperm]

/-- Three hashes, the largest of 32 bits among them. -/
theorem hashFastSet_isSetProduct_sample : IsSetProduct 100 [4294967295, 7, 4294967295] :=
  (hashFastSet_isSetProduct_iff 100 (by decide) _).mpr (by decide)

/-- Of `2 ^ 31` hashes, all of them `1`, the product is not returned. -/
theorem hashFastSet_long_not_isSetProduct :
    (hashFastSet 2 (List.replicate (2 ^ 31) 1)).value = none ∧
      ¬IsSetProduct 2 (List.replicate (2 ^ 31) 1) := by
  have hlength : (List.replicate (2 ^ 31) (1 : HashT)).length = 2 ^ 31 := List.length_replicate
  have hrounds : (hashRounds (setRound 2) 1 ((0 : ℕ) : ℤ)
      (List.replicate (2 ^ 31) (1 : HashT))).value = none :=
    hashRounds_value_of_long _ 1 0 (by omega) (by omega)
  have hnone : (hashFastSet 2 (List.replicate (2 ^ 31) 1)).value = none := by
    rw [hashFastSet, hashData, Logged.value_bind, ← Nat.cast_zero, hrounds]
    rfl
  refine ⟨hnone, fun h => ?_⟩
  obtain ⟨hash, hhash, -⟩ := h.product
  rw [hnone] at hhash
  cases hhash

end Storage

end DistStorage
