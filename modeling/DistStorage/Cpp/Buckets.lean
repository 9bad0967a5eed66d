import DistStorage.Cpp.Vector

/-!
# Lists of pairs and vectors of lists

A vector of lists and a list of pairs of an index and a value hold the same data:
pushing the pairs one by one fills the vector, and going over the vector lists the
pairs. What a list of pairs has at one index is its `bucket`. The buckets fix the pairs
up to their order, and the vector exactly.
-/

namespace Cpp

variable {β : Type*}

def pushAt (v : List (List β)) (p : ℤ × β) : List (List β) := modify v p.1 (· ++ [p.2])

/-- The values with an index, in order. -/
def bucket (ps : List (ℤ × β)) (i : ℤ) : List β := (ps.filter fun p => p.1 = i).map Prod.snd

/-- The values in a vector with their indices, which are counted from `i`. -/
def entriesFrom : ℤ → List (List β) → List (ℤ × β)
  | _, [] => []
  | i, l :: v => l.map (i, ·) ++ entriesFrom (i + 1) v

section Bucket

variable {ps qs : List (ℤ × β)}

theorem bucket_append (ps qs : List (ℤ × β)) (i : ℤ) :
    bucket (ps ++ qs) i = bucket ps i ++ bucket qs i := by
  simp [bucket]

theorem bucket_cons (p : ℤ × β) (ps : List (ℤ × β)) (i : ℤ) :
    bucket (p :: ps) i = if p.1 = i then p.2 :: bucket ps i else bucket ps i := by
  rw [bucket, List.filter_cons]
  split_ifs with hp hi hi
  · rfl
  · exact absurd (of_decide_eq_true hp) hi
  · exact absurd (decide_eq_true hi) hp
  · rfl

theorem bucket_perm (h : ps.Perm qs) (i : ℤ) : (bucket ps i).Perm (bucket qs i) :=
  (h.filter _).map _

theorem bucket_eq_nil {i : ℤ} (h : ∀ p ∈ ps, p.1 ≠ i) : bucket ps i = [] := by
  rw [bucket, List.filter_eq_nil_iff.mpr fun p hp => by simpa using h p hp, List.map_nil]

theorem count_bucket [DecidableEq β] (ps : List (ℤ × β)) (i : ℤ) (b : β) :
    (bucket ps i).count b = ps.count (i, b) := by
  induction ps with
  | nil => rfl
  | cons p ps ih =>
      obtain ⟨j, c⟩ := p
      rw [bucket_cons, List.count_cons, ← ih]
      by_cases hj : j = i
      · simp [hj, List.count_cons]
      · simp [hj]

theorem perm_of_bucket_perm (h : ∀ i, (bucket ps i).Perm (bucket qs i)) : ps.Perm qs := by
  classical
  refine List.perm_iff_count.mpr fun p => ?_
  rw [← count_bucket, ← count_bucket, (h p.1).count_eq]

end Bucket

section Vector

variable {v : List (List β)} {ps : List (ℤ × β)}

@[simp] theorem length_foldl_pushAt (v : List (List β)) (ps : List (ℤ × β)) :
    (ps.foldl pushAt v).length = v.length := by
  induction ps generalizing v with
  | nil => rfl
  | cons p ps ih => rw [List.foldl_cons, ih, pushAt, length_modify]

theorem index_foldl_pushAt (v : List (List β)) (ps : List (ℤ × β)) (i : ℤ) :
    index (ps.foldl pushAt v) i = (index v i).map (· ++ bucket ps i) := by
  induction ps generalizing v with
  | nil => simp [bucket]
  | cons p ps ih =>
      rw [List.foldl_cons, ih, pushAt, index_modify, bucket_cons]
      split_ifs
      · rw [Option.map_map]
        congr 1
        funext l
        rw [Function.comp_apply, List.append_assoc, List.singleton_append]
      · rfl

theorem index_replicate {i : ℤ} {n : ℕ} (b : β) (h : 0 ≤ i ∧ i < n) :
    index (List.replicate n b) i = some b := by
  obtain ⟨k, rfl⟩ := Int.eq_ofNat_of_zero_le h.1
  have hk : k < n := by exact_mod_cast h.2
  rw [index_natCast, List.getElem?_replicate, if_pos hk]

theorem mem_entriesFrom {k : ℤ} {p : ℤ × β} (h : p ∈ entriesFrom k v) :
    k ≤ p.1 ∧ p.1 < k + v.length ∧ ∃ l ∈ v, p.2 ∈ l := by
  induction v generalizing k with
  | nil => cases h
  | cons l v ih =>
      rw [entriesFrom, List.mem_append] at h
      rw [List.length_cons]
      push_cast
      rcases h with h | h
      · obtain ⟨b, hb, rfl⟩ := List.mem_map.mp h
        exact ⟨le_refl k, by omega, l, List.mem_cons_self, hb⟩
      · obtain ⟨hle, hlt, l', hl', hb⟩ := ih h
        exact ⟨by omega, by omega, l', List.mem_cons_of_mem l hl', hb⟩

theorem exists_mem_entriesFrom {l : List β} {b : β} (k : ℤ) (hl : l ∈ v) (hb : b ∈ l) :
    ∃ i, (i, b) ∈ entriesFrom k v := by
  induction v generalizing k with
  | nil => cases hl
  | cons l' v ih =>
      rcases List.mem_cons.mp hl with rfl | hl
      · exact ⟨k, List.mem_append_left _ (List.mem_map.mpr ⟨b, hb, rfl⟩)⟩
      · obtain ⟨i, hi⟩ := ih (k + 1) hl
        exact ⟨i, List.mem_append_right _ hi⟩

theorem pairwise_entriesFrom (k : ℤ) (v : List (List β)) :
    (entriesFrom k v).Pairwise fun p q => p.1 ≤ q.1 := by
  induction v generalizing k with
  | nil => exact .nil
  | cons l v ih =>
      refine List.pairwise_append.mpr ⟨?_, ih (k + 1), fun p hp q hq => ?_⟩
      · exact List.pairwise_map.mpr (List.pairwise_of_forall fun _ _ => le_refl k)
      · obtain ⟨b, -, rfl⟩ := List.mem_map.mp hp
        have hle := (mem_entriesFrom hq).1
        change k ≤ q.1
        omega

theorem length_entriesFrom (k : ℤ) (v : List (List β)) :
    (entriesFrom k v).length = (v.map List.length).sum := by
  induction v generalizing k with
  | nil => rfl
  | cons l v ih => rw [entriesFrom, List.length_append, List.length_map, ih, List.map_cons,
      List.sum_cons]

theorem index_cons (l : List β) (v : List (List β)) (i : ℤ) :
    index (l :: v) i = if i = 0 then some l else index v (i - 1) := by
  split_ifs with hi
  · rw [hi]
    rfl
  · by_cases hrange : 0 ≤ i
    · obtain ⟨k, rfl⟩ : ∃ k : ℕ, i = ((k + 1 : ℕ) : ℤ) := ⟨(i - 1).toNat, by omega⟩
      have hpred : ((k + 1 : ℕ) : ℤ) - 1 = k := by omega
      rw [hpred]
      rfl
    · rw [index_eq_none fun h => hrange h.1, index_eq_none fun h => hrange (by omega)]

theorem bucket_entriesFrom (k : ℤ) (v : List (List β)) (i : ℤ) :
    bucket (entriesFrom k v) i = (index v (i - k)).getD [] := by
  induction v generalizing k with
  | nil => rw [index_nil]; rfl
  | cons l v ih =>
      have hhead : bucket (l.map (k, ·)) i = if k = i then l else [] := by
        split_ifs with hi
        · rw [hi]
          simp [bucket, List.filter_map, Function.comp_def]
        · exact bucket_eq_nil fun p hp => by
            obtain ⟨b, -, rfl⟩ := List.mem_map.mp hp
            exact hi
      rw [entriesFrom, bucket_append, ih, hhead, index_cons]
      by_cases hi : k = i
      · have hbefore : index v (i - (k + 1)) = none := index_eq_none (by omega)
        rw [if_pos hi, if_pos (by omega), hbefore]
        simp
      · rw [if_neg hi, if_neg (by omega), List.nil_append, sub_sub]

/-- Going over a vector and pushing what is found there builds the vector again. -/
theorem foldl_pushAt_entriesFrom (v : List (List β)) :
    (entriesFrom 0 v).foldl pushAt (List.replicate v.length []) = v := by
  refine ext_index fun i => ?_
  rw [index_foldl_pushAt, bucket_entriesFrom, sub_zero]
  by_cases hi : 0 ≤ i ∧ i < v.length
  · obtain ⟨l, hl⟩ := Option.isSome_iff_exists.mp ((index_isSome_iff v i).mpr hi)
    rw [index_replicate [] hi, hl]
    rfl
  · rw [index_eq_none hi, index_eq_none (by rwa [List.length_replicate])]
    rfl

theorem getD_foldl_pushAt {n : ℕ} (h : ∀ p ∈ ps, 0 ≤ p.1 ∧ p.1 < n) (i : ℤ) :
    (index (ps.foldl pushAt (List.replicate n [])) i).getD [] = bucket ps i := by
  rw [index_foldl_pushAt]
  by_cases hi : 0 ≤ i ∧ i < n
  · rw [index_replicate [] hi]
    rfl
  · have hnil : bucket ps i = [] := bucket_eq_nil fun p hp hpi => by
      subst hpi
      exact hi (h p hp)
    rw [index_eq_none (by rwa [List.length_replicate]), hnil]
    rfl

/-- Pushing pairs and going over the vector gives the pairs in another order. -/
theorem entriesFrom_foldl_pushAt_perm {n : ℕ} (h : ∀ p ∈ ps, 0 ≤ p.1 ∧ p.1 < n) :
    (entriesFrom 0 (ps.foldl pushAt (List.replicate n []))).Perm ps := by
  refine perm_of_bucket_perm fun i => .of_eq ?_
  rw [bucket_entriesFrom, sub_zero, getD_foldl_pushAt h]

end Vector

/-- Pairs that come in the order of their first parts keep it when they are swapped. -/
theorem pairwise_bucket_swap {ps : List (ℤ × ℤ)} (h : ps.Pairwise fun p q => p.1 ≤ q.1) (i : ℤ) :
    (bucket (ps.map Prod.swap) i).Pairwise (· ≤ ·) := by
  have hswap : (ps.map Prod.swap).Pairwise fun p q => p.2 ≤ q.2 := List.pairwise_map.mpr h
  exact List.pairwise_map.mpr (hswap.filter _)

end Cpp
