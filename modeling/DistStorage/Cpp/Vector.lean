import Mathlib

/-!
# Lists indexed by a signed integer

A `std::vector` indexed by an `int` is read here as a list with a partial
lookup at integers: a negative index and an index past the end both give
`none`. The source relies on its callers for the range of an index, so the
development proves that range wherever a lookup is used.
-/

namespace Cpp

/-- The entry of `l` at the signed index `i`, if `i` is in range. -/
def index {α : Type*} (l : List α) : ℤ → Option α
  | .ofNat k => l[k]?
  | .negSucc _ => none

/-- Apply `f` to the entry of `l` at the signed index `i`; an index out of
range changes nothing. -/
def modify {α : Type*} (l : List α) (i : ℤ) (f : α → α) : List α :=
  match i with
  | .ofNat k => l.modify k f
  | .negSucc _ => l

@[simp] theorem index_natCast {α : Type*} (l : List α) (k : ℕ) :
    index l (k : ℤ) = l[k]? := rfl

@[simp] theorem index_nil {α : Type*} (i : ℤ) : index ([] : List α) i = none := by
  cases i <;> simp [index]

theorem index_isSome_iff {α : Type*} (l : List α) (i : ℤ) :
    (index l i).isSome ↔ 0 ≤ i ∧ i < l.length := by
  cases i with
  | ofNat k => simp [index]
  | negSucc k => simp [index]

theorem index_eq_none {α : Type*} {l : List α} {i : ℤ} (h : ¬(0 ≤ i ∧ i < l.length)) :
    index l i = none := by
  rwa [← Option.not_isSome_iff_eq_none, index_isSome_iff]

theorem ext_index {α : Type*} {l l' : List α} (h : ∀ i, index l i = index l' i) : l = l' :=
  List.ext_getElem? fun k => h k

theorem mem_of_index {α : Type*} {l : List α} {i : ℤ} {a : α} (h : index l i = some a) :
    a ∈ l := by
  cases i with
  | ofNat k => exact List.mem_of_getElem? h
  | negSucc k => cases h

theorem index_append_left {α : Type*} (l r : List α) {i : ℤ}
    (h : i < l.length) : index (l ++ r) i = index l i := by
  cases i with
  | ofNat k =>
      have hk : k < l.length := by simpa using h
      simp [index, List.getElem?_append_left hk]
  | negSucc k => rfl

theorem index_append_length {α : Type*} (l r : List α) (k : ℕ) :
    index (l ++ r) ((l.length : ℤ) + k) = r[k]? := by
  rw [← Nat.cast_add, index_natCast, List.getElem?_append_right (by omega),
    Nat.add_sub_cancel_left]

@[simp] theorem length_modify {α : Type*} (l : List α) (i : ℤ) (f : α → α) :
    (modify l i f).length = l.length := by
  cases i <;> simp [modify]

theorem index_modify {α : Type*} (l : List α) (i j : ℤ) (f : α → α) :
    index (modify l i f) j = if i = j then (index l j).map f else index l j := by
  cases i with
  | ofNat k =>
      cases j with
      | ofNat m =>
          change (l.modify k f)[m]? = if Int.ofNat k = Int.ofNat m then l[m]?.map f else l[m]?
          rw [List.getElem?_modify]
          by_cases hkm : k = m <;> simp [hkm]
      | negSucc m => simp [index]
  | negSucc k =>
      cases j with
      | ofNat m => rfl
      | negSucc m => simp [index]

theorem modify_id {α : Type*} (l : List α) (i : ℤ) : modify l i (fun a => a) = l := by
  refine ext_index fun j => ?_
  rw [index_modify]
  split_ifs
  · exact Option.map_id'
  · rfl

theorem modify_modify {α : Type*} (l : List α) (i : ℤ) (f f' : α → α) :
    modify (modify l i f) i f' = modify l i fun a => f' (f a) := by
  refine ext_index fun j => ?_
  rw [index_modify, index_modify, index_modify]
  split_ifs
  · rw [Option.map_map]
    rfl
  · rfl

theorem mem_modify {α : Type*} {l : List α} {i : ℤ} {f : α → α} {b : α}
    (h : b ∈ modify l i f) : b ∈ l ∨ ∃ a ∈ l, b = f a := by
  cases i with
  | ofNat k =>
      change b ∈ l.modify k f at h
      obtain ⟨j, hj, rfl⟩ := List.mem_iff_getElem.mp h
      have hj' : j < l.length := by simpa using hj
      rw [List.getElem_modify]
      split_ifs
      · exact .inr ⟨l[j], List.getElem_mem hj', rfl⟩
      · exact .inl (List.getElem_mem hj')
  | negSucc k => exact .inl h

/-- A change that a projection does not show. -/
theorem map_modify {α β : Type*} {l : List α} {i : ℤ} {f : α → α} {p : α → β}
    (h : ∀ a, p (f a) = p a) : (modify l i f).map p = l.map p := by
  refine ext_index fun j => ?_
  cases j with
  | ofNat k =>
      have hindex := index_modify l i (k : ℤ) f
      rw [index_natCast, index_natCast] at hindex
      change ((modify l i f).map p)[k]? = (l.map p)[k]?
      rw [List.getElem?_map, List.getElem?_map, hindex]
      split_ifs
      · rw [Option.map_map, Function.comp_def]
        simp only [h]
      · rfl
  | negSucc k => rfl

/-- A loop whose body changes nothing. -/
theorem foldlM_eq_of_forall {α β : Type*} {f : α → β → Option α} {a : α} {l : List β}
    (h : ∀ b ∈ l, f a b = some a) : l.foldlM f a = some a := by
  induction l with
  | nil => rfl
  | cons b l ih =>
      rw [List.foldlM_cons, h b List.mem_cons_self]
      exact ih fun b' hb' => h b' (List.mem_cons_of_mem b hb')

/-- A loop whose steps change nothing or are undefined. -/
theorem foldlM_eq_self {α β : Type*} {f : α → β → Option α} {a a' : α} {l : List β}
    (h : ∀ b ∈ l, ∀ c, f a b = some c → c = a) (hfold : l.foldlM f a = some a') : a' = a := by
  induction l with
  | nil => exact (Option.some.inj hfold).symm
  | cons b l ih =>
      rw [List.foldlM_cons] at hfold
      obtain ⟨c, hc, hfold⟩ := Option.bind_eq_some_iff.mp hfold
      rw [h b List.mem_cons_self c hc] at hfold
      exact ih (fun b' hb' => h b' (List.mem_cons_of_mem b hb')) hfold
/-- A loop that changes at most one entry in every step, and no entry twice. -/
theorem foldlM_modify {α ι : Type*} (step : List α → ι → Option (List α)) (pos : ι → Option ℤ)
    (f : ι → α → α) (l : List ι) (new : List α)
    (hstep : ∀ i ∈ l, ∀ new' : List α, new'.length = new.length →
      step new' i = some ((pos i).elim new' fun k => modify new' k (f i)))
    (honce : l.Pairwise fun i j => ∀ k, pos i = some k → pos j ≠ some k) :
    ∃ new', l.foldlM step new = some new' ∧ new'.length = new.length ∧
      (∀ k, (∀ i ∈ l, pos i ≠ some k) → index new' k = index new k) ∧
      ∀ i ∈ l, ∀ k, pos i = some k → index new' k = (index new k).map (f i) := by
  induction l generalizing new with
  | nil => exact ⟨new, rfl, rfl, fun _ _ => rfl, by simp⟩
  | cons i l ih =>
      obtain ⟨hi, hl⟩ := List.pairwise_cons.mp honce
      obtain ⟨new₁, hnew₁⟩ : ∃ new₁, new₁ = (pos i).elim new fun k => modify new k (f i) := ⟨_, rfl⟩
      have hlength : new₁.length = new.length := by
        rw [hnew₁]
        cases pos i with
        | none => rfl
        | some k => exact length_modify new k (f i)
      obtain ⟨new', hrun, hlength', hkept, hdone⟩ := ih new₁
        (fun j hj new' hnew' => hstep j (List.mem_cons_of_mem i hj) new' (hnew'.trans hlength)) hl
      refine ⟨new', ?_, hlength'.trans hlength, ?_, ?_⟩
      · rw [List.foldlM_cons, hstep i List.mem_cons_self new rfl, ← hnew₁]
        exact hrun
      · intro k hk
        rw [hkept k fun j hj => hk j (List.mem_cons_of_mem i hj), hnew₁]
        cases hpos : pos i with
        | none => rfl
        | some k' =>
            have hne : k' ≠ k := by
              rintro rfl
              exact hk i List.mem_cons_self hpos
            rw [Option.elim_some, index_modify, if_neg hne]
      · intro j hj k hpos
        rcases List.mem_cons.mp hj with rfl | hj
        · rw [hkept k fun j' hj' => hi j' hj' k hpos, hnew₁, hpos, Option.elim_some, index_modify,
            if_pos rfl]
        · have hne : pos i ≠ some k := fun h => hi j hj k h hpos
          rw [hdone j hj k hpos, hnew₁]
          cases hpos' : pos i with
          | none => rfl
          | some k' =>
              have hk : k' ≠ k := fun h => hne (hpos'.trans (congrArg some h))
              rw [Option.elim_some, index_modify, if_neg hk]

/-- When the only entry with a property loses it, the entry appended is the only
one that has it. -/
theorem existsUnique_set_append_of_pos {α : Type*} {P : α → Prop} {l : List α} {j : ℕ}
    {old done next : α} (hget : l[j]? = some old) (hold : P old) (hdone : ¬P done) (hnext : P next)
    (hunique : ∃! i : ℕ, ∃ a, l[i]? = some a ∧ P a) :
    ∃! i : ℕ, ∃ a, (l.set j done ++ [next])[i]? = some a ∧ P a := by
  refine ⟨l.length, ⟨next, by simp, hnext⟩, ?_⟩
  rintro i ⟨a, ha, hPa⟩
  rcases lt_or_ge i l.length with hi | hi
  · rw [List.getElem?_append_left (by rwa [List.length_set])] at ha
    by_cases hij : j = i
    · subst hij
      rw [List.getElem?_set_self hi] at ha
      obtain rfl := Option.some.inj ha
      exact absurd hPa hdone
    · rw [List.getElem?_set_ne hij] at ha
      exact absurd (hunique.unique ⟨old, hget, hold⟩ ⟨a, ha, hPa⟩) hij
  · have hlt := (List.getElem?_eq_some_iff.mp ha).1
    rw [List.length_append, List.length_set, List.length_singleton] at hlt
    omega

theorem existsUnique_set_append_of_neg {α : Type*} {P : α → Prop} {l m : List α} {j : ℕ}
    {old done : α} (hget : l[j]? = some old) (hold : ¬P old) (hdone : ¬P done)
    (hm : ∀ a ∈ m, ¬P a) (hunique : ∃! i : ℕ, ∃ a, l[i]? = some a ∧ P a) :
    ∃! i : ℕ, ∃ a, (l.set j done ++ m)[i]? = some a ∧ P a := by
  obtain ⟨i, ⟨a, ha, hPa⟩, honly⟩ := hunique
  have hij : j ≠ i := by
    rintro rfl
    obtain rfl := Option.some.inj (hget.symm.trans ha)
    exact hold hPa
  have hi : i < l.length := (List.getElem?_eq_some_iff.mp ha).1
  refine ⟨i, ⟨a, ?_, hPa⟩, ?_⟩
  · rw [List.getElem?_append_left (by rwa [List.length_set]), List.getElem?_set_ne hij, ha]
  · rintro k ⟨b, hb, hPb⟩
    rcases lt_or_ge k l.length with hk | hk
    · rw [List.getElem?_append_left (by rwa [List.length_set])] at hb
      by_cases hjk : j = k
      · subst hjk
        rw [List.getElem?_set_self hk] at hb
        obtain rfl := Option.some.inj hb
        exact absurd hPb hdone
      · rw [List.getElem?_set_ne hjk] at hb
        exact honly k ⟨b, hb, hPb⟩
    · rw [List.getElem?_append_right (by rwa [List.length_set])] at hb
      exact absurd hPb (hm b (List.mem_of_getElem? hb))

theorem modify_append_length {α : Type*} (l r : List α) (f : α → α) :
    modify (l ++ r) (l.length : ℤ) f = l ++ r.modifyHead f := by
  change (l ++ r).modify l.length f = l ++ r.modifyHead f
  induction l with
  | nil => simp [List.modifyHead_eq_modify_zero]
  | cons a l ih => simpa using ih

end Cpp
