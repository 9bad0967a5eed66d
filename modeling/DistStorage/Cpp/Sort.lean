import Mathlib

/-!
# Sorting with an unspecified order of ties

`std::sort` rearranges a range so that no entry compares below one before it,
and leaves open how entries that compare neither way are arranged. A `Sorter`
is any function that does so for every strict weak order, so a result for all
sorters holds whatever the library does with ties.
-/

namespace Cpp

structure StrictWeak {α : Type*} (lt : α → α → Bool) : Prop where
  asymm : ∀ a b, lt a b = true → lt b a = false
  neg_trans : ∀ a b c, lt b a = false → lt c b = false → lt c a = false

theorem strictWeak_of_key {α : Type*} (key : α → ℤ) :
    StrictWeak fun a b => decide (key b < key a) where
  asymm a b h := by simpa using (of_decide_eq_true h).le
  neg_trans a b c hab hbc := by
    rw [decide_eq_false_iff_not, not_lt] at hab hbc ⊢
    exact hbc.trans hab

/-- A sorting function, given the comparison. -/
structure Sorter (α : Type*) where
  sort : (α → α → Bool) → List α → List α
  perm : ∀ {lt : α → α → Bool}, StrictWeak lt → ∀ l, (sort lt l).Perm l
  sorted : ∀ {lt : α → α → Bool}, StrictWeak lt →
    ∀ l, (sort lt l).Pairwise fun a b => lt b a = false

namespace Sorter

variable {α : Type*} {lt : α → α → Bool}

theorem pairwise_mergeSort (h : StrictWeak lt) (l : List α) :
    (l.mergeSort fun a b => !lt b a).Pairwise fun a b => lt b a = false := by
  have hpairwise : (l.mergeSort fun a b => !lt b a).Pairwise fun a b => (!lt b a) = true := by
    apply List.pairwise_mergeSort
    · intro a b c hab hbc
      rw [Bool.not_eq_true'] at hab hbc ⊢
      exact h.neg_trans a b c hab hbc
    · intro a b
      cases hba : lt b a with
      | false => rfl
      | true => simp [h.asymm b a hba]
  exact hpairwise.imp fun hab => by simpa using hab

/-- Ties stay as they are after a rearrangement. -/
def prepared (arrange : List α → List α) (harrange : ∀ l, (arrange l).Perm l) : Sorter α where
  sort lt l := (arrange l).mergeSort fun a b => !lt b a
  perm _ l := ((arrange l).mergeSort_perm _).trans (harrange l)
  sorted h l := pairwise_mergeSort h (arrange l)

/-- Ties stay as they were. -/
def stable (α : Type*) : Sorter α := prepared id .refl

/-- Ties are reversed. -/
def reversing (α : Type*) : Sorter α := prepared List.reverse List.reverse_perm

/-- An entry comes first of its ties. -/
def favouring [DecidableEq α] (a : α) : Sorter α :=
  prepared (fun l => l.filter (fun b => b = a) ++ l.filter fun b => !decide (b = a))
    fun l => List.filter_append_perm _ l

/-- An entry comes last of its ties. -/
def deferring [DecidableEq α] (a : α) : Sorter α :=
  prepared (fun l => l.filter (fun b => !decide (b = a)) ++ l.filter fun b => b = a)
    fun l => List.perm_append_comm.trans (List.filter_append_perm _ l)

theorem sublist_prepared (h : StrictWeak lt) {arrange : List α → List α}
    {harrange : ∀ l, (arrange l).Perm l} {l : List α} {a b : α} (hba : lt b a = false)
    (hl : [a, b].Sublist (arrange l)) : [a, b].Sublist ((prepared arrange harrange).sort lt l) := by
  apply List.pair_sublist_mergeSort _ _ (by simpa using hba) hl
  · intro a b c hab hbc
    rw [Bool.not_eq_true'] at hab hbc ⊢
    exact h.neg_trans a b c hab hbc
  · intro a b
    cases hba : lt b a with
    | false => rfl
    | true => simp [h.asymm b a hba]

theorem sublist_favouring [DecidableEq α] (h : StrictWeak lt) {l : List α} {a b : α} (ha : a ∈ l)
    (hb : b ∈ l) (hne : b ≠ a) (hba : lt b a = false) :
    [a, b].Sublist ((favouring a).sort lt l) := by
  have hfirst : [a].Sublist (l.filter fun b => b = a) :=
    List.singleton_sublist.mpr (List.mem_filter.mpr ⟨ha, by simp⟩)
  have hrest : [b].Sublist (l.filter fun b => !decide (b = a)) :=
    List.singleton_sublist.mpr (List.mem_filter.mpr ⟨hb, by simpa using hne⟩)
  exact sublist_prepared h hba (hfirst.append hrest)

theorem sublist_deferring [DecidableEq α] (h : StrictWeak lt) {l : List α} {a b : α} (ha : a ∈ l)
    (hb : b ∈ l) (hne : b ≠ a) (hab : lt a b = false) :
    [b, a].Sublist ((deferring a).sort lt l) := by
  have hrest : [b].Sublist (l.filter fun b => !decide (b = a)) :=
    List.singleton_sublist.mpr (List.mem_filter.mpr ⟨hb, by simpa using hne⟩)
  have hlast : [a].Sublist (l.filter fun b => b = a) :=
    List.singleton_sublist.mpr (List.mem_filter.mpr ⟨ha, by simp⟩)
  exact sublist_prepared h hab (hrest.append hlast)

end Sorter

theorem pair_sublist_or {α : Type*} {l : List α} {a b : α} (ha : a ∈ l) (hb : b ∈ l)
    (hab : a ≠ b) : [a, b].Sublist l ∨ [b, a].Sublist l := by
  obtain ⟨xs, ys, rfl⟩ := List.append_of_mem ha
  rcases List.mem_append.mp hb with hx | hy
  · refine .inr ?_
    have hb' : [b].Sublist xs := List.singleton_sublist.mpr hx
    have ha' : [a].Sublist (a :: ys) := List.singleton_sublist.mpr List.mem_cons_self
    exact hb'.append ha'
  · refine .inl (List.Sublist.trans ?_ (List.sublist_append_right xs _))
    have hb' : b ∈ ys := (List.mem_cons.mp hy).resolve_left hab.symm
    exact (List.singleton_sublist.mpr hb').cons_cons a

theorem not_pair_sublist {α : Type*} {l : List α} {a b : α} (hl : l.Nodup)
    (hab : [a, b].Sublist l) : ¬[b, a].Sublist l := by
  induction l with
  | nil => cases hab
  | cons c l ih =>
      obtain ⟨hc, hl⟩ := List.nodup_cons.mp hl
      intro hba
      rcases List.sublist_cons_iff.mp hab with habl | ⟨r, hr, hr'⟩
      · rcases List.sublist_cons_iff.mp hba with hbal | ⟨r, hr, -⟩
        · exact ih hl habl hbal
        · obtain ⟨rfl, -⟩ := List.cons.inj hr
          exact hc (habl.subset (List.mem_cons_of_mem a List.mem_cons_self))
      · obtain ⟨rfl, rfl⟩ := List.cons.inj hr
        have hbl : b ∈ l := hr'.subset List.mem_cons_self
        rcases List.sublist_cons_iff.mp hba with hbal | ⟨r, hr, -⟩
        · exact hc (hbal.subset (List.mem_cons_of_mem b List.mem_cons_self))
        · obtain ⟨rfl, -⟩ := List.cons.inj hr
          exact hc hbl

theorem pair_sublist_of_lt {α : Type*} {l : List α} {a b : α} {j k : ℕ} (hjk : j < k)
    (ha : l[j]? = some a) (hb : l[k]? = some b) : [a, b].Sublist l := by
  have hat : [a].Sublist (l.take k) := by
    refine List.singleton_sublist.mpr (List.mem_of_getElem? (i := j) ?_)
    rwa [List.getElem?_take_of_lt hjk]
  have hbd : [b].Sublist (l.drop k) := by
    refine List.singleton_sublist.mpr (List.mem_of_getElem? (i := 0) ?_)
    rwa [List.getElem?_drop, Nat.add_zero]
  have hab := hat.append hbd
  rwa [List.take_append_drop] at hab

/-- In a list without duplicates an entry stands before another exactly when its
position is the lesser one. -/
theorem pair_sublist_iff {α : Type*} {l : List α} {a b : α} {k : ℕ} (hl : l.Nodup)
    (hb : l[k]? = some b) : [a, b].Sublist l ↔ ∃ j < k, l[j]? = some a := by
  constructor
  · intro hab
    obtain ⟨j, ha⟩ := List.mem_iff_getElem?.mp (hab.subset List.mem_cons_self)
    rcases lt_trichotomy j k with hjk | rfl | hkj
    · exact ⟨j, hjk, ha⟩
    · obtain rfl : a = b := Option.some.inj (ha.symm.trans hb)
      exact absurd hab (not_pair_sublist hl hab)
    · exact absurd (pair_sublist_of_lt hkj hb ha) (not_pair_sublist hl hab)
  · rintro ⟨j, hjk, ha⟩
    exact pair_sublist_of_lt hjk ha hb

theorem mem_take_iff {α : Type*} {l : List α} {a b : α} {k : ℕ} (hl : l.Nodup)
    (ha : l[k]? = some a) : b ∈ l.take k ↔ [b, a].Sublist l := by
  rw [pair_sublist_iff hl ha, List.mem_iff_getElem?]
  constructor
  · rintro ⟨j, hj⟩
    rw [List.getElem?_take] at hj
    split_ifs at hj with hjk
    exact ⟨j, hjk, hj⟩
  · rintro ⟨j, hjk, hj⟩
    exact ⟨j, by rwa [List.getElem?_take_of_lt hjk]⟩

theorem length_take_of_getElem? {α : Type*} {l : List α} {a : α} {k : ℕ} (ha : l[k]? = some a) :
    (l.take k).length = k :=
  List.length_take_of_le (List.getElem?_eq_some_iff.mp ha).1.le

namespace Sorter

variable {α : Type*} {lt : α → α → Bool}

theorem nodup_sort (s : Sorter α) (h : StrictWeak lt) {l : List α} (hl : l.Nodup) :
    (s.sort lt l).Nodup :=
  (s.perm h l).nodup_iff.mpr hl

theorem mem_sort (s : Sorter α) (h : StrictWeak lt) {l : List α} {a : α} :
    a ∈ s.sort lt l ↔ a ∈ l :=
  (s.perm h l).mem_iff

theorem sublist_of_lt (s : Sorter α) (h : StrictWeak lt) {l : List α} {a b : α}
    (ha : a ∈ l) (hb : b ∈ l) (hab : lt a b = true) : [a, b].Sublist (s.sort lt l) := by
  have hne : a ≠ b := by
    rintro rfl
    exact absurd (h.asymm a a hab) (by simp [hab])
  rcases pair_sublist_or ((s.mem_sort h).mpr ha) ((s.mem_sort h).mpr hb) hne with hl | hl
  · exact hl
  · have hsorted : [b, a].Pairwise fun a b => lt b a = false := (s.sorted h l).sublist hl
    exact absurd (List.pairwise_pair.mp hsorted) (by simp [hab])

/-- An entry comes before another in every sorted list exactly when it compares
below it. -/
theorem forall_sublist_iff (h : StrictWeak lt) {l : List α} {a b : α} (hl : l.Nodup)
    (ha : a ∈ l) (hb : b ∈ l) :
    (∀ s : Sorter α, [a, b].Sublist (s.sort lt l)) ↔ lt a b = true := by
  refine ⟨fun hall => ?_, fun hab s => s.sublist_of_lt h ha hb hab⟩
  by_contra hab
  rw [Bool.not_eq_true] at hab
  have hne : b ≠ a := by
    rintro rfl
    have hdup := hall (stable α)
    exact not_pair_sublist (nodup_sort _ h hl) hdup hdup
  rcases pair_sublist_or hb ha hne with hba | hba
  · exact not_pair_sublist (nodup_sort _ h hl) (sublist_prepared h hab hba) (hall (stable α))
  · exact not_pair_sublist (nodup_sort _ h hl) (sublist_prepared h hab hba.reverse)
      (hall (reversing α))

theorem countP_eq_of_getElem? (s : Sorter α) (h : StrictWeak lt) {l : List α} {a : α} {k : ℕ}
    (ha : (s.sort lt l)[k]? = some a) :
    l.countP (fun b => lt b a) = ((s.sort lt l).take k).countP fun b => lt b a := by
  obtain ⟨hk, hget⟩ := List.getElem?_eq_some_iff.mp ha
  have hsplit : s.sort lt l = (s.sort lt l).take k ++ a :: (s.sort lt l).drop (k + 1) := by
    rw [← hget, List.getElem_cons_drop, List.take_append_drop]
  have hsorted := s.sorted h l
  rw [hsplit, List.pairwise_append] at hsorted
  have hafter := (List.pairwise_cons.mp hsorted.2.1).1
  have hself : lt a a = false := by
    by_contra haa
    rw [Bool.not_eq_false] at haa
    exact absurd (h.asymm a a haa) (by simp [haa])
  have hzero : (a :: (s.sort lt l).drop (k + 1)).countP (fun b => lt b a) = 0 := by
    rw [List.countP_eq_zero]
    intro b hb
    rcases List.mem_cons.mp hb with rfl | hb
    · simp [hself]
    · simp [hafter b hb]
  rw [← (s.perm h l).countP_eq]
  conv_lhs => rw [hsplit]
  rw [List.countP_append, hzero, Nat.add_zero]

/-- An entry has the same position in every sorted list exactly when it has no
ties; the position is then the number of entries that compare below it. -/
theorem forall_getElem?_iff [DecidableEq α] (h : StrictWeak lt) {l : List α} {a : α} {k : ℕ}
    (hl : l.Nodup) (ha : a ∈ l) :
    (∀ s : Sorter α, (s.sort lt l)[k]? = some a) ↔
      l.countP (fun b => lt b a) = k ∧ ∀ b ∈ l, lt a b = false → lt b a = false → b = a := by
  constructor
  · intro hall
    have hcount : l.countP (fun b => lt b a) = k := by
      rw [countP_eq_of_getElem? (favouring a) h (hall _)]
      refine Eq.trans ?_ (length_take_of_getElem? (hall (favouring a)))
      rw [List.countP_eq_length]
      intro b hb
      by_contra hba
      rw [Bool.not_eq_true] at hba
      have hpair := (mem_take_iff (nodup_sort _ h hl) (hall _)).mp hb
      have hbl : b ∈ l := (mem_sort _ h).mp (hpair.subset List.mem_cons_self)
      have hne : b ≠ a := by
        rintro rfl
        exact not_pair_sublist (nodup_sort _ h hl) hpair hpair
      exact not_pair_sublist (nodup_sort _ h hl) hpair (sublist_favouring h ha hbl hne hba)
    refine ⟨hcount, fun b hb hab hba => ?_⟩
    by_contra hne
    have hmem := (mem_take_iff (nodup_sort _ h hl) (hall (deferring a))).mpr
      (sublist_deferring h ha hb hne hab)
    have hfull := (countP_eq_of_getElem? (deferring a) h (hall _)).symm.trans
      (hcount.trans (length_take_of_getElem? (hall (deferring a))).symm)
    exact absurd (List.countP_eq_length.mp hfull b hmem) (by simp [hba])
  · rintro ⟨hcount, hties⟩ s
    obtain ⟨n, hn⟩ := List.mem_iff_getElem?.mp ((s.mem_sort h).mpr ha)
    have hbelow : ∀ b ∈ (s.sort lt l).take n, lt b a = true := by
      intro b hb
      have hpair := (mem_take_iff (s.nodup_sort h hl) hn).mp hb
      have hsorted : [b, a].Pairwise fun a b => lt b a = false := (s.sorted h l).sublist hpair
      have hab : lt a b = false := by simpa using hsorted
      by_contra hba
      rw [Bool.not_eq_true] at hba
      obtain rfl := hties b ((s.mem_sort h).mp (hpair.subset List.mem_cons_self)) hab hba
      exact not_pair_sublist (s.nodup_sort h hl) hpair hpair
    have hkn : k = n := by
      rw [← hcount, countP_eq_of_getElem? s h hn, List.countP_eq_length.mpr hbelow]
      exact length_take_of_getElem? hn
    rw [hkn]
    exact hn

end Sorter

end Cpp
