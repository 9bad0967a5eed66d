import Mathlib

/-!
# Ordered maps

A `std::map` is the list of its entries in strictly increasing order of keys.
Lookup and assignment compare keys with `<` only, as the source library does,
and iteration over a map follows the list.
-/

namespace Cpp

/-- A map with keys in strictly increasing order. -/
structure OrderedMap (κ α : Type*) [LT κ] where
  entries : List (κ × α)
  sorted : entries.Pairwise fun x y => x.1 < y.1

namespace OrderedMap

variable {κ α : Type*} [LT κ]

instance : EmptyCollection (OrderedMap κ α) := ⟨⟨[], .nil⟩⟩

instance : Inhabited (OrderedMap κ α) := ⟨∅⟩

def values (m : OrderedMap κ α) : List α := m.entries.map Prod.snd

@[simp] theorem values_empty : (∅ : OrderedMap κ α).values = [] := rfl

/-- The value at the key that neither precedes nor follows `k`. -/
def findEntry [DecidableLT κ] (k : κ) : List (κ × α) → Option α
  | [] => none
  | (l, v) :: rest =>
      if k < l then none
      else if l < k then findEntry k rest
      else some v

def find [DecidableLT κ] (m : OrderedMap κ α) (k : κ) : Option α :=
  findEntry k m.entries

/-- Replace the value at `k`, or put a new entry at its place. -/
def insertEntry [DecidableLT κ] (k : κ) (x : α) : List (κ × α) → List (κ × α)
  | [] => [(k, x)]
  | (l, v) :: rest =>
      if k < l then (k, x) :: (l, v) :: rest
      else if l < k then (l, v) :: insertEntry k x rest
      else (l, x) :: rest

section Insert

variable [DecidableLT κ]

theorem key_of_mem_insertEntry {k : κ} {x : α} {l : List (κ × α)} {e : κ × α}
    (h : e ∈ insertEntry k x l) : e.1 = k ∨ e.1 ∈ l.map Prod.fst := by
  induction l with
  | nil =>
      rw [insertEntry, List.mem_singleton] at h
      exact .inl (by rw [h])
  | cons a l ih =>
      obtain ⟨b, v⟩ := a
      unfold insertEntry at h
      split_ifs at h
      · rcases List.mem_cons.mp h with rfl | h
        · exact .inl rfl
        · exact .inr (List.mem_map_of_mem h)
      · rcases List.mem_cons.mp h with rfl | h
        · exact .inr (by simp)
        · exact (ih h).imp_right (List.mem_cons_of_mem b)
      · rcases List.mem_cons.mp h with rfl | h
        · exact .inr (by simp)
        · exact .inr (List.mem_cons_of_mem b (List.mem_map_of_mem h))

theorem value_of_mem_insertEntry {k : κ} {x : α} {l : List (κ × α)} {v : α}
    (h : v ∈ (insertEntry k x l).map Prod.snd) : v = x ∨ v ∈ l.map Prod.snd := by
  induction l with
  | nil => simpa [insertEntry] using h
  | cons a l ih =>
      obtain ⟨b, w⟩ := a
      unfold insertEntry at h
      split_ifs at h <;> simp only [List.map_cons, List.mem_cons] at h ⊢
      · exact h
      · rcases h with h | h
        · exact .inr (.inl h)
        · exact (ih h).imp_right .inr
      · exact h.imp_right .inr

theorem sorted_insertEntry [Trans (α := κ) (· < ·) (· < ·) (· < ·)] (k : κ) (x : α)
    {l : List (κ × α)} (h : l.Pairwise fun x y => x.1 < y.1) :
    (insertEntry k x l).Pairwise fun x y => x.1 < y.1 := by
  induction l with
  | nil => simp [insertEntry]
  | cons a l ih =>
      obtain ⟨b, v⟩ := a
      obtain ⟨hb, hl⟩ := List.pairwise_cons.mp h
      unfold insertEntry
      split_ifs with hkb hbk
      · refine List.pairwise_cons.mpr ⟨?_, h⟩
        intro e he
        rcases List.mem_cons.mp he with rfl | he
        · exact hkb
        · exact Trans.trans hkb (hb e he)
      · refine List.pairwise_cons.mpr ⟨?_, ih hl⟩
        intro e he
        rcases key_of_mem_insertEntry he with hek | hel
        · exact hek ▸ hbk
        · obtain ⟨e', he', hkey⟩ := List.mem_map.mp hel
          exact hkey ▸ hb e' he'
      · exact List.pairwise_cons.mpr ⟨hb, hl⟩

def insert [Trans (α := κ) (· < ·) (· < ·) (· < ·)] (m : OrderedMap κ α) (k : κ) (x : α) :
    OrderedMap κ α where
  entries := insertEntry k x m.entries
  sorted := sorted_insertEntry k x m.sorted

theorem mem_values_insert [Trans (α := κ) (· < ·) (· < ·) (· < ·)] {m : OrderedMap κ α}
    {k : κ} {x v : α} (h : v ∈ (m.insert k x).values) : v = x ∨ v ∈ m.values :=
  value_of_mem_insertEntry h

theorem mem_of_findEntry {k : κ} {v : α} {l : List (κ × α)} (h : findEntry k l = some v) :
    v ∈ l.map Prod.snd := by
  induction l with
  | nil => simp [findEntry] at h
  | cons a l ih =>
      obtain ⟨b, w⟩ := a
      unfold findEntry at h
      split_ifs at h
      · exact List.mem_cons_of_mem w (ih h)
      · obtain rfl := Option.some.inj h
        exact List.mem_cons_self

theorem mem_values_of_find {m : OrderedMap κ α} {k : κ} {v : α} (h : m.find k = some v) :
    v ∈ m.values :=
  mem_of_findEntry h

end Insert

section Find

variable [DecidableLT κ] [DecidableEq κ] [Trans (α := κ) (· < ·) (· < ·) (· < ·)]
  [Std.Irrefl (α := κ) (· < ·)] [Std.Trichotomous (α := κ) (· < ·)]

omit [DecidableEq κ] [Trans (α := κ) (· < ·) (· < ·) (· < ·)] [Std.Irrefl (α := κ) (· < ·)]
  [Std.Trichotomous (α := κ) (· < ·)] in
@[simp] theorem find_empty (k : κ) : (∅ : OrderedMap κ α).find k = none := rfl

theorem findEntry_insertEntry (k k' : κ) (x : α) (l : List (κ × α)) :
    findEntry k' (insertEntry k x l) = if k' = k then some x else findEntry k' l := by
  have hirrefl : ∀ a : κ, ¬a < a := Std.Irrefl.irrefl
  have htrans : ∀ a b c : κ, a < b → b < c → a < c := fun a b c => Trans.trans
  have htri : ∀ a b : κ, ¬a < b → ¬b < a → a = b := Std.Trichotomous.trichotomous
  induction l with
  | nil =>
      simp only [insertEntry, findEntry]
      grind
  | cons a l ih =>
      obtain ⟨b, v⟩ := a
      unfold insertEntry
      split_ifs with hkb hbk hkk hkk hkk
      all_goals simp only [findEntry]
      all_goals grind

theorem find_insert (m : OrderedMap κ α) (k k' : κ) (x : α) :
    (m.insert k x).find k' = if k' = k then some x else m.find k' :=
  findEntry_insertEntry k k' x m.entries

omit [DecidableEq κ] in
theorem mem_iff_findEntry {k : κ} {x : α} {l : List (κ × α)}
    (hl : l.Pairwise fun x y => x.1 < y.1) : (k, x) ∈ l ↔ findEntry k l = some x := by
  have hirrefl : ∀ a : κ, ¬a < a := Std.Irrefl.irrefl
  have htrans : ∀ a b c : κ, a < b → b < c → a < c := fun a b c => Trans.trans
  have htri : ∀ a b : κ, ¬a < b → ¬b < a → a = b := Std.Trichotomous.trichotomous
  induction l with
  | nil => simp [findEntry]
  | cons a l ih =>
      obtain ⟨b, v⟩ := a
      obtain ⟨hb, hl⟩ := List.pairwise_cons.mp hl
      have hmem : (k, x) ∈ l ↔ findEntry k l = some x := ih hl
      have hne : findEntry k l = some x → b < k := fun h => hb _ (hmem.mpr h)
      rw [List.mem_cons, hmem, findEntry]
      grind

omit [DecidableEq κ] in
theorem mem_entries_iff (m : OrderedMap κ α) (k : κ) (x : α) :
    (k, x) ∈ m.entries ↔ m.find k = some x :=
  mem_iff_findEntry m.sorted

omit [DecidableEq κ] in
/-- A map is what lookups find in it. -/
theorem ext_find {m m' : OrderedMap κ α} (h : ∀ k, m.find k = m'.find k) : m = m' := by
  have hirrefl : ∀ a : κ, ¬a < a := Std.Irrefl.irrefl
  have htrans : ∀ a b c : κ, a < b → b < c → a < c := fun a b c => Trans.trans
  have hmem : ∀ e, e ∈ m.entries ↔ e ∈ m'.entries := by
    rintro ⟨k, x⟩
    rw [mem_entries_iff, mem_entries_iff, h]
  have hnodup : ∀ m : OrderedMap κ α, m.entries.Nodup := by
    refine fun m => m.sorted.imp ?_
    rintro a b hlt rfl
    exact hirrefl _ hlt
  have hperm := (List.perm_ext_iff_of_nodup (hnodup m) (hnodup m')).mpr hmem
  have hentries : m.entries = m'.entries := by
    refine hperm.eq_of_pairwise (fun a b _ _ hab hba => ?_) m.sorted m'.sorted
    exact absurd (htrans _ _ _ hab hba) (hirrefl _)
  obtain ⟨entries, sorted⟩ := m
  obtain rfl : entries = m'.entries := hentries
  rfl

omit [DecidableEq κ] [Trans (α := κ) (· < ·) (· < ·) (· < ·)] [Std.Irrefl (α := κ) (· < ·)]
  [Std.Trichotomous (α := κ) (· < ·)] in
theorem length_insertEntry {k : κ} {x : α} {l : List (κ × α)} (h : findEntry k l = none)
    (hl : l.Pairwise fun x y => x.1 < y.1) : (insertEntry k x l).length = l.length + 1 := by
  induction l with
  | nil => rfl
  | cons a l ih =>
      obtain ⟨b, v⟩ := a
      obtain ⟨-, hl⟩ := List.pairwise_cons.mp hl
      unfold insertEntry
      unfold findEntry at h
      split_ifs at h ⊢
      · rfl
      · rw [List.length_cons, ih h hl, List.length_cons]

omit [DecidableEq κ] [Std.Irrefl (α := κ) (· < ·)] [Std.Trichotomous (α := κ) (· < ·)] in
theorem length_entries_insert {m : OrderedMap κ α} {k : κ} {x : α} (h : m.find k = none) :
    (m.insert k x).entries.length = m.entries.length + 1 :=
  length_insertEntry h m.sorted

end Find

end OrderedMap

end Cpp
