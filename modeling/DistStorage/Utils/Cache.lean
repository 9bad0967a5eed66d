import DistStorage.Cpp.Integer
import DistStorage.Transition.Defined

/-!
# The cache

A `Cache` counts in `refs` how often an item is reserved. A reservation looks for the
item under the lock; if there is none, the value is created without the lock and put in
under it, unless the key has come in between. The holder that a reservation returns
releases the item when it goes out of scope. What is old or not used for long is thrown
out by `flush`, along two indexes ordered by time, unless it is reserved.

Between the locked sections other threads come in, so a section is a step here. The
holders that are alive and the reservations whose value is being created belong to the
threads and are kept beside the cache. An entry of an index that has no item counts as
not reserved.
-/

namespace DistStorage

namespace Utils

open Cpp Transition

structure CacheItem (ν τ : Type) where
  createTimestamp : τ
  accessTimestamp : τ
  refs : ℤ
  value : ν
  deriving DecidableEq, Repr

abbrev CacheItems (κ ν τ : Type) := AList fun _ : κ => CacheItem ν τ

/-- The indexes are multimaps, whose entries are in the order of their times. -/
structure Cache (κ ν τ : Type) where
  cacheItems : CacheItems κ ν τ
  keyByAge : List (τ × κ)
  keyByAccess : List (τ × κ)
  maxSize : ℕ
  maxAge : τ
  maxInactivity : τ

namespace Cache

variable {κ ν τ : Type} [DecidableEq κ]

def new (maxSize : ℕ) (maxAge maxInactivity : τ) : Cache κ ν τ where
  cacheItems := ∅
  keyByAge := []
  keyByAccess := []
  maxSize := maxSize
  maxAge := maxAge
  maxInactivity := maxInactivity

/-- The references of an item. -/
def refs (items : CacheItems κ ν τ) (key : κ) : ℤ := (items.lookup key).elim 0 CacheItem.refs

/-- The loop of `flush_unsafe` along an index up to a time: the entries it leaves behind,
those from where it stops, and the items. -/
def flushBefore [LT τ] [DecidableLT τ] (limit : τ) :
    List (τ × κ) → CacheItems κ ν τ → List (τ × κ) × List (τ × κ) × CacheItems κ ν τ
  | [], items => ([], [], items)
  | (time, key) :: index, items =>
      if time < limit then
        if refs items key = 0 then flushBefore limit index (items.erase key)
        else
          let flushed := flushBefore limit index items
          ((time, key) :: flushed.1, flushed.2.1, flushed.2.2)
      else ([], (time, key) :: index, items)

/-- The loop that throws items out as long as there are too many. -/
def flushLarge (maxSize : ℕ) :
    List (τ × κ) → CacheItems κ ν τ → List (τ × κ) × CacheItems κ ν τ
  | [], items => ([], items)
  | (time, key) :: index, items =>
      if maxSize < items.entries.length then
        if refs items key = 0 then flushLarge maxSize index (items.erase key)
        else
          let flushed := flushLarge maxSize index items
          ((time, key) :: flushed.1, flushed.2)
      else ((time, key) :: index, items)

/-- The last loop goes on where the second one stopped. -/
def flushUnsafe [LT τ] [DecidableLT τ] [Sub τ] (c : Cache κ ν τ) (timestamp : τ) : Cache κ ν τ :=
  let aged := flushBefore (timestamp - c.maxAge) c.keyByAge c.cacheItems
  let unused := flushBefore (timestamp - c.maxInactivity) c.keyByAccess aged.2.2
  let large := flushLarge c.maxSize unused.2.1 unused.2.2
  { c with
    cacheItems := large.2
    keyByAge := aged.1 ++ aged.2.1
    keyByAccess := unused.1 ++ large.1 }

def removeKeysFromIndex (c : Cache κ ν τ) : Cache κ ν τ :=
  { c with
    keyByAge := c.keyByAge.filter fun e => (c.cacheItems.lookup e.2).isSome
    keyByAccess := c.keyByAccess.filter fun e => (c.cacheItems.lookup e.2).isSome }

def flushAll (c : Cache κ ν τ) : Cache κ ν τ :=
  let items := c.cacheItems.keys.foldl
    (fun items key => if refs items key = 0 then items.erase key else items) c.cacheItems
  removeKeysFromIndex { c with cacheItems := items }

/-- The first section of `get_reserve` when it finds the item. Counting beyond an `int`
is undefined. -/
def reserve (c : Cache κ ν τ) (key : κ) (item : CacheItem ν τ) (timestamp : τ) :
    Option (Cache κ ν τ) :=
  (intSucc item.refs).map fun refs =>
    { c with
      cacheItems := c.cacheItems.insert key
        { item with refs := refs, accessTimestamp := timestamp } }

/-- The second section of `get_reserve`, which puts nothing in when the key is there. -/
def emplace (c : Cache κ ν τ) (key : κ) (value : ν) (timestamp : τ) : Cache κ ν τ :=
  match c.cacheItems.lookup key with
  | some _ => c
  | none =>
      { c with
        cacheItems := c.cacheItems.insert key
          { createTimestamp := timestamp, accessTimestamp := timestamp, refs := 1,
            value := value } }

def release [LT τ] [DecidableLT τ] [Sub τ] (c : Cache κ ν τ) (key : κ) (timestamp : τ) :
    Option (Cache κ ν τ) :=
  match c.cacheItems.lookup key with
  | some item =>
      if item.refs = -2 ^ 31 then none
      else
        let items := c.cacheItems.insert key { item with refs := item.refs - 1 }
        some (flushUnsafe { c with cacheItems := items } timestamp)
  | none => some (flushUnsafe c timestamp)

section Refs

variable {items : CacheItems κ ν τ} {key : κ}

theorem refs_of_lookup {item : CacheItem ν τ} (h : items.lookup key = some item) :
    refs items key = item.refs := by
  rw [refs, h, Option.elim_some]

theorem refs_of_lookup_none (h : items.lookup key = none) : refs items key = 0 := by
  rw [refs, h, Option.elim_none]

theorem refs_insert (items : CacheItems κ ν τ) (key key' : κ) (item : CacheItem ν τ) :
    refs (items.insert key item) key' = if key' = key then item.refs else refs items key' := by
  split_ifs with hkey
  · rw [hkey, refs_of_lookup (AList.lookup_insert items)]
  · rw [refs, AList.lookup_insert_ne hkey, refs]

theorem refs_erase (h : refs items key = 0) (key' : κ) :
    refs (items.erase key) key' = refs items key' := by
  by_cases hkey : key' = key
  · rw [hkey, refs_of_lookup_none (AList.lookup_erase key items), h]
  · rw [refs, AList.lookup_erase_ne hkey, refs]

theorem refs_flushBefore [LT τ] [DecidableLT τ] (limit : τ) (index : List (τ × κ))
    (items : CacheItems κ ν τ) (key : κ) :
    refs (flushBefore limit index items).2.2 key = refs items key := by
  induction index generalizing items with
  | nil => rfl
  | cons e index ih =>
      obtain ⟨time, key'⟩ := e
      rw [flushBefore]
      split_ifs with hold hfree
      · rw [ih, refs_erase hfree]
      · exact ih items
      · rfl

theorem refs_flushLarge (maxSize : ℕ) (index : List (τ × κ)) (items : CacheItems κ ν τ)
    (key : κ) : refs (flushLarge maxSize index items).2 key = refs items key := by
  induction index generalizing items with
  | nil => rfl
  | cons e index ih =>
      obtain ⟨time, key'⟩ := e
      rw [flushLarge]
      split_ifs with hlarge hfree
      · rw [ih, refs_erase hfree]
      · exact ih items
      · rfl

theorem refs_flushUnsafe [LT τ] [DecidableLT τ] [Sub τ] (c : Cache κ ν τ) (timestamp : τ)
    (key : κ) : refs (c.flushUnsafe timestamp).cacheItems key = refs c.cacheItems key := by
  rw [flushUnsafe]
  simp only [refs_flushLarge, refs_flushBefore]

theorem refs_flushAll (c : Cache κ ν τ) (key : κ) :
    refs c.flushAll.cacheItems key = refs c.cacheItems key := by
  have hfold : ∀ (keys : List κ) (items : CacheItems κ ν τ),
      refs (keys.foldl (fun items key => if refs items key = 0 then items.erase key else items)
        items) key = refs items key := by
    intro keys
    induction keys with
    | nil => exact fun items => rfl
    | cons key' keys ih =>
        intro items
        rw [List.foldl_cons, ih]
        split_ifs with hfree
        · exact refs_erase hfree key
        · rfl
  exact hfold c.cacheItems.keys c.cacheItems

end Refs

end Cache

/-- The cache, the keys of the holders that are alive and those of the values that are
being created. -/
structure CacheUse (κ ν τ : Type) extends Cache κ ν τ where
  holders : List κ := []
  creating : List κ := []

/-- The sections, each with the time it reads, and the end of a reservation whose value
could not be created. -/
inductive CacheEvent (κ ν τ : Type)
  | lookup (key : κ) (timestamp : τ)
  | insert (key : κ) (value : ν) (timestamp : τ)
  | createThrows (key : κ)
  | release (key : κ) (timestamp : τ)
  | flush (timestamp : τ)
  | flushAll

namespace CacheUse

variable {κ ν τ : Type} [DecidableEq κ] [LT τ] [DecidableLT τ] [Sub τ]

def new (maxSize : ℕ) (maxAge maxInactivity : τ) : CacheUse κ ν τ where
  toCache := .new maxSize maxAge maxInactivity

/-- A value is put in by a reservation that has created it, and an item is released by a
holder. -/
def Possible (s : CacheUse κ ν τ) : CacheEvent κ ν τ → Prop
  | .insert key _ _ | .createThrows key => key ∈ s.creating
  | .release key _ => key ∈ s.holders
  | _ => True

instance decidablePossible (s : CacheUse κ ν τ) (e : CacheEvent κ ν τ) :
    Decidable (s.Possible e) :=
  match e with
  | .lookup _ _ | .flush _ | .flushAll => .isTrue trivial
  | .insert key _ _ | .createThrows key => inferInstanceAs (Decidable (key ∈ s.creating))
  | .release key _ => inferInstanceAs (Decidable (key ∈ s.holders))

def step (s : CacheUse κ ν τ) : CacheEvent κ ν τ → Option (CacheUse κ ν τ)
  | .lookup key timestamp =>
      match s.cacheItems.lookup key with
      | some item =>
          (s.toCache.reserve key item timestamp).map fun c =>
            { s with toCache := c, holders := key :: s.holders }
      | none => some { s with creating := key :: s.creating }
  | .insert key value timestamp =>
      some { s with
        toCache := s.toCache.emplace key value timestamp
        holders := key :: s.holders
        creating := s.creating.erase key }
  | .createThrows key => some { s with creating := s.creating.erase key }
  | .release key timestamp =>
      (s.toCache.release key timestamp).map fun c =>
        { s with toCache := c, holders := s.holders.erase key }
  | .flush timestamp => some { s with toCache := s.toCache.flushUnsafe timestamp }
  | .flushAll => some { s with toCache := s.toCache.flushAll }

/-- The references of an item are the holders of its key, and a key with a holder has an
item. -/
structure RefsCounted (s : CacheUse κ ν τ) : Prop where
  counted : ∀ key item, s.cacheItems.lookup key = some item → item.refs = s.holders.count key
  nonneg : ∀ key item, s.cacheItems.lookup key = some item → 0 ≤ item.refs
  held : ∀ key ∈ s.holders, (s.cacheItems.lookup key).isSome = true

omit [LT τ] [DecidableLT τ] [Sub τ] in
theorem refsCounted_iff_refs {s : CacheUse κ ν τ} :
    RefsCounted s ↔ ∀ key, Cache.refs s.cacheItems key = s.holders.count key := by
  constructor
  · intro h key
    cases hitem : s.cacheItems.lookup key with
    | some item => rw [Cache.refs_of_lookup hitem, h.counted key item hitem]
    | none =>
        have hnot : key ∉ s.holders := fun hkey => by
          have hheld := h.held key hkey
          rw [hitem] at hheld
          cases hheld
        rw [Cache.refs_of_lookup_none hitem, List.count_eq_zero_of_not_mem hnot, Nat.cast_zero]
  · intro h
    have hcounted : ∀ key item, s.cacheItems.lookup key = some item →
        item.refs = s.holders.count key := fun key item hitem => by
      rw [← Cache.refs_of_lookup hitem, h key]
    refine ⟨hcounted, fun key item hitem => ?_, fun key hkey => ?_⟩
    · rw [hcounted key item hitem]
      exact Int.natCast_nonneg _
    · by_contra hnone
      have hzero := h key
      rw [Cache.refs_of_lookup_none (Option.not_isSome_iff_eq_none.mp hnone)] at hzero
      have hpos := List.count_pos_iff.mpr hkey
      omega

/-- A reservation counts the item up within an `int`, or finds its key still absent when
it puts the value in. -/
def Counts (s : CacheUse κ ν τ) : CacheEvent κ ν τ → Prop
  | .lookup key _ => Cache.refs s.cacheItems key ≠ intMax
  | .insert key _ _ => s.cacheItems.lookup key = none
  | _ => True

instance (s : CacheUse κ ν τ) : (e : CacheEvent κ ν τ) → Decidable (s.Counts e)
  | .lookup key _ => inferInstanceAs (Decidable (Cache.refs s.cacheItems key ≠ intMax))
  | .insert key _ _ => inferInstanceAs (Decidable (s.cacheItems.lookup key = none))
  | .createThrows _ | .release _ _ | .flush _ | .flushAll => .isTrue trivial

section Sections

variable {s : CacheUse κ ν τ}

omit [LT τ] [DecidableLT τ] [Sub τ] in
/-- The item of a key is counted up for a holder more. -/
theorem refs_insert_cons {items : CacheItems κ ν τ} {holders : List κ} {key : κ}
    {item : CacheItem ν τ} (hrefs : ∀ key, Cache.refs items key = holders.count key)
    (hitem : item.refs = Cache.refs items key + 1) (key' : κ) :
    Cache.refs (items.insert key item) key' = (key :: holders).count key' := by
  rw [Cache.refs_insert]
  by_cases hkey : key' = key
  · rw [if_pos hkey, hkey, hitem, hrefs key, List.count_cons_self, Nat.cast_add, Nat.cast_one]
  · rw [if_neg hkey, hrefs key', List.count_cons_of_ne (Ne.symm hkey)]

theorem lookup_counted_iff (h : RefsCounted s) (key : κ) (timestamp : τ) :
    (∃ t, s.step (.lookup key timestamp) = some t ∧ RefsCounted t) ↔
      s.Counts (.lookup key timestamp) := by
  have hrefs := refsCounted_iff_refs.mp h
  rw [step, Counts]
  cases hitem : s.cacheItems.lookup key with
  | none =>
      refine iff_of_true ⟨_, rfl, refsCounted_iff_refs.mpr hrefs⟩ ?_
      rw [Cache.refs_of_lookup_none hitem]
      decide
  | some item =>
      rw [Cache.refs_of_lookup hitem]
      by_cases hmax : item.refs = intMax
      · refine iff_of_false ?_ (not_not_intro hmax)
        rintro ⟨t, ht, -⟩
        simp [Cache.reserve, intSucc, hmax] at ht
      · refine iff_of_true ?_ hmax
        simp only [Cache.reserve, intSucc, if_neg hmax, Option.map_some, Option.some.injEq,
          exists_eq_left']
        refine refsCounted_iff_refs.mpr (refs_insert_cons hrefs ?_)
        rw [Cache.refs_of_lookup hitem]

/-- A reservation that finds its key when it puts the value in has a holder more than
what it has counted. -/
theorem insert_counted_iff (h : RefsCounted s) (key : κ) (value : ν) (timestamp : τ) :
    (∃ t, s.step (.insert key value timestamp) = some t ∧ RefsCounted t) ↔
      s.Counts (.insert key value timestamp) := by
  have hrefs := refsCounted_iff_refs.mp h
  rw [step, Counts, Cache.emplace]
  cases hitem : s.cacheItems.lookup key with
  | none =>
      refine iff_of_true ⟨_, rfl, refsCounted_iff_refs.mpr (refs_insert_cons hrefs ?_)⟩ rfl
      rw [Cache.refs_of_lookup_none hitem, zero_add]
  | some item =>
      refine iff_of_false ?_ (by simp)
      rintro ⟨t, ht, hcounted⟩
      obtain rfl := Option.some.inj ht
      have hmore := refsCounted_iff_refs.mp hcounted key
      have hbefore := hrefs key
      rw [List.count_cons_self] at hmore
      dsimp only at hmore
      omega

theorem release_counted (h : RefsCounted s) {key : κ} (timestamp : τ) (hkey : key ∈ s.holders) :
    ∃ t, s.step (.release key timestamp) = some t ∧ RefsCounted t := by
  have hrefs := refsCounted_iff_refs.mp h
  have hpos := List.count_pos_iff.mpr hkey
  obtain ⟨item, hitem⟩ := Option.isSome_iff_exists.mp (h.held key hkey)
  have hcount := hrefs key
  rw [Cache.refs_of_lookup hitem] at hcount
  have hmin : item.refs ≠ -2 ^ 31 := by omega
  rw [step, Cache.release, hitem]
  dsimp only
  rw [if_neg hmin]
  refine ⟨_, rfl, refsCounted_iff_refs.mpr fun key' => ?_⟩
  dsimp only
  rw [Cache.refs_flushUnsafe, Cache.refs_insert, List.count_erase]
  split_ifs with hkey' hbeq hbeq
  · rw [hkey']
    dsimp only
    omega
  · exact absurd (beq_iff_eq.mpr hkey'.symm) hbeq
  · exact absurd (beq_iff_eq.mp hbeq).symm hkey'
  · rw [hrefs key', Nat.sub_zero]

/-- What a section does to the counts, whatever its order among the others. -/
theorem step_counted_iff {e : CacheEvent κ ν τ} (h : RefsCounted s) (hpossible : s.Possible e) :
    (∃ t, s.step e = some t ∧ RefsCounted t) ↔ s.Counts e := by
  have hrefs := refsCounted_iff_refs.mp h
  cases e with
  | lookup key timestamp => exact lookup_counted_iff h key timestamp
  | insert key value timestamp => exact insert_counted_iff h key value timestamp
  | createThrows key =>
      exact iff_of_true ⟨_, rfl, refsCounted_iff_refs.mpr hrefs⟩ trivial
  | release key timestamp => exact iff_of_true (release_counted h timestamp hpossible) trivial
  | flush timestamp =>
      refine iff_of_true ⟨_, rfl, refsCounted_iff_refs.mpr fun key => ?_⟩ trivial
      exact (Cache.refs_flushUnsafe _ timestamp key).trans (hrefs key)
  | flushAll =>
      refine iff_of_true ⟨_, rfl, refsCounted_iff_refs.mpr fun key => ?_⟩ trivial
      exact (Cache.refs_flushAll _ key).trans (hrefs key)

end Sections

omit [LT τ] [DecidableLT τ] [Sub τ] in
theorem refsCounted_new (maxSize : ℕ) (maxAge maxInactivity : τ) :
    RefsCounted (new maxSize maxAge maxInactivity : CacheUse κ ν τ) :=
  refsCounted_iff_refs.mpr fun _ => rfl

/-- Two threads miss the same key and both create it. When the first of them releases it,
the other one still holds it, and a full flush throws it out. -/
def twoCreations : List (CacheEvent ℕ ℕ ℤ) :=
  [.lookup 0 0, .lookup 0 1, .insert 0 7 2, .insert 0 7 3, .release 0 4, .flushAll]

theorem twoCreations_not_refsCounted :
    AllSteps step Possible (new 10 60 60) twoCreations ∧
      ¬ ∀ pre, pre <+: twoCreations →
        ∃ t, run step (new 10 60 60) pre = some t ∧ RefsCounted t := by
  refine ⟨by decide, fun h => ?_⟩
  obtain ⟨t, ht, hcounted⟩ := h twoCreations (List.prefix_refl _)
  have hholders : (run step (new 10 60 60) twoCreations).map (fun t => t.holders) = some [0] := rfl
  have hthrown : (run step (new 10 60 60) twoCreations).map
    (fun t => (t.cacheItems.lookup 0).isSome) = some false := rfl
  rw [ht, Option.map_some, Option.some.injEq] at hholders hthrown
  have hheld := hcounted.held 0 (hholders ▸ List.mem_singleton.mpr rfl)
  rw [hthrown] at hheld
  cases hheld

/-- The references of the items are the holders, and what is held stays, in every state of
a run of sections exactly if every value that is put in finds its key absent, and no item
is reserved more often than an `int` can count. -/
theorem refsCounted_iff (maxSize : ℕ) (maxAge maxInactivity : τ) (es : List (CacheEvent κ ν τ))
    (hpossible : AllSteps step Possible (new maxSize maxAge maxInactivity) es) :
    AllSteps step Counts (new maxSize maxAge maxInactivity) es ↔
      ∀ pre, pre <+: es →
        ∃ t, run step (new maxSize maxAge maxInactivity) pre = some t ∧ RefsCounted t :=
  allSteps_iff_defined (fun _ _ h hpossible => step_counted_iff h hpossible)
    (refsCounted_new maxSize maxAge maxInactivity) hpossible

/-- A key is created, reserved twice and released, and thrown out when no holder is left. -/
def reservedTwice : List (CacheEvent ℕ ℕ ℤ) :=
  [.lookup 0 0, .insert 0 7 1, .lookup 0 2, .release 0 3, .flushAll, .release 0 4, .flushAll]

theorem refsCounted_iff_reserved :
    AllSteps step Counts (new 10 60 60) reservedTwice ∧
      ∀ pre, pre <+: reservedTwice →
        ∃ t, run step (new 10 60 60) pre = some t ∧ RefsCounted t := by
  have hcounts : AllSteps step Counts (new 10 60 60) reservedTwice := by decide
  exact ⟨hcounts, (refsCounted_iff 10 60 60 reservedTwice (by decide)).mp hcounts⟩

end CacheUse

end Utils

end DistStorage
