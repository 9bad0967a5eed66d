import DistStorage.Utils.Cache

/-!
# The indexes of the cache

An index should hold one entry for each item, under the time of the item, and a flush
should leave no more than `max_size` items, none of them too old. But nothing puts an
entry into an index: the two are empty in every state, `flush_unsafe` has nothing to walk
along, and what has been put into the cache stays until a full flush.
-/

namespace DistStorage

namespace Utils

open Transition

namespace Cache

variable {κ ν τ : Type} [DecidableEq κ]

/-- The indexes hold exactly one entry for each item. -/
structure Indexed (c : Cache κ ν τ) : Prop where
  byAge : c.keyByAge.Perm (c.cacheItems.entries.map fun e => (e.2.createTimestamp, e.1))
  byAccess : c.keyByAccess.Perm (c.cacheItems.entries.map fun e => (e.2.accessTimestamp, e.1))

/-- What the limits leave at a time. -/
structure Trimmed [LT τ] [Sub τ] (c : Cache κ ν τ) (timestamp : τ) : Prop where
  size : c.cacheItems.entries.length ≤ c.maxSize
  age : ∀ key item, c.cacheItems.lookup key = some item →
    ¬item.createTimestamp < timestamp - c.maxAge
  inactivity : ∀ key item, c.cacheItems.lookup key = some item →
    ¬item.accessTimestamp < timestamp - c.maxInactivity

/-- Both indexes are empty. -/
structure Unindexed (c : Cache κ ν τ) : Prop where
  byAge : c.keyByAge = []
  byAccess : c.keyByAccess = []

variable {c : Cache κ ν τ}

/-- A flush throws nothing out. -/
theorem Unindexed.flushUnsafe [LT τ] [DecidableLT τ] [Sub τ] (h : c.Unindexed) (timestamp : τ) :
    c.flushUnsafe timestamp = c := by
  obtain ⟨items, byAge, byAccess⟩ := c
  obtain rfl : byAge = [] := h.byAge
  obtain rfl : byAccess = [] := h.byAccess
  rfl

omit [DecidableEq κ] in
theorem Unindexed.indexed_iff (h : c.Unindexed) : c.Indexed ↔ c.cacheItems.entries = [] := by
  constructor
  · intro hindexed
    have hperm := hindexed.byAge
    rw [h.byAge, List.nil_perm, List.map_eq_nil_iff] at hperm
    exact hperm
  · intro hitems
    refine ⟨?_, ?_⟩
    · rw [h.byAge, hitems, List.map_nil]
    · rw [h.byAccess, hitems, List.map_nil]

theorem lookup_of_entries_nil (h : c.cacheItems.entries = []) (key : κ) :
    c.cacheItems.lookup key = none := by
  rw [AList.lookup, h, List.dlookup_nil]

theorem trimmed_of_entries_nil [LT τ] [Sub τ] (h : c.cacheItems.entries = []) (timestamp : τ) :
    c.Trimmed timestamp := by
  refine ⟨?_, fun key item hitem => ?_, fun key item hitem => ?_⟩
  · rw [h]
    exact Nat.zero_le _
  · rw [lookup_of_entries_nil h key] at hitem
    cases hitem
  · rw [lookup_of_entries_nil h key] at hitem
    cases hitem

theorem Unindexed.flushed [LT τ] [DecidableLT τ] [Sub τ] (h : c.Unindexed) (timestamp : τ) :
    (c.flushUnsafe timestamp).Unindexed := by
  rw [h.flushUnsafe]
  exact h

omit [DecidableEq κ] in
theorem Unindexed.withItems (h : c.Unindexed) (items : CacheItems κ ν τ) :
    Unindexed { c with cacheItems := items } := ⟨h.byAge, h.byAccess⟩

theorem Unindexed.reserve (h : c.Unindexed) {key : κ} {item : CacheItem ν τ} {timestamp : τ}
    {d : Cache κ ν τ} (hreserve : c.reserve key item timestamp = some d) : d.Unindexed := by
  rw [Cache.reserve, Option.map_eq_some_iff] at hreserve
  obtain ⟨refs, -, rfl⟩ := hreserve
  exact h.withItems _

theorem Unindexed.emplace (h : c.Unindexed) (key : κ) (value : ν) (timestamp : τ) :
    (c.emplace key value timestamp).Unindexed := by
  rw [Cache.emplace]
  split
  · exact h
  · exact h.withItems _

theorem Unindexed.release [LT τ] [DecidableLT τ] [Sub τ] (h : c.Unindexed) {key : κ}
    {timestamp : τ} {d : Cache κ ν τ} (hrelease : c.release key timestamp = some d) :
    d.Unindexed := by
  rw [Cache.release] at hrelease
  split at hrelease
  · split_ifs at hrelease
    obtain rfl := Option.some.inj hrelease
    exact (h.withItems _).flushed timestamp
  · obtain rfl := Option.some.inj hrelease
    exact h.flushed timestamp

theorem Unindexed.flushAll (h : c.Unindexed) : c.flushAll.Unindexed := by
  refine ⟨?_, ?_⟩
  · rw [Cache.flushAll, removeKeysFromIndex, h.byAge, List.filter_nil]
  · rw [Cache.flushAll, removeKeysFromIndex, h.byAccess, List.filter_nil]

end Cache

namespace CacheEvent

variable {κ ν τ : Type}

/-- The event puts a value into the cache, unless its key is there. -/
def Inserts : CacheEvent κ ν τ → Prop
  | .insert _ _ _ => True
  | _ => False

instance : (e : CacheEvent κ ν τ) → Decidable e.Inserts
  | .insert _ _ _ => .isTrue trivial
  | .lookup _ _ | .createThrows _ | .release _ _ | .flush _ | .flushAll => .isFalse id

def flushTime : CacheEvent κ ν τ → Option τ
  | .release _ timestamp | .flush timestamp => some timestamp
  | _ => none

end CacheEvent

namespace CacheUse

variable {κ ν τ : Type} [DecidableEq κ] [LT τ] [DecidableLT τ] [Sub τ] {s t u : CacheUse κ ν τ}
  {e : CacheEvent κ ν τ} {es : List (CacheEvent κ ν τ)}

theorem unindexed_step (h : s.Unindexed) (hstep : s.step e = some t) : t.Unindexed := by
  cases e with
  | lookup key timestamp =>
      rw [step] at hstep
      split at hstep
      · obtain ⟨c, hc, rfl⟩ := Option.map_eq_some_iff.mp hstep
        exact h.reserve hc
      · obtain rfl := Option.some.inj hstep
        exact h
  | insert key value timestamp =>
      obtain rfl := Option.some.inj hstep
      exact h.emplace key value timestamp
  | createThrows key =>
      obtain rfl := Option.some.inj hstep
      exact h
  | release key timestamp =>
      obtain ⟨c, hc, rfl⟩ := Option.map_eq_some_iff.mp hstep
      exact h.release hc
  | flush timestamp =>
      obtain rfl := Option.some.inj hstep
      exact h.flushed timestamp
  | flushAll =>
      obtain rfl := Option.some.inj hstep
      exact h.flushAll

/-- The indexes are empty in every state, and so a flush never throws anything out. -/
theorem run_unindexed {maxSize : ℕ} {maxAge maxInactivity : τ}
    (hrun : run step (new maxSize maxAge maxInactivity) es = some t) : t.Unindexed :=
  run_invariant (I := fun s : CacheUse κ ν τ => s.Unindexed)
    (fun _ _ _ => unindexed_step) ⟨rfl, rfl⟩ hrun

theorem entries_nil_step (hindex : s.Unindexed) (hnil : s.cacheItems.entries = [])
    (he : ¬e.Inserts) (hstep : s.step e = some t) : t.cacheItems.entries = [] := by
  cases e with
  | lookup key timestamp =>
      rw [step, Cache.lookup_of_entries_nil hnil key] at hstep
      obtain rfl := Option.some.inj hstep
      exact hnil
  | insert key value timestamp => exact absurd trivial he
  | createThrows key =>
      obtain rfl := Option.some.inj hstep
      exact hnil
  | release key timestamp =>
      rw [step, Cache.release, Cache.lookup_of_entries_nil hnil key] at hstep
      obtain rfl := Option.some.inj hstep
      dsimp only
      rw [hindex.flushUnsafe]
      exact hnil
  | flush timestamp =>
      obtain rfl := Option.some.inj hstep
      dsimp only
      rw [hindex.flushUnsafe]
      exact hnil
  | flushAll =>
      obtain rfl := Option.some.inj hstep
      rw [Cache.flushAll, Cache.removeKeysFromIndex, AList.keys, hnil]
      exact hnil

theorem insert_entries_ne_nil (he : e.Inserts) (hstep : s.step e = some t) :
    t.cacheItems.entries ≠ [] := by
  cases e with
  | insert key value timestamp =>
      obtain rfl := Option.some.inj hstep
      intro hnil
      have hnone := Cache.lookup_of_entries_nil hnil key
      rw [Cache.emplace] at hnone
      split at hnone
      case h_1 item hitem => cases hitem.symm.trans hnone
      case h_2 hitem => cases (AList.lookup_insert s.cacheItems).symm.trans hnone
  | _ => exact he.elim

/-- The state after a run: the indexes are in step with the items, and a flush at its end
that finds no holder leaves no more than the limits allow. -/
structure InStep (es : List (CacheEvent κ ν τ)) (t : CacheUse κ ν τ) : Prop where
  indexed : t.Indexed
  trimmed : ∀ e timestamp, es.getLast? = some e → e.flushTime = some timestamp →
    t.holders = [] → t.Trimmed timestamp

theorem entries_nil_of_run {maxSize : ℕ} {maxAge maxInactivity : τ}
    (hes : ∀ e ∈ es, ¬e.Inserts)
    (hrun : run step (new maxSize maxAge maxInactivity) es = some t) :
    t.cacheItems.entries = [] := by
  have hstep : ∀ (s : CacheUse κ ν τ) (e : CacheEvent κ ν τ) (t : CacheUse κ ν τ),
      (s.Unindexed ∧ s.cacheItems.entries = []) → ¬e.Inserts → step s e = some t →
        (t.Unindexed ∧ t.cacheItems.entries = []) :=
    fun s e t h he ht => ⟨unindexed_step h.1 ht, entries_nil_step h.1 h.2 he ht⟩
  exact (run_invariant_of_allSteps hstep ⟨⟨rfl, rfl⟩, rfl⟩
    (allSteps_of_forall_mem (fun _ => hes) _) hrun).2

/-- The indexes are in step with the items in every state of a run, and every flush of it
keeps to the limits, exactly if the run puts nothing into the cache. -/
theorem inStep_iff (maxSize : ℕ) (maxAge maxInactivity : τ)
    (hrun : run step (new maxSize maxAge maxInactivity) es = some u) :
    (∀ e ∈ es, ¬e.Inserts) ↔
      ∀ pre t, pre <+: es → run step (new maxSize maxAge maxInactivity) pre = some t →
        InStep pre t := by
  constructor
  · intro hes pre t hpre ht
    have hnil := entries_nil_of_run (fun e he => hes e (hpre.subset he)) ht
    exact ⟨(run_unindexed ht).indexed_iff.mpr hnil,
      fun e timestamp _ _ _ => Cache.trimmed_of_entries_nil hnil timestamp⟩
  · intro h e he hinsert
    obtain ⟨pre, post, rfl⟩ := List.append_of_mem he
    rw [List.append_cons, run_append, Option.bind_eq_some_iff] at hrun
    obtain ⟨t, ht, -⟩ := hrun
    have hindexed := (h _ t ⟨post, List.append_cons pre e post ▸ rfl⟩ ht).indexed
    have hnil := (run_unindexed ht).indexed_iff.mp hindexed
    rw [run_append, Option.bind_eq_some_iff] at ht
    obtain ⟨s, -, hlast⟩ := ht
    obtain ⟨t', ht', hrest⟩ := run_cons_eq_some.mp hlast
    obtain rfl : t' = t := Option.some.inj hrest
    exact insert_entries_ne_nil hinsert ht' hnil

/-- The creation of the value throws, and at the second try it is put in. -/
theorem inStep_iff_createThrows :
    let es : List (CacheEvent ℕ ℕ ℤ) :=
      [.lookup 0 0, .createThrows 0, .flush 5, .lookup 0 6, .insert 0 7 8]
    (∀ pre t, pre <+: es.take 3 → run step (new 10 60 60) pre = some t → InStep pre t) ∧
      ¬∀ pre t, pre <+: es → run step (new 10 60 60) pre = some t → InStep pre t := by
  refine ⟨(inStep_iff 10 60 60 rfl).mp (by decide), fun h => ?_⟩
  exact (inStep_iff 10 60 60 rfl).mpr h (.insert 0 7 8) (by simp) trivial

/-- A value is put into a cache without room, released and flushed later than the limits
allow. Its holder is gone, and the item stays. -/
def keptItem : List (CacheEvent ℕ ℕ ℤ) :=
  [.lookup 0 0, .insert 0 7 1, .release 0 2, .flush 1000]

theorem keptItem_not_inStep :
    AllSteps step Possible (new 0 60 60) keptItem ∧
      ∃ t, run step (new 0 60 60) keptItem = some t ∧ t.holders = [] ∧ ¬t.Indexed ∧
        ¬t.Trimmed 1000 ∧ ¬InStep keptItem t := by
  have htrimmed : ∀ t : CacheUse ℕ ℕ ℤ, run step (new 0 60 60) keptItem = some t →
      ¬t.Trimmed 1000 := fun t ht h => by
    obtain rfl := Option.some.inj ht
    exact absurd h.size (by decide)
  refine ⟨by decide, _, rfl, rfl, fun h => ?_, htrimmed _ rfl, fun h => ?_⟩
  · have hperm := h.byAge.length_eq
    exact absurd hperm (by decide)
  · exact htrimmed _ rfl (h.trimmed (.flush 1000) 1000 rfl rfl rfl)

end CacheUse

end Utils

end DistStorage
