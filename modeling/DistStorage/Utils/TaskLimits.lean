import DistStorage.Cpp.Integer
import DistStorage.Utils.TaskRunner

/-!
# Limits on the tasks that wait

`pop_tasks` goes through the set once. It counts the tasks of one priority that follow
each other, takes out those past the limit and those that are too old, and puts them back
with the priority `-1`, which the loop itself passes over. A task that is put back is run
like the others, with the status that says why it was taken out.

The loop is described by the stretches of equal priority among the tasks that it looks at;
its counter stays within an `int` if none of them is longer than that.
Where the set is ordered by the priorities there is one stretch for each of them.
-/

namespace DistStorage

namespace Utils

open Cpp Transition

namespace TaskContainer

variable {α τ : Type}

/-- What `pop_tasks` makes of a task that it takes out. -/
def expire (status : TaskStatus) (task : TaskContainer α τ) : TaskContainer α τ :=
  { task with status := status, priority := -1 }

@[simp] theorem key_expire (status : TaskStatus) (task : TaskContainer α τ) :
    (task.expire status).key = task.key := rfl

def Expired (task : TaskContainer α τ) : Prop :=
  task.priority = -1 ∧ (task.status = .timeout ∨ task.status = .overload)

/-- The loop passes over a task that is cancelled or was taken out before. -/
def active (task : TaskContainer α τ) : Bool := task.priority ≠ -1

def samePriority (a b : TaskContainer α τ) : Bool := a.priority = b.priority

def getPriority (task : TaskContainer α τ) : ℤ := task.priority

def getTimestamp (task : TaskContainer α τ) : ℤ := task.priority

def newestFirst (a b : TaskContainer α τ) : Bool :=
  if a.getTimestamp = b.getTimestamp then a.getPriority < b.getPriority
  else a.getTimestamp < b.getTimestamp

def oldestFirst (a b : TaskContainer α τ) : Bool :=
  if a.getTimestamp = b.getTimestamp then a.getPriority < b.getPriority
  else a.getTimestamp > b.getTimestamp

/-- Neither comparator looks at the time. -/
theorem newestFirst_iff (a b : TaskContainer α τ) :
    a.newestFirst b = true ↔ a.priority < b.priority := by
  unfold newestFirst getTimestamp getPriority
  split_ifs with h <;> simp [h]

theorem oldestFirst_iff (a b : TaskContainer α τ) :
    a.oldestFirst b = true ↔ b.priority < a.priority := by
  unfold oldestFirst getTimestamp getPriority
  split_ifs with h <;> simp [h]

end TaskContainer

namespace TaskRunner

section Stretches

variable {α τ : Type}

/-- Stretches of tasks that the loop looks at, one after the other. -/
structure Stretches (stretches : List (List (TaskContainer α τ))) : Prop where
  nonempty : [] ∉ stretches
  active : ∀ stretch ∈ stretches, ∀ task ∈ stretch, task.priority ≠ -1
  same : ∀ stretch ∈ stretches, stretch.IsChain fun a b => a.samePriority b
  apart : stretches.IsChain fun a b => ∃ ha hb, (a.getLast ha).samePriority (b.head hb) = false

theorem Stretches.tail {stretch : List (TaskContainer α τ)}
    {stretches : List (List (TaskContainer α τ))} (h : Stretches (stretch :: stretches)) :
    Stretches stretches where
  nonempty := fun hmem => h.nonempty (List.mem_cons_of_mem _ hmem)
  active := fun g hg => h.active g (List.mem_cons_of_mem _ hg)
  same := fun g hg => h.same g (List.mem_cons_of_mem _ hg)
  apart := h.apart.tail

/-- All tasks of a stretch have the priority of the first. -/
theorem priority_of_isChain {first : TaskContainer α τ} {stretch : List (TaskContainer α τ)}
    (h : (first :: stretch).IsChain fun a b => a.samePriority b) :
    ∀ task ∈ first :: stretch, task.priority = first.priority := by
  have htrans : IsTrans (TaskContainer α τ) fun a b => a.samePriority b = true :=
    ⟨fun a b c hab hbc => by simp_all [TaskContainer.samePriority]⟩
  have hpairwise := (List.isChain_iff_pairwise.mp h)
  intro task htask
  rcases List.mem_cons.mp htask with rfl | htask
  · rfl
  · have hsame := List.rel_of_pairwise_cons hpairwise htask
    simpa [TaskContainer.samePriority, eq_comm] using hsame

/-- The tasks that the loop looks at, in stretches of equal priority. -/
def stretchesOf (tasks : List (TaskContainer α τ)) : List (List (TaskContainer α τ)) :=
  (tasks.filter TaskContainer.active).splitBy TaskContainer.samePriority

theorem flatten_stretchesOf (tasks : List (TaskContainer α τ)) :
    (stretchesOf tasks).flatten = tasks.filter TaskContainer.active :=
  List.flatten_splitBy _ _

theorem stretches_stretchesOf (tasks : List (TaskContainer α τ)) :
    Stretches (stretchesOf tasks) where
  nonempty := List.nil_notMem_splitBy _ _
  active := by
    intro stretch hstretch task htask
    have hmem : task ∈ tasks.filter TaskContainer.active := by
      rw [← flatten_stretchesOf tasks]
      exact List.mem_flatten.mpr ⟨stretch, hstretch, htask⟩
    simpa [TaskContainer.active] using (List.mem_filter.mp hmem).2
  same := fun _ => List.isChain_of_mem_splitBy
  apart := List.isChain_getLast_head_splitBy _ _

/-- The first of all tasks is none that the loop passes over. -/
theorem head_stretchesOf (tasks : List (TaskContainer α τ)) :
    ∀ stretch ∈ (stretchesOf tasks).head?, ∀ task ∈ stretch.head?, task.priority ≠ -1 :=
  fun stretch hstretch task htask => (stretches_stretchesOf tasks).active stretch
    (List.mem_of_mem_head? hstretch) task (List.mem_of_mem_head? htask)

/-- The next stretch begins with another priority. -/
theorem Stretches.next {first : TaskContainer α τ} {stretch : List (TaskContainer α τ)}
    {stretches : List (List (TaskContainer α τ))}
    (h : Stretches ((first :: stretch) :: stretches)) :
    ∀ g ∈ stretches.head?, ∀ task ∈ g.head?, task.priority ≠ first.priority := by
  intro g hg task htask
  obtain ⟨ha, hb, hapart⟩ := (List.isChain_cons.mp h.apart).1 g hg
  have hlast := priority_of_isChain (h.same _ List.mem_cons_self) _ (List.getLast_mem ha)
  have hhead : g.head hb = task := List.head_of_mem_head? htask
  rw [TaskContainer.samePriority, hlast, hhead, decide_eq_false_iff_not] at hapart
  exact fun heq => hapart heq.symm

def Ordered (tasks : List (TaskContainer α τ)) : Prop :=
  tasks.Pairwise (fun a b => b.newestFirst a = false) ∨
    tasks.Pairwise fun a b => b.oldestFirst a = false

theorem exists_order {tasks : List (TaskContainer α τ)} (h : Ordered tasks) :
    ∃ R : ℤ → ℤ → Prop, (∀ a b, R a b → R b a → a = b) ∧
      (tasks.filter TaskContainer.active).Pairwise fun a b => R a.priority b.priority := by
  rcases h with h | h
  · refine ⟨(· ≤ ·), fun _ _ => le_antisymm, (h.imp fun {a b} hab => ?_).filter _⟩
    rw [Bool.eq_false_iff, ne_eq, TaskContainer.newestFirst_iff] at hab
    exact not_lt.mp hab
  · refine ⟨(· ≥ ·), fun _ _ h h' => le_antisymm h' h, (h.imp fun {a b} hab => ?_).filter _⟩
    rw [Bool.eq_false_iff, ne_eq, TaskContainer.oldestFirst_iff] at hab
    exact not_lt.mp hab

end Stretches

variable {α τ : Type} [LT τ] [DecidableLT τ]

/-- The loop of `pop_tasks`: the tasks that stay in the set, and `popped_tasks`. Counting
beyond an `int` is undefined. -/
def popLoop (maxPerPriority : ℤ) (olderThan : τ) (cnt lastPriority : ℤ) :
    List (TaskContainer α τ) → Option (List (TaskContainer α τ) × List (TaskContainer α τ))
  | [] => some ([], [])
  | task :: rest =>
      if task.priority = -1 then
        (popLoop maxPerPriority olderThan cnt lastPriority rest).map fun (kept, popped) =>
          (task :: kept, popped)
      else
        (if task.priority = lastPriority then intSucc cnt else some 1).bind fun cnt =>
          (popLoop maxPerPriority olderThan cnt task.priority rest).map fun (kept, popped) =>
            if maxPerPriority < cnt then (kept, task.expire .overload :: popped)
            else if task.timestamp < olderThan then (kept, task.expire .timeout :: popped)
            else (task :: kept, popped)

/-- The loop with a counter that has no bound. -/
def cutLoop (maxPerPriority : ℤ) (olderThan : τ) (cnt : ℕ) (lastPriority : ℤ) :
    List (TaskContainer α τ) → List (TaskContainer α τ) × List (TaskContainer α τ)
  | [] => ([], [])
  | task :: rest =>
      if task.priority = -1 then
        let (kept, popped) := cutLoop maxPerPriority olderThan cnt lastPriority rest
        (task :: kept, popped)
      else
        let cnt := if task.priority = lastPriority then cnt + 1 else 1
        let (kept, popped) := cutLoop maxPerPriority olderThan cnt task.priority rest
        if maxPerPriority < cnt then (kept, task.expire .overload :: popped)
        else if task.timestamp < olderThan then (kept, task.expire .timeout :: popped)
        else (task :: kept, popped)

def emplaceAll (tasks : List (TaskContainer α τ)) :
    List (TaskContainer α τ) → List ℕ → List (TaskContainer α τ)
  | [], _ => tasks
  | task :: rest, places =>
      let place := places.headD 0
      emplaceAll (tasks.take place ++ task :: tasks.drop place) rest places.tail

def popTasks (s : TaskRunner α τ) (maxPerPriority : ℤ) (olderThan : τ) (places : List ℕ) :
    Option (TaskRunner α τ) :=
  (popLoop maxPerPriority olderThan 0 (-1) s.tasks).map fun (kept, popped) =>
    { s with tasks := emplaceAll kept popped places }

section Loop

variable {maxPerPriority : ℤ} {olderThan : τ}

/-- What stays of a stretch of equal priority of which `cnt` tasks have been counted. -/
def keptOf (maxPerPriority : ℤ) (olderThan : τ) (cnt : ℕ) (stretch : List (TaskContainer α τ)) :
    List (TaskContainer α τ) :=
  (stretch.take (maxPerPriority.toNat - cnt)).filter fun task => ¬ task.timestamp < olderThan

/-- What is taken out of it. -/
def poppedOf (maxPerPriority : ℤ) (olderThan : τ) (cnt : ℕ)
    (stretch : List (TaskContainer α τ)) : List (TaskContainer α τ) :=
  ((stretch.take (maxPerPriority.toNat - cnt)).filter fun task => task.timestamp < olderThan).map
      (TaskContainer.expire .timeout) ++
    (stretch.drop (maxPerPriority.toNat - cnt)).map (TaskContainer.expire .overload)

/-- A stretch is cut one task at a time. -/
theorem keptOf_cons (cnt : ℕ) (task : TaskContainer α τ) (stretch : List (TaskContainer α τ)) :
    keptOf maxPerPriority olderThan cnt (task :: stretch) =
      keptOf maxPerPriority olderThan cnt [task] ++
        keptOf maxPerPriority olderThan (cnt + 1) stretch := by
  unfold keptOf
  rcases Nat.eq_zero_or_pos (maxPerPriority.toNat - cnt) with hzero | hpos
  · have hnext : maxPerPriority.toNat - (cnt + 1) = 0 := by omega
    simp [hzero, hnext]
  · have hsucc : maxPerPriority.toNat - cnt = maxPerPriority.toNat - (cnt + 1) + 1 := by omega
    rw [hsucc, List.take_succ_cons, List.take_succ_cons, List.take_nil, ← List.filter_append]
    rfl

theorem poppedOf_cons (cnt : ℕ) (task : TaskContainer α τ) (stretch : List (TaskContainer α τ)) :
    poppedOf maxPerPriority olderThan cnt (task :: stretch) =
      poppedOf maxPerPriority olderThan cnt [task] ++
        poppedOf maxPerPriority olderThan (cnt + 1) stretch := by
  unfold poppedOf
  rcases Nat.eq_zero_or_pos (maxPerPriority.toNat - cnt) with hzero | hpos
  · have hnext : maxPerPriority.toNat - (cnt + 1) = 0 := by omega
    simp [hzero, hnext]
  · have hsucc : maxPerPriority.toNat - cnt = maxPerPriority.toNat - (cnt + 1) + 1 := by omega
    rw [hsucc]
    by_cases hold : task.timestamp < olderThan <;> simp [hold]

/-- A task that the loop looks at is the first of a stretch, or the next one of it. -/
theorem cutLoop_cons {task : TaskContainer α τ} (hactive : task.priority ≠ -1) {cnt k : ℕ}
    {lastPriority : ℤ} (hk : (if task.priority = lastPriority then cnt else 0) = k)
    (rest : List (TaskContainer α τ)) :
    cutLoop maxPerPriority olderThan cnt lastPriority (task :: rest) =
      (keptOf maxPerPriority olderThan k [task] ++
          (cutLoop maxPerPriority olderThan (k + 1) task.priority rest).1,
        poppedOf maxPerPriority olderThan k [task] ++
          (cutLoop maxPerPriority olderThan (k + 1) task.priority rest).2) := by
  have hcount : (if task.priority = lastPriority then cnt + 1 else 1) = k + 1 := by
    rw [← hk]
    split_ifs <;> rfl
  rw [cutLoop, if_neg hactive]
  simp only [hcount]
  unfold keptOf poppedOf
  by_cases hover : maxPerPriority ≤ k
  · have hzero : maxPerPriority.toNat - k = 0 := by omega
    simp [hover, hzero]
  · obtain ⟨n, hn⟩ : ∃ n, maxPerPriority.toNat - k = n + 1 :=
      ⟨maxPerPriority.toNat - k - 1, by omega⟩
    by_cases hold : task.timestamp < olderThan <;> simp [hover, hn, hold]

theorem cutLoop_stretch {p : ℤ} (hp : p ≠ -1) {stretch : List (TaskContainer α τ)}
    (hstretch : ∀ task ∈ stretch, task.priority = p) (cnt : ℕ)
    (rest : List (TaskContainer α τ)) :
    cutLoop maxPerPriority olderThan cnt p (stretch ++ rest) =
      (keptOf maxPerPriority olderThan cnt stretch ++
          (cutLoop maxPerPriority olderThan (cnt + stretch.length) p rest).1,
        poppedOf maxPerPriority olderThan cnt stretch ++
          (cutLoop maxPerPriority olderThan (cnt + stretch.length) p rest).2) := by
  induction stretch generalizing cnt with
  | nil => simp [keptOf, poppedOf]
  | cons task stretch ih =>
      have htask : task.priority = p := hstretch task List.mem_cons_self
      have hlength : cnt + 1 + stretch.length = cnt + (task :: stretch).length := by
        rw [List.length_cons]
        omega
      rw [List.cons_append, cutLoop_cons (by rwa [htask]) (if_pos htask), htask,
        ih (fun t ht => hstretch t (List.mem_cons_of_mem _ ht)), hlength,
        keptOf_cons cnt task stretch, poppedOf_cons cnt task stretch]
      simp only [List.append_assoc]

theorem cutLoop_stretches {stretches : List (List (TaskContainer α τ))} (h : Stretches stretches)
    (cnt : ℕ) {lastPriority : ℤ}
    (hlast : ∀ stretch ∈ stretches.head?, ∀ task ∈ stretch.head?, task.priority ≠ lastPriority) :
    cutLoop maxPerPriority olderThan cnt lastPriority stretches.flatten =
      (stretches.flatMap (keptOf maxPerPriority olderThan 0),
        stretches.flatMap (poppedOf maxPerPriority olderThan 0)) := by
  induction stretches generalizing cnt lastPriority with
  | nil => rfl
  | cons stretch stretches ih =>
      cases stretch with
      | nil => exact absurd List.mem_cons_self h.nonempty
      | cons first stretch =>
          have hfirst : first.priority ≠ lastPriority := hlast _ rfl _ rfl
          have hactive := h.active _ List.mem_cons_self first List.mem_cons_self
          have hsame := priority_of_isChain (h.same _ List.mem_cons_self)
          -- the count starts anew at the first task of the stretch
          have hfresh : ∀ rest, cutLoop maxPerPriority olderThan cnt lastPriority (first :: rest) =
              cutLoop maxPerPriority olderThan 0 first.priority (first :: rest) := fun rest => by
            rw [cutLoop_cons hactive (if_neg hfirst), cutLoop_cons hactive (if_pos rfl)]
          rw [List.flatten_cons, List.cons_append, hfresh, ← List.cons_append,
            cutLoop_stretch hactive hsame, ih h.tail _ h.next]
          rfl

theorem cutLoop_filter (cnt : ℕ) (lastPriority : ℤ) (tasks : List (TaskContainer α τ)) :
    cutLoop maxPerPriority olderThan cnt lastPriority (tasks.filter TaskContainer.active) =
        ((cutLoop maxPerPriority olderThan cnt lastPriority tasks).1.filter TaskContainer.active,
          (cutLoop maxPerPriority olderThan cnt lastPriority tasks).2) ∧
      (cutLoop maxPerPriority olderThan cnt lastPriority tasks).1.filter (!·.active) =
        tasks.filter (!·.active) := by
  induction tasks generalizing cnt lastPriority with
  | nil => exact ⟨rfl, rfl⟩
  | cons task rest ih =>
      by_cases hactive : task.priority = -1
      · have hpassed : task.active = false := by simp [TaskContainer.active, hactive]
        obtain ⟨hfilter, hstays⟩ := ih cnt lastPriority
        simp [cutLoop, hactive, hpassed, hfilter, hstays]
      · have hlooked : task.active = true := by simp [TaskContainer.active, hactive]
        have hkept : ∀ k, ∀ t ∈ keptOf maxPerPriority olderThan k [task], t.active = true := by
          intro k t ht
          rw [keptOf, List.mem_filter] at ht
          obtain rfl := List.mem_singleton.mp (List.mem_of_mem_take ht.1)
          exact hlooked
        have hnone : ∀ k, (keptOf maxPerPriority olderThan k [task]).filter (!·.active) = [] :=
          fun k => List.filter_eq_nil_iff.mpr fun t ht => by simp [hkept k t ht]
        obtain ⟨hfilter, hstays⟩ :=
          ih ((if task.priority = lastPriority then cnt else 0) + 1) task.priority
        rw [List.filter_cons_of_pos hlooked, cutLoop_cons hactive rfl, cutLoop_cons hactive rfl,
          hfilter, List.filter_append, List.filter_append, hstays,
          List.filter_eq_self.mpr (hkept _), List.filter_cons_of_neg (by simp [hlooked]), hnone]
        exact ⟨rfl, rfl⟩

theorem expired_of_mem_poppedOf {cnt : ℕ} {stretch : List (TaskContainer α τ)}
    {task : TaskContainer α τ} (h : task ∈ poppedOf maxPerPriority olderThan cnt stretch) :
    task.Expired := by
  rw [poppedOf, List.mem_append, List.mem_map, List.mem_map] at h
  rcases h with ⟨t, -, rfl⟩ | ⟨t, -, rfl⟩
  · exact ⟨rfl, .inl rfl⟩
  · exact ⟨rfl, .inr rfl⟩

theorem cutLoop_expired {cnt : ℕ} {lastPriority : ℤ} {tasks : List (TaskContainer α τ)} :
    ∀ task ∈ (cutLoop maxPerPriority olderThan cnt lastPriority tasks).2, task.Expired := by
  induction tasks generalizing cnt lastPriority with
  | nil => exact fun _ h => absurd h List.not_mem_nil
  | cons task rest ih =>
      by_cases hactive : task.priority = -1
      · simpa [cutLoop, hactive] using ih
      · rw [cutLoop_cons hactive rfl]
        intro t ht
        rcases List.mem_append.mp ht with ht | ht
        · exact expired_of_mem_poppedOf ht
        · exact ih t ht

theorem mem_of_mem_cutLoop {cnt : ℕ} {lastPriority : ℤ} {tasks : List (TaskContainer α τ)}
    {task : TaskContainer α τ}
    (h : task ∈ (cutLoop maxPerPriority olderThan cnt lastPriority tasks).1) : task ∈ tasks := by
  induction tasks generalizing cnt lastPriority with
  | nil => exact absurd h List.not_mem_nil
  | cons first rest ih =>
      by_cases hactive : first.priority = -1
      · rw [cutLoop, if_pos hactive] at h
        exact (List.mem_cons.mp h).elim (fun heq => heq ▸ List.mem_cons_self)
          fun h => List.mem_cons_of_mem _ (ih h)
      · rw [cutLoop_cons hactive rfl] at h
        rcases List.mem_append.mp h with h | h
        · exact List.mem_cons.mpr (.inl (List.mem_singleton.mp
            (List.mem_of_mem_take (List.mem_of_mem_filter h))))
        · exact List.mem_cons_of_mem _ (ih h)

theorem keys_cut (cnt : ℕ) (task : TaskContainer α τ) :
    (keptOf maxPerPriority olderThan cnt [task] ++
      poppedOf maxPerPriority olderThan cnt [task]).map TaskContainer.key = [task.key] := by
  unfold keptOf poppedOf
  rcases Nat.eq_zero_or_pos (maxPerPriority.toNat - cnt) with hzero | hpos
  · simp [hzero]
  · obtain ⟨n, hn⟩ := Nat.exists_eq_succ_of_ne_zero hpos.ne'
    by_cases hold : task.timestamp < olderThan <;> simp [hn, hold]

theorem cutLoop_perm (cnt : ℕ) (lastPriority : ℤ) (tasks : List (TaskContainer α τ)) :
    (((cutLoop maxPerPriority olderThan cnt lastPriority tasks).1 ++
      (cutLoop maxPerPriority olderThan cnt lastPriority tasks).2).map TaskContainer.key).Perm
        (tasks.map TaskContainer.key) := by
  induction tasks generalizing cnt lastPriority with
  | nil => exact .refl _
  | cons task rest ih =>
      by_cases hactive : task.priority = -1
      · simpa [cutLoop, hactive] using (ih cnt lastPriority).cons task.key
      · rw [cutLoop_cons hactive rfl]
        generalize (if task.priority = lastPriority then cnt else 0) = k
        have hrest := ih (k + 1) task.priority
        have hcut : (keptOf maxPerPriority olderThan k [task] ++
            poppedOf maxPerPriority olderThan k [task]).map TaskContainer.key = [task.key] :=
          keys_cut k task
        simp only [List.map_append] at hrest hcut ⊢
        have hfirst : (task :: rest).map TaskContainer.key =
            [task.key] ++ rest.map TaskContainer.key := rfl
        rw [hfirst, ← hcut]
        refine List.Perm.trans ?_ (hrest.append_left _)
        rw [← Multiset.coe_eq_coe]
        simp only [← Multiset.coe_add]
        abel

omit [LT τ] [DecidableLT τ] in
/-- Behind a task of another priority there is no task of a priority before it. -/
theorem filter_eq_nil_of_past {R : ℤ → ℤ → Prop} (hR : ∀ a b, R a b → R b a → a = b)
    {task : TaskContainer α τ} {rest : List (TaskContainer α τ)} {p : ℤ} (hp : p ≠ -1)
    (htask : task.priority ≠ p)
    (hfirst : ∀ t ∈ rest.filter TaskContainer.active, R task.priority t.priority)
    (hpast : R p task.priority) : rest.filter (·.priority = p) = [] := by
  refine List.filter_eq_nil_iff.mpr fun t ht hpriority => htask ?_
  have hpriority : t.priority = p := by simpa using hpriority
  have hin : t ∈ rest.filter TaskContainer.active :=
    List.mem_filter.mpr ⟨ht, by simpa [TaskContainer.active, hpriority] using hp⟩
  exact hR _ _ (hpriority ▸ hfirst t hin) hpast

/-- In a set that is ordered by the priorities the loop cuts what there is of each of them. -/
theorem cutLoop_filter_priority {R : ℤ → ℤ → Prop} (hR : ∀ a b, R a b → R b a → a = b)
    {tasks : List (TaskContainer α τ)} {cnt : ℕ} {lastPriority p : ℤ} (hp : p ≠ -1)
    (hordered : (tasks.filter TaskContainer.active).Pairwise fun a b => R a.priority b.priority)
    (hlast : lastPriority ≠ -1 →
      ∀ task ∈ tasks.filter TaskContainer.active, R lastPriority task.priority) :
    (cutLoop maxPerPriority olderThan cnt lastPriority tasks).1.filter (·.priority = p) =
      keptOf maxPerPriority olderThan (if p = lastPriority then cnt else 0)
        (tasks.filter (·.priority = p)) := by
  induction tasks generalizing cnt lastPriority with
  | nil => simp [cutLoop, keptOf]
  | cons task rest ih =>
      by_cases hactive : task.priority = -1
      · have hpassed : task.active = false := by simp [TaskContainer.active, hactive]
        rw [List.filter_cons_of_neg (by simp [hpassed])] at hordered hlast
        have hne : ¬ (-1 : ℤ) = p := fun h => hp h.symm
        simp [cutLoop, hactive, hne, ih hordered hlast]
      · have hlooked : task.active = true := by simp [TaskContainer.active, hactive]
        rw [List.filter_cons_of_pos hlooked] at hordered hlast
        obtain ⟨hfirst, hrest⟩ := List.pairwise_cons.mp hordered
        have hnext := @ih ((if task.priority = lastPriority then cnt else 0) + 1) task.priority
          hrest fun _ => hfirst
        rw [cutLoop_cons hactive rfl, List.filter_append, hnext]
        have hmem : ∀ k, ∀ t ∈ keptOf maxPerPriority olderThan k [task], t = task := by
          intro k t ht
          rw [keptOf, List.mem_filter] at ht
          exact List.mem_singleton.mp (List.mem_of_mem_take ht.1)
        by_cases htask : task.priority = p
        · have hkeep : ∀ k, (keptOf maxPerPriority olderThan k [task]).filter (·.priority = p) =
              keptOf maxPerPriority olderThan k [task] :=
            fun k => List.filter_eq_self.mpr fun t ht => by simp [hmem k t ht, htask]
          rw [hkeep, if_pos htask.symm, htask, List.filter_cons_of_pos (by simpa using htask),
            keptOf_cons _ task (rest.filter (·.priority = p))]
        · have hdrop : ∀ k, (keptOf maxPerPriority olderThan k [task]).filter (·.priority = p) =
              [] :=
            fun k => List.filter_eq_nil_iff.mpr fun t ht => by simp [hmem k t ht, htask]
          rw [hdrop, if_neg (Ne.symm htask), List.nil_append,
            List.filter_cons_of_neg (by simpa using htask)]
          by_cases hlastp : p = lastPriority
          · have hpast : R p task.priority := by
              rw [hlastp]
              exact hlast (hlastp ▸ hp) task List.mem_cons_self
            rw [filter_eq_nil_of_past hR hp htask hfirst hpast]
            simp [keptOf]
          · rw [if_neg hlastp]

theorem cutLoop_of_within {tasks : List (TaskContainer α τ)} {cnt : ℕ} {lastPriority : ℤ}
    (hyoung : ∀ task ∈ tasks.filter TaskContainer.active, ¬ task.timestamp < olderThan)
    (hwithin : ∀ p, p ≠ -1 → (if p = lastPriority then cnt else 0) +
      (tasks.filter (·.priority = p)).length ≤ maxPerPriority.toNat) :
    cutLoop maxPerPriority olderThan cnt lastPriority tasks = (tasks, []) := by
  induction tasks generalizing cnt lastPriority with
  | nil => rfl
  | cons task rest ih =>
      by_cases hactive : task.priority = -1
      · have hpassed : task.active = false := by simp [TaskContainer.active, hactive]
        rw [List.filter_cons_of_neg (by simp [hpassed])] at hyoung
        have hrest := ih hyoung fun p hp => by
          have hne : ¬ (-1 : ℤ) = p := fun h => hp h.symm
          simpa [hactive, hne] using hwithin p hp
        simp [cutLoop, hactive, hrest]
      · have hlooked : task.active = true := by simp [TaskContainer.active, hactive]
        rw [List.filter_cons_of_pos hlooked, List.forall_mem_cons] at hyoung
        have hself := hwithin task.priority hactive
        rw [List.filter_cons_of_pos (by simp), List.length_cons] at hself
        have hbelow : ∀ k, k = (if task.priority = lastPriority then cnt else 0) →
            keptOf maxPerPriority olderThan k [task] = [task] ∧
              poppedOf maxPerPriority olderThan k [task] = [] := by
          rintro k rfl
          obtain ⟨n, hn⟩ : ∃ n, maxPerPriority.toNat -
              (if task.priority = lastPriority then cnt else 0) = n + 1 :=
            ⟨_, (Nat.sub_add_cancel (by omega)).symm⟩
          simp [keptOf, poppedOf, hn, hyoung.1]
        obtain ⟨hkept, hpopped⟩ := hbelow _ rfl
        rw [cutLoop_cons hactive rfl, hkept, hpopped, ih hyoung.2]
        · rfl
        · intro p hp
          have hall := hwithin p hp
          by_cases htask : task.priority = p
          · subst htask
            rw [if_pos rfl]
            omega
          · rw [List.filter_cons_of_neg (by simpa using htask)] at hall
            rw [if_neg (Ne.symm htask)]
            omega

theorem cutLoop_active (tasks : List (TaskContainer α τ)) :
    cutLoop maxPerPriority olderThan 0 (-1) (tasks.filter TaskContainer.active) =
      ((stretchesOf tasks).flatMap (keptOf maxPerPriority olderThan 0),
        (stretchesOf tasks).flatMap (poppedOf maxPerPriority olderThan 0)) := by
  have hloop : cutLoop maxPerPriority olderThan 0 (-1) _ = _ :=
    cutLoop_stretches (stretches_stretchesOf tasks) 0 (head_stretchesOf tasks)
  rwa [flatten_stretchesOf] at hloop

end Loop

section Counter

omit [LT τ] [DecidableLT τ]

/-- The loop counts to no number beyond an `int`. -/
def CountFits (cnt : ℕ) (lastPriority : ℤ) : List (TaskContainer α τ) → Prop
  | [] => True
  | task :: rest =>
      if task.priority = -1 then CountFits cnt lastPriority rest
      else
        let k := if task.priority = lastPriority then cnt else 0
        k + 1 < 2 ^ 31 ∧ CountFits (k + 1) task.priority rest

theorem countFits_cons {task : TaskContainer α τ} (hactive : task.priority ≠ -1) {cnt k : ℕ}
    {lastPriority : ℤ} (hk : (if task.priority = lastPriority then cnt else 0) = k)
    (rest : List (TaskContainer α τ)) :
    CountFits cnt lastPriority (task :: rest) ↔
      k + 1 < 2 ^ 31 ∧ CountFits (k + 1) task.priority rest := by
  rw [CountFits, if_neg hactive, hk]

theorem countFits_filter (cnt : ℕ) (lastPriority : ℤ) (tasks : List (TaskContainer α τ)) :
    CountFits cnt lastPriority (tasks.filter TaskContainer.active) ↔
      CountFits cnt lastPriority tasks := by
  induction tasks generalizing cnt lastPriority with
  | nil => exact Iff.rfl
  | cons task rest ih =>
      by_cases hactive : task.priority = -1
      · simp [CountFits, hactive, TaskContainer.active, ih]
      · have hlooked : task.active = true := by simp [TaskContainer.active, hactive]
        rw [List.filter_cons_of_pos hlooked, countFits_cons hactive rfl,
          countFits_cons hactive rfl, ih]

theorem countFits_stretch {p : ℤ} (hp : p ≠ -1) {stretch : List (TaskContainer α τ)}
    (hstretch : ∀ task ∈ stretch, task.priority = p) {cnt : ℕ} (hcnt : cnt < 2 ^ 31)
    (rest : List (TaskContainer α τ)) :
    CountFits cnt p (stretch ++ rest) ↔
      cnt + stretch.length < 2 ^ 31 ∧ CountFits (cnt + stretch.length) p rest := by
  induction stretch generalizing cnt with
  | nil => exact ⟨fun h => ⟨hcnt, h⟩, And.right⟩
  | cons task stretch ih =>
      have htask : task.priority = p := hstretch task List.mem_cons_self
      have hlength : cnt + 1 + stretch.length = cnt + (task :: stretch).length := by
        rw [List.length_cons]
        omega
      rw [List.cons_append, countFits_cons (by rwa [htask]) (if_pos htask), htask]
      constructor
      · rintro ⟨hnext, hfits⟩
        rwa [ih (fun t ht => hstretch t (List.mem_cons_of_mem _ ht)) hnext, hlength] at hfits
      · rintro ⟨hall, hfits⟩
        have hnext : cnt + 1 < 2 ^ 31 := by omega
        rw [ih (fun t ht => hstretch t (List.mem_cons_of_mem _ ht)) hnext, hlength]
        exact ⟨hnext, hall, hfits⟩

theorem countFits_stretches {stretches : List (List (TaskContainer α τ))} (h : Stretches stretches)
    (cnt : ℕ) {lastPriority : ℤ}
    (hlast : ∀ stretch ∈ stretches.head?, ∀ task ∈ stretch.head?, task.priority ≠ lastPriority) :
    CountFits cnt lastPriority stretches.flatten ↔
      ∀ stretch ∈ stretches, stretch.length < 2 ^ 31 := by
  induction stretches generalizing cnt lastPriority with
  | nil => simp [CountFits]
  | cons stretch stretches ih =>
      cases stretch with
      | nil => exact absurd List.mem_cons_self h.nonempty
      | cons first stretch =>
          have hfirst : first.priority ≠ lastPriority := hlast _ rfl _ rfl
          have hactive := h.active _ List.mem_cons_self first List.mem_cons_self
          have hsame := priority_of_isChain (h.same _ List.mem_cons_self)
          have hfresh : ∀ rest, CountFits cnt lastPriority (first :: rest) ↔
              CountFits 0 first.priority (first :: rest) := fun rest => by
            rw [countFits_cons hactive (if_neg hfirst), countFits_cons hactive (if_pos rfl)]
          rw [List.flatten_cons, List.cons_append, hfresh, ← List.cons_append,
            countFits_stretch hactive hsame (by omega), ih h.tail _ h.next, zero_add,
            List.forall_mem_cons]

theorem countFits_iff (tasks : List (TaskContainer α τ)) :
    CountFits 0 (-1) tasks ↔ ∀ stretch ∈ stretchesOf tasks, stretch.length < 2 ^ 31 := by
  rw [← countFits_filter, ← flatten_stretchesOf]
  exact countFits_stretches (stretches_stretchesOf tasks) 0 (head_stretchesOf tasks)

/-- It is enough that there are not too many tasks of each priority. -/
theorem countFits_of_priorities {tasks : List (TaskContainer α τ)} {cnt : ℕ} {lastPriority : ℤ}
    (h : ∀ p, p ≠ -1 → (if p = lastPriority then cnt else 0) +
      (tasks.filter (·.priority = p)).length < 2 ^ 31) : CountFits cnt lastPriority tasks := by
  induction tasks generalizing cnt lastPriority with
  | nil => trivial
  | cons task rest ih =>
      by_cases hactive : task.priority = -1
      · rw [CountFits, if_pos hactive]
        refine ih fun p hp => ?_
        have hne : ¬ (-1 : ℤ) = p := fun h => hp h.symm
        simpa [hactive, hne] using h p hp
      · have hself := h task.priority hactive
        rw [List.filter_cons_of_pos (by simp), List.length_cons] at hself
        refine (countFits_cons hactive rfl rest).mpr ⟨by omega, ih fun p hp => ?_⟩
        have hall := h p hp
        by_cases htask : task.priority = p
        · subst htask
          rw [if_pos rfl]
          omega
        · rw [List.filter_cons_of_neg (by simpa using htask)] at hall
          rw [if_neg (Ne.symm htask)]
          omega

/-- In a set that is ordered by the priorities this is also needed. -/
theorem CountFits.priorities {R : ℤ → ℤ → Prop} (hR : ∀ a b, R a b → R b a → a = b)
    {tasks : List (TaskContainer α τ)} {cnt : ℕ} {lastPriority p : ℤ} (hp : p ≠ -1)
    (hordered : (tasks.filter TaskContainer.active).Pairwise fun a b => R a.priority b.priority)
    (hlast : lastPriority ≠ -1 →
      ∀ task ∈ tasks.filter TaskContainer.active, R lastPriority task.priority)
    (hcnt : cnt < 2 ^ 31) (h : CountFits cnt lastPriority tasks) :
    (if p = lastPriority then cnt else 0) + (tasks.filter (·.priority = p)).length < 2 ^ 31 := by
  induction tasks generalizing cnt lastPriority with
  | nil =>
      rw [List.filter_nil, List.length_nil]
      split_ifs <;> omega
  | cons task rest ih =>
      by_cases hactive : task.priority = -1
      · have hpassed : task.active = false := by simp [TaskContainer.active, hactive]
        rw [List.filter_cons_of_neg (by simp [hpassed])] at hordered hlast
        rw [CountFits, if_pos hactive] at h
        rw [List.filter_cons_of_neg (by simpa [hactive] using Ne.symm hp)]
        exact ih hordered hlast hcnt h
      · have hlooked : task.active = true := by simp [TaskContainer.active, hactive]
        rw [List.filter_cons_of_pos hlooked] at hordered hlast
        obtain ⟨hfirst, hrest⟩ := List.pairwise_cons.mp hordered
        obtain ⟨hnext, hfits⟩ := (countFits_cons hactive rfl rest).mp h
        have hcount := ih hrest (fun _ => hfirst) hnext hfits
        by_cases htask : task.priority = p
        · subst htask
          rw [if_pos rfl] at hcount
          rw [List.filter_cons_of_pos (by simp), List.length_cons]
          omega
        · rw [List.filter_cons_of_neg (by simpa using htask)]
          rw [if_neg (Ne.symm htask)] at hcount
          by_cases hlastp : p = lastPriority
          · have hpast : R p task.priority := by
              rw [hlastp]
              exact hlast (hlastp ▸ hp) task List.mem_cons_self
            rw [filter_eq_nil_of_past hR hp htask hfirst hpast, if_pos hlastp]
            exact hcnt
          · rwa [if_neg hlastp]

end Counter

section Bounded

variable {maxPerPriority : ℤ} {olderThan : τ}

/-- The loop does what it does without a bound, or its counter overflows. -/
theorem popLoop_eq_some {cnt : ℕ} (hcnt : cnt < 2 ^ 31) {lastPriority : ℤ}
    {tasks : List (TaskContainer α τ)}
    {r : List (TaskContainer α τ) × List (TaskContainer α τ)} :
    popLoop maxPerPriority olderThan cnt lastPriority tasks = some r ↔
      CountFits cnt lastPriority tasks ∧
        cutLoop maxPerPriority olderThan cnt lastPriority tasks = r := by
  induction tasks generalizing cnt lastPriority r with
  | nil => simp [popLoop, cutLoop, CountFits]
  | cons task rest ih =>
      by_cases hactive : task.priority = -1
      · rw [popLoop, if_pos hactive, cutLoop, if_pos hactive, CountFits, if_pos hactive,
          Option.map_eq_some_iff]
        simp only [ih hcnt, and_assoc, exists_and_left, exists_eq_left']
      · obtain ⟨k, hk⟩ : ∃ k, (if task.priority = lastPriority then cnt else 0) = k := ⟨_, rfl⟩
        have hcount : (if task.priority = lastPriority then cnt + 1 else 1) = k + 1 := by
          rw [← hk]
          split_ifs <;> rfl
        rw [popLoop, if_neg hactive, countFits_cons hactive hk, cutLoop, if_neg hactive]
        simp only [hcount]
        by_cases hlt : k + 1 < 2 ^ 31
        · have hnext : (if task.priority = lastPriority then intSucc cnt else some 1) =
              some ((k + 1 : ℕ) : ℤ) := by
            by_cases hsame : task.priority = lastPriority
            · obtain rfl : cnt = k := (if_pos hsame).symm.trans hk
              rw [if_pos hsame, intSucc_natCast hlt]
            · obtain rfl : 0 = k := (if_neg hsame).symm.trans hk
              rw [if_neg hsame, zero_add, Nat.cast_one]
          rw [hnext, Option.bind_some, Option.map_eq_some_iff]
          simp only [ih hlt, hlt, true_and, and_assoc, exists_and_left, exists_eq_left']
        · have hsame : task.priority = lastPriority := by
            by_contra hne
            rw [if_neg hne] at hk
            omega
          obtain rfl : cnt = k := (if_pos hsame).symm.trans hk
          rw [if_pos hsame, intSucc_natCast_last hcnt hlt]
          exact iff_of_false (by simp) fun h => hlt h.1.1

end Bounded

section Places

omit [LT τ] [DecidableLT τ]

theorem emplaceAll_perm (tasks popped : List (TaskContainer α τ)) (places : List ℕ) :
    (emplaceAll tasks popped places).Perm (tasks ++ popped) := by
  induction popped generalizing tasks places with
  | nil => simp [emplaceAll]
  | cons task rest ih =>
      refine (ih _ _).trans ?_
      have hplace : (tasks.take (places.headD 0) ++ task :: tasks.drop (places.headD 0)).Perm
          (tasks ++ [task]) := by
        refine List.perm_middle.trans ?_
        rw [List.take_append_drop]
        exact (List.perm_append_singleton _ _).symm
      have hall := hplace.append_right rest
      rwa [List.append_assoc tasks] at hall

theorem filter_emplaceAll (tasks : List (TaskContainer α τ)) {popped : List (TaskContainer α τ)}
    {p : TaskContainer α τ → Bool} (h : ∀ task ∈ popped, p task = false) (places : List ℕ) :
    (emplaceAll tasks popped places).filter p = tasks.filter p := by
  induction popped generalizing tasks places with
  | nil => rfl
  | cons task rest ih =>
      rw [emplaceAll, ih _ fun t ht => h t (List.mem_cons_of_mem _ ht), List.filter_append,
        List.filter_cons_of_neg (by simp [h task List.mem_cons_self]), ← List.filter_append,
        List.take_append_drop]

end Places

section PopTasks

variable {maxPerPriority : ℤ} {olderThan : τ}

theorem popTasks_eq_some {s t : TaskRunner α τ} {places : List ℕ} :
    s.popTasks maxPerPriority olderThan places = some t ↔
      (∀ stretch ∈ stretchesOf s.tasks, stretch.length < 2 ^ 31) ∧
        { s with
          tasks := emplaceAll (cutLoop maxPerPriority olderThan 0 (-1) s.tasks).1
            (cutLoop maxPerPriority olderThan 0 (-1) s.tasks).2 places } = t := by
  have hloop : ∀ r, popLoop maxPerPriority olderThan 0 (-1) s.tasks = some r ↔
      CountFits 0 (-1) s.tasks ∧ cutLoop maxPerPriority olderThan 0 (-1) s.tasks = r :=
    fun r => popLoop_eq_some (show (0 : ℕ) < 2 ^ 31 by omega)
  rw [popTasks, Option.map_eq_some_iff]
  simp only [hloop, countFits_iff, and_assoc, exists_and_left, exists_eq_left']

theorem popTasks_filter {s t : TaskRunner α τ} {places : List ℕ}
    (h : s.popTasks maxPerPriority olderThan places = some t) {p : TaskContainer α τ → Bool}
    (hp : ∀ task : TaskContainer α τ, task.priority = -1 → p task = false) :
    t.tasks.filter p = (cutLoop maxPerPriority olderThan 0 (-1) s.tasks).1.filter p := by
  obtain ⟨-, rfl⟩ := popTasks_eq_some.mp h
  exact filter_emplaceAll _ (fun task htask => hp task (cutLoop_expired task htask).1) places

/-- In an ordered set a second call with the same arguments changes nothing. -/
theorem popTasks_again {s t : TaskRunner α τ} {places : List ℕ} (hordered : Ordered s.tasks)
    (h : s.popTasks maxPerPriority olderThan places = some t)
    (hpriority : ∀ p, p ≠ -1 → t.tasks.filter (·.priority = p) =
      keptOf maxPerPriority olderThan 0 (s.tasks.filter (·.priority = p))) (places' : List ℕ) :
    t.popTasks maxPerPriority olderThan places' = some t := by
  obtain ⟨R, hR, hpairwise⟩ := exists_order hordered
  have hfits := countFits_iff s.tasks |>.mpr (popTasks_eq_some.mp h).1
  have hshort : ∀ p, p ≠ -1 → (t.tasks.filter (·.priority = p)).length ≤ maxPerPriority.toNat ∧
      (t.tasks.filter (·.priority = p)).length < 2 ^ 31 := by
    intro p hp
    rw [hpriority p hp]
    have hkept : (keptOf maxPerPriority olderThan 0 (s.tasks.filter (·.priority = p))).length ≤
        ((s.tasks.filter (·.priority = p)).take (maxPerPriority.toNat - 0)).length :=
      List.length_filter_le _ _
    have hall := hfits.priorities hR hp hpairwise (fun h => absurd rfl h) (by omega)
    rw [ite_self, zero_add] at hall
    rw [List.length_take] at hkept
    omega
  have hagain : cutLoop maxPerPriority olderThan 0 (-1) t.tasks = (t.tasks, []) := by
    refine cutLoop_of_within (fun task htask => ?_) fun p hp => ?_
    · obtain ⟨hmem, hlooked⟩ := List.mem_filter.mp htask
      have hp : task.priority ≠ -1 := by simpa [TaskContainer.active] using hlooked
      have hin : task ∈ t.tasks.filter (·.priority = task.priority) :=
        List.mem_filter.mpr ⟨hmem, by simp⟩
      rw [hpriority _ hp, keptOf, List.mem_filter] at hin
      simpa using hin.2
    · rw [ite_self, zero_add]
      exact (hshort p hp).1
  refine popTasks_eq_some.mpr ⟨(countFits_iff t.tasks).mp ?_, by rw [hagain]; rfl⟩
  refine countFits_of_priorities fun p hp => ?_
  rw [ite_self, zero_add]
  exact (hshort p hp).2

/-- `pop_tasks` keeps of each stretch of equal priority, among the tasks it looks at, the
first ones up to the limit that are not too old, and takes out the others; it is defined if
no stretch is longer than an `int` can count. In a set ordered by one of the comparators
this is a limit for each priority, and a second call with the same arguments changes
nothing. -/
theorem popTasks_limits (s : TaskRunner α τ) (maxPerPriority : ℤ) (olderThan : τ)
    (places : List ℕ) :
    let stretches := stretchesOf s.tasks
    ((∃ t, s.popTasks maxPerPriority olderThan places = some t) ↔
        ∀ stretch ∈ stretches, stretch.length < 2 ^ 31) ∧
      ∀ t, s.popTasks maxPerPriority olderThan places = some t →
        t.tasks.filter TaskContainer.active =
            stretches.flatMap (keptOf maxPerPriority olderThan 0) ∧
          (t.tasks.filter (!·.active)).Perm (s.tasks.filter (!·.active) ++
            stretches.flatMap (poppedOf maxPerPriority olderThan 0)) ∧
          (Ordered s.tasks →
            (∀ p, p ≠ -1 → t.tasks.filter (·.priority = p) =
              ((s.tasks.filter (·.priority = p)).take maxPerPriority.toNat).filter fun task =>
                ¬ task.timestamp < olderThan) ∧
            ∀ places', t.popTasks maxPerPriority olderThan places' = some t) := by
  intro stretches
  refine ⟨⟨fun ⟨t, ht⟩ => (popTasks_eq_some.mp ht).1, fun h => ⟨_, popTasks_eq_some.mpr ⟨h, rfl⟩⟩⟩,
    fun t ht => ?_⟩
  obtain ⟨hactive, hpassed⟩ := @cutLoop_filter α τ _ _ maxPerPriority olderThan 0 (-1) s.tasks
  rw [cutLoop_active, Prod.mk.injEq] at hactive
  obtain ⟨hkept, hpopped⟩ := hactive
  refine ⟨?_, ?_, fun hordered => ?_⟩
  · rw [popTasks_filter ht fun task h => by simp [TaskContainer.active, h]]
    exact hkept.symm
  · have hexpired : (cutLoop maxPerPriority olderThan 0 (-1) s.tasks).2.filter (!·.active) =
        (cutLoop maxPerPriority olderThan 0 (-1) s.tasks).2 :=
      List.filter_eq_self.mpr fun task h => by
        simp [TaskContainer.active, (cutLoop_expired task h).1]
    have hperm := (emplaceAll_perm (cutLoop maxPerPriority olderThan 0 (-1) s.tasks).1
      (cutLoop maxPerPriority olderThan 0 (-1) s.tasks).2 places).filter (!·.active)
    rw [List.filter_append, hpassed, hexpired] at hperm
    rw [hpopped]
    obtain ⟨-, rfl⟩ := popTasks_eq_some.mp ht
    exact hperm
  · obtain ⟨R, hR, hpairwise⟩ := exists_order hordered
    have hpriority : ∀ p, p ≠ -1 → t.tasks.filter (·.priority = p) =
        keptOf maxPerPriority olderThan 0 (s.tasks.filter (·.priority = p)) := by
      intro p hp
      rw [popTasks_filter ht fun task h => by simpa [h] using Ne.symm hp,
        cutLoop_filter_priority hR hp hpairwise fun h => absurd rfl h, ite_self]
    exact ⟨hpriority, popTasks_again hordered ht hpriority⟩

def limited : TaskRunner ℕ ℕ where
  tasks := [⟨1, 7, .pending, 10, 0⟩, ⟨1, 8, .pending, 11, 1⟩, ⟨2, 3, .pending, 12, 2⟩,
    ⟨2, 9, .pending, 13, 3⟩]
  threads := []

theorem popTasks_limits_sample :
    ∃ t, limited.popTasks 1 5 [] = some t ∧
      t.tasks = [⟨-1, 9, .overload, 13, 3⟩, ⟨-1, 3, .timeout, 12, 2⟩, ⟨-1, 8, .overload, 11, 1⟩,
        ⟨1, 7, .pending, 10, 0⟩] ∧
      ∀ places, t.popTasks 1 5 places = some t := by
  obtain ⟨hdefined, hlimits⟩ := popTasks_limits limited 1 5 []
  obtain ⟨t, ht⟩ := hdefined.mpr (by decide)
  refine ⟨t, ht, ?_, ((hlimits t ht).2.2 (.inl (by decide))).2⟩
  obtain rfl := Option.some.inj (ht.symm.trans (rfl : limited.popTasks 1 5 [] = some _))
  decide

end PopTasks

/-- An event of the runner, or a call of `pop_tasks` with the places of the tasks that go
back. -/
inductive LimitEvent (α τ : Type)
  | task (e : TaskEvent α τ)
  | popTasks (maxPerPriority : ℤ) (olderThan : τ) (places : List ℕ)

def limitStep (s : TaskRunner α τ) : LimitEvent α τ → Option (TaskRunner α τ)
  | .task e => s.step e
  | .popTasks maxPerPriority olderThan places => s.popTasks maxPerPriority olderThan places

section Runs

/-- A condition on the other events. -/
def OnTask (P : TaskRunner α τ → TaskEvent α τ → Prop) (s : TaskRunner α τ) :
    LimitEvent α τ → Prop
  | .task e => P s e
  | .popTasks _ _ _ => True

instance decidableOnTask (P : TaskRunner α τ → TaskEvent α τ → Prop) [∀ s e, Decidable (P s e)]
    (s : TaskRunner α τ) (e : LimitEvent α τ) : Decidable (OnTask P s e) :=
  match e with
  | .task e => inferInstanceAs (Decidable (P s e))
  | .popTasks _ _ _ => .isTrue trivial

def Heeds (s : TaskRunner α τ) : LimitEvent α τ → Prop
  | .task e => s.WaitFindsTask e ∧ s.PushIsHeard e
  | .popTasks _ _ _ => ∀ stretch ∈ stretchesOf s.tasks, stretch.length < 2 ^ 31

instance decidableHeeds [DecidableEq α] [DecidableEq τ] (s : TaskRunner α τ)
    (e : LimitEvent α τ) : Decidable (s.Heeds e) :=
  match e with
  | .task e => inferInstanceAs (Decidable (s.WaitFindsTask e ∧ s.PushIsHeard e))
  | .popTasks _ _ _ =>
      inferInstanceAs (Decidable (∀ stretch ∈ stretchesOf s.tasks, stretch.length < 2 ^ 31))

theorem popTasks_perm {s t : TaskRunner α τ} {maxPerPriority : ℤ} {olderThan : τ}
    {places : List ℕ} (h : s.popTasks maxPerPriority olderThan places = some t) :
    (t.tasks.map TaskContainer.key).Perm (s.tasks.map TaskContainer.key) := by
  obtain ⟨-, rfl⟩ := popTasks_eq_some.mp h
  exact ((emplaceAll_perm _ _ places).map _).trans (cutLoop_perm 0 (-1) s.tasks)

theorem accounted_limitStep {s t : TaskRunner α τ} {e : LimitEvent α τ} (h : s.Accounted)
    (hpossible : OnTask Possible s e) (hstep : s.limitStep e = some t) : t.Accounted := by
  cases e with
  | task e => exact accounted_step h hpossible hstep
  | popTasks maxPerPriority olderThan places =>
      have hperm := popTasks_perm hstep
      obtain ⟨-, rfl⟩ := popTasks_eq_some.mp hstep
      rw [Accounted, List.map_append, List.map_append] at h ⊢
      exact ((hperm.append_right _).append_right _).trans h

theorem drained_limitStep {s t : TaskRunner α τ} {e : LimitEvent α τ} (h : s.Drained)
    (hpossible : OnTask Possible s e) (hheeds : s.Heeds e)
    (hstep : s.limitStep e = some t) : t.Drained := by
  cases e with
  | task e => exact drained_step h hpossible hheeds.2 hstep
  | popTasks maxPerPriority olderThan places =>
      have hperm := popTasks_perm hstep
      have hthreads : t.threads = s.threads := by
        obtain ⟨-, rfl⟩ := popTasks_eq_some.mp hstep
        rfl
      intro hleft
      rw [Drained, ← hthreads] at h
      rw [h hleft] at hperm
      exact List.map_eq_nil_iff.mp hperm.eq_nil

theorem mem_popTasks {s t : TaskRunner α τ} {maxPerPriority : ℤ} {olderThan : τ}
    {places : List ℕ} {task : TaskContainer α τ}
    (hpop : s.popTasks maxPerPriority olderThan places = some t) (h : task ∈ t.tasks) :
    task ∈ s.tasks ∨ task.Expired := by
  obtain ⟨-, rfl⟩ := popTasks_eq_some.mp hpop
  rcases List.mem_append.mp ((emplaceAll_perm _ _ places).subset h) with h | h
  · exact .inl (mem_of_mem_cutLoop h)
  · exact .inr (cutLoop_expired task h)

/-- A task as it was pushed, or one that a limit or a cancellation has marked. -/
def Stamped (es : List (LimitEvent α τ)) (task : TaskContainer α τ) : Prop :=
  (∃ place, .task (.push task.priority task.timestamp task.status task.taskArgs place) ∈ es) ∨
    task.priority = -1 ∧ task.status = .cancelled ∨ task.Expired

def everyTask (s : TaskRunner α τ) : List (TaskContainer α τ) :=
  s.tasks ++ s.threads.flatMap WorkerPhase.held ++ s.ran

omit [LT τ] [DecidableLT τ] in
theorem everyTask_of_worker {s t : TaskRunner α τ} {i : ℕ} (hstep : s.step (.worker i) = some t) :
    ∀ task ∈ t.everyTask, task ∈ s.everyTask := by
  obtain rfl | ⟨before, phase, after, next, hs, ht, hmoves⟩ := exists_moves_of_worker hstep
  · exact fun _ h => h
  · intro task htask
    have hmoved := fun h => hmoves.tasks.subset (a := task) h
    simp only [everyTask, hs, ht, List.flatMap_append, List.flatMap_cons, List.mem_append]
      at htask hmoved ⊢
    tauto

theorem stamped_limitStep {es : List (LimitEvent α τ)} {s t : TaskRunner α τ}
    {e : LimitEvent α τ} (h : ∀ task ∈ s.everyTask, Stamped es task)
    (hstep : s.limitStep e = some t) : ∀ task ∈ t.everyTask, Stamped (es ++ [e]) task := by
  have hold : ∀ task ∈ s.everyTask, Stamped (es ++ [e]) task := fun task htask =>
    (h task htask).imp_left fun ⟨place, hmem⟩ => ⟨place, List.mem_append_left _ hmem⟩
  -- the tasks that are held or were run, and what happens to those in the set
  have hset : t.threads = s.threads → t.ran = s.ran →
      (∀ task ∈ t.tasks, task ∈ s.tasks ∨ Stamped (es ++ [e]) task) →
      ∀ task ∈ t.everyTask, Stamped (es ++ [e]) task := by
    intro hthreads hran htasks task htask
    rw [everyTask, hthreads, hran, List.append_assoc] at htask
    rcases List.mem_append.mp htask with htask | htask
    · exact (htasks task htask).elim
        (fun h => hold task (List.mem_append_left _ (List.mem_append_left _ h))) id
    · refine hold task ?_
      rw [everyTask, List.append_assoc]
      exact List.mem_append_right _ htask
  cases e with
  | popTasks maxPerPriority olderThan places =>
      have hmem : ∀ task ∈ t.tasks, task ∈ s.tasks ∨ task.Expired := fun _ h => mem_popTasks hstep h
      obtain ⟨-, rfl⟩ := popTasks_eq_some.mp hstep
      exact hset rfl rfl fun task htask => (hmem task htask).imp_right fun h => .inr (.inr h)
  | task e =>
      cases e with
      | push priority timestamp status taskArgs place =>
          obtain rfl := Option.some.inj hstep
          refine hset rfl rfl fun task htask => ?_
          rcases List.mem_append.mp htask with htask | htask
          · exact .inl (List.mem_of_mem_take htask)
          · rcases List.mem_cons.mp htask with rfl | htask
            · exact .inr (.inl ⟨place, List.mem_append_right _ List.mem_cons_self⟩)
            · exact .inl (List.mem_of_mem_drop htask)
      | worker i => exact fun task htask => hold task (everyTask_of_worker hstep task htask)
      | cancelAll =>
          obtain rfl := Option.some.inj hstep
          refine hset rfl rfl fun task htask => .inr (.inr (.inl ?_))
          obtain ⟨_, _, rfl⟩ := List.mem_map.mp htask
          exact ⟨rfl, rfl⟩
      | join =>
          obtain rfl := Option.some.inj hstep
          exact hold
      | joinReturns =>
          obtain rfl := Option.some.inj hstep
          intro task htask
          refine hold task ?_
          simp only [everyTask, List.flatMap_nil, List.append_nil, List.mem_append] at htask ⊢
          tauto

/-- Limits lose no task. In a run with calls of `pop_tasks` at any time, in which no wait
returns while there are no tasks, no task is pushed after all workers have left, and no
counter overflows, the runner never pops from an empty set, and when `join` has returned
every task that was pushed was run exactly once: as it was pushed, or marked as cancelled,
timed out or overloaded. As everywhere, a worker runs the task that `pop_unsafe` meant. -/
theorem limited_ranOnce (numThreads : ℕ) (es : List (LimitEvent α τ))
    (hpossible : AllSteps limitStep (OnTask Possible) (new numThreads) es)
    (hall : AllSteps limitStep Heeds (new numThreads) es) :
    ∃ t, run limitStep (new numThreads) es = some t ∧
      (∀ task ∈ t.ran, Stamped es task) ∧
      ∀ fs, es = fs ++ [.task .joinReturns] → t.RanOnce := by
  have hdefined : ∀ (s : TaskRunner α τ) (e : LimitEvent α τ), s.Accounted ∧ s.Drained →
      OnTask Possible s e ∧ s.Heeds e →
      ∃ t, s.limitStep e = some t ∧ t.Accounted ∧ t.Drained := by
    rintro s e ⟨haccounted, hdrained⟩ ⟨hpossible, hall⟩
    have hsome : ∃ t, s.limitStep e = some t := by
      cases e with
      | task e => exact (step_defined_iff s e).mpr hall.1
      | popTasks => exact ⟨_, popTasks_eq_some.mpr ⟨hall, rfl⟩⟩
    obtain ⟨t, ht⟩ := hsome
    exact ⟨t, ht, accounted_limitStep haccounted hpossible ht,
      drained_limitStep hdrained hpossible hall ht⟩
  obtain ⟨t, ht, haccounted, hdrained⟩ := run_defined hdefined
    ⟨accounted_new numThreads, fun _ => rfl⟩ (hpossible.and hall)
  have hstamped : ∀ task ∈ t.everyTask, Stamped es task := by
    refine run_invariant_of_events (I := fun es s => ∀ task ∈ everyTask s, Stamped es task)
      (fun _ _ _ _ => stamped_limitStep) (fun task htask => ?_) ht
    have hnone : (new numThreads : TaskRunner α τ).everyTask = [] := by
      simp [everyTask, new, WorkerPhase.held]
    exact absurd (hnone ▸ htask) List.not_mem_nil
  refine ⟨t, ht, fun task htask => hstamped task (List.mem_append_right _ htask), ?_⟩
  rintro fs rfl
  rw [run_append, Option.bind_eq_some_iff] at ht
  obtain ⟨u, -, hlast⟩ := ht
  obtain ⟨t', ht', hrest⟩ := run_cons_eq_some.mp hlast
  obtain rfl := Option.some.inj ht'
  obtain rfl := Option.some.inj hrest
  exact (ranOnce_iff_tasks_nil haccounted rfl).mpr
    (hdrained fun phase hphase => absurd hphase List.not_mem_nil)

/-- Two tasks are pushed, one is too old, and both are run before `join` returns. -/
theorem limited_ranOnce_sample :
    let es : List (LimitEvent ℕ ℕ) :=
      [.task (.push 2 5 .pending 10 0), .task (.push 1 6 .pending 11 0), .popTasks 1 6 [1],
        .task .join, .task (.worker 0), .task (.worker 0), .task (.worker 0), .task (.worker 0),
        .task (.worker 0), .task (.worker 0), .task (.worker 0), .task (.worker 0),
        .task (.worker 0), .task (.worker 0), .task .joinReturns]
    ∃ t, run limitStep (new 1) es = some t ∧ t.RanOnce ∧
      t.ran.map TaskContainer.status = [.pending, .timeout] := by
  intro es
  obtain ⟨t, ht, -, hran⟩ := limited_ranOnce 1 es (by decide) (by decide)
  refine ⟨t, ht, hran es.dropLast rfl, ?_⟩
  obtain rfl := Option.some.inj (ht.symm.trans (rfl : run limitStep (new 1) es = some _))
  rfl

end Runs

end TaskRunner

end Utils

end DistStorage
