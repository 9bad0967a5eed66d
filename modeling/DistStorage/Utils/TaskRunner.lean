import DistStorage.Transition.Defined

/-!
# The task runner

Workers take tasks from a set that is shared under a lock and run them. A worker that
finds no task under the lock waits on the condition variable and, when the wait returns,
pops without looking again. It leaves its loop when it reads that the runner is not
running and then, in a second look without the lock, that there are no tasks.

A step is one such look, one locked section or the run of a task. A wait may return at
any time, so the notifications of `push` and `join` add nothing to what can happen. The
place of a task in the set is left open, since `cancel_all` changes the priorities that
order it. `pop_unsafe` is undefined on an empty set. The tasks that were pushed and those
that were run are written down.
-/

namespace DistStorage

namespace Utils

open Transition

inductive TaskStatus
  | pending
  | running
  | completed
  | failed
  | cancelled
  | timeout
  | overload
  deriving DecidableEq, Repr

/-- A task, with the number of those pushed before it. -/
structure TaskContainer (α τ : Type) where
  priority : ℤ
  timestamp : τ
  status : TaskStatus
  taskArgs : α
  number : ℕ
  deriving DecidableEq, Repr

/-- Where a worker stands in `task_loop`: at the two halves of the condition of the loop,
at the lock, in the wait, with a task it has popped, or behind the loop. -/
inductive WorkerPhase (α τ : Type)
  | checkRunning
  | checkTasks
  | atLock
  | waiting
  | runs (task : TaskContainer α τ)
  | left
  deriving DecidableEq, Repr

structure TaskRunner (α τ : Type) where
  tasks : List (TaskContainer α τ) := []
  threads : List (WorkerPhase α τ)
  running : Bool := true
  pushed : List α := []
  ran : List (TaskContainer α τ) := []

/-- A push with the place its task gets in the set, a step of a worker, and the others. -/
inductive TaskEvent (α τ : Type)
  | push (priority : ℤ) (timestamp : τ) (status : TaskStatus) (taskArgs : α) (place : ℕ)
  | worker (i : ℕ)
  | cancelAll
  | join
  | joinReturns

namespace TaskContainer

variable {α τ : Type}

def cancel (task : TaskContainer α τ) : TaskContainer α τ :=
  { task with status := .cancelled, priority := -1 }

/-- What a task was pushed as. -/
def key (task : TaskContainer α τ) : α × ℕ := (task.taskArgs, task.number)

@[simp] theorem key_cancel (task : TaskContainer α τ) : task.cancel.key = task.key := rfl

end TaskContainer

/-- The task that a worker has popped and not yet run. -/
def WorkerPhase.held {α τ : Type} : WorkerPhase α τ → List (TaskContainer α τ)
  | .runs task => [task]
  | _ => []

namespace TaskRunner

variable {α τ : Type}

def new (numThreads : ℕ) : TaskRunner α τ where
  threads := List.replicate numThreads .checkRunning

/-- `pop_unsafe`. The source returns a reference into the node it has extracted, which is
gone when the caller moves the task out of it; the task that was meant is returned here. -/
def popUnsafe (s : TaskRunner α τ) : Option (TaskContainer α τ × TaskRunner α τ) :=
  match s.tasks with
  | [] => none
  | task :: tasks => some (task, { s with tasks := tasks })

def push (s : TaskRunner α τ) (priority : ℤ) (timestamp : τ) (status : TaskStatus) (taskArgs : α)
    (place : ℕ) : TaskRunner α τ :=
  let task : TaskContainer α τ :=
    { priority, timestamp, status, taskArgs, number := s.pushed.length }
  { s with
    tasks := s.tasks.take place ++ task :: s.tasks.drop place
    pushed := s.pushed ++ [taskArgs] }

def cancelAll (s : TaskRunner α τ) : TaskRunner α τ :=
  { s with tasks := s.tasks.map TaskContainer.cancel }

/-- A step of `task_loop`. A popped task is never null, since `push` puts none in that
is. -/
def taskLoop (s : TaskRunner α τ) : WorkerPhase α τ → Option (WorkerPhase α τ × TaskRunner α τ)
  | .checkRunning => some (if s.running then .atLock else .checkTasks, s)
  | .checkTasks => some (if s.tasks.isEmpty then .left else .atLock, s)
  | .atLock =>
      if s.tasks.isEmpty then some (.waiting, s)
      else s.popUnsafe.map fun popped => (.runs popped.1, popped.2)
  | .waiting => s.popUnsafe.map fun popped => (.runs popped.1, popped.2)
  | .runs task => some (.checkRunning, { s with ran := s.ran ++ [task] })
  | .left => some (.left, s)

def step (s : TaskRunner α τ) : TaskEvent α τ → Option (TaskRunner α τ)
  | .push priority timestamp status taskArgs place =>
      some (s.push priority timestamp status taskArgs place)
  | .worker i =>
      match s.threads[i]? with
      | none => some s
      | some phase =>
          (s.taskLoop phase).map fun next =>
            { next.2 with threads := s.threads.set i next.1 }
  | .cancelAll => some s.cancelAll
  | .join => some { s with running := false }
  | .joinReturns => some { s with threads := [] }

/-- `join` returns when it was called and all workers have left. -/
def Possible (s : TaskRunner α τ) : TaskEvent α τ → Prop
  | .joinReturns => s.running = false ∧ ∀ phase ∈ s.threads, phase = .left
  | _ => True

instance decidablePossible [DecidableEq α] [DecidableEq τ] (s : TaskRunner α τ)
    (e : TaskEvent α τ) : Decidable (s.Possible e) :=
  match e with
  | .joinReturns =>
      inferInstanceAs (Decidable (s.running = false ∧ ∀ phase ∈ s.threads, phase = .left))
  | .push _ _ _ _ _ | .worker _ | .cancelAll | .join => .isTrue trivial

/-- A wait returns while there is a task. -/
def WaitFindsTask (s : TaskRunner α τ) : TaskEvent α τ → Prop
  | .worker i => s.threads[i]? = some .waiting → s.tasks ≠ []
  | _ => True

instance [DecidableEq α] [DecidableEq τ] (s : TaskRunner α τ) :
    (e : TaskEvent α τ) → Decidable (s.WaitFindsTask e)
  | .worker i => inferInstanceAs (Decidable (s.threads[i]? = some .waiting → s.tasks ≠ []))
  | .push _ _ _ _ _ | .cancelAll | .join | .joinReturns => .isTrue trivial

/-- A push comes while some worker has not left. -/
def PushIsHeard (s : TaskRunner α τ) : TaskEvent α τ → Prop
  | .push _ _ _ _ _ => ∃ phase ∈ s.threads, phase ≠ .left
  | _ => True

instance [DecidableEq α] [DecidableEq τ] (s : TaskRunner α τ) :
    (e : TaskEvent α τ) → Decidable (s.PushIsHeard e)
  | .push _ _ _ _ _ => inferInstanceAs (Decidable (∃ phase ∈ s.threads, phase ≠ .left))
  | .worker _ | .cancelAll | .join | .joinReturns => .isTrue trivial

/-- Every task that was pushed was run once, and nothing else was run. -/
def RanOnce (s : TaskRunner α τ) : Prop := (s.ran.map TaskContainer.key).Perm s.pushed.zipIdx

section Worker

variable {s t : TaskRunner α τ} {phase : WorkerPhase α τ}

theorem popUnsafe_eq_some {popped : TaskContainer α τ × TaskRunner α τ}
    (h : s.popUnsafe = some popped) :
    s.tasks = popped.1 :: popped.2.tasks ∧ popped.2 = { s with tasks := popped.2.tasks } := by
  rw [popUnsafe] at h
  split at h
  · cases h
  · rename_i task tasks htasks
    obtain rfl := Option.some.inj h
    exact ⟨htasks, rfl⟩

/-- What a step of a worker keeps: no task is lost or doubled, and who leaves has seen
that there are none. -/
structure Moves (s : TaskRunner α τ) (phase next : WorkerPhase α τ) (t : TaskRunner α τ) :
    Prop where
  pushed : t.pushed = s.pushed
  tasks : (t.tasks ++ next.held ++ t.ran).Perm (s.tasks ++ phase.held ++ s.ran)
  leaves : next = .left → t.tasks = s.tasks ∧ (phase = .left ∨ s.tasks = [])

theorem moves_of_popUnsafe {popped : TaskContainer α τ × TaskRunner α τ}
    (h : s.popUnsafe = some popped) (hphase : phase.held = []) :
    Moves s phase (.runs popped.1) popped.2 := by
  obtain ⟨htasks, hrest⟩ := popUnsafe_eq_some h
  refine ⟨by rw [hrest], ?_, fun hleft => by cases hleft⟩
  have hran : popped.2.ran = s.ran := by rw [hrest]
  rw [htasks, hphase, hran, WorkerPhase.held, List.append_nil]
  have hpop : (popped.2.tasks ++ [popped.1]).Perm (popped.1 :: popped.2.tasks) :=
    List.perm_append_singleton _ _
  exact hpop.append_right s.ran

theorem moves_of_taskLoop {next : WorkerPhase α τ} (h : s.taskLoop phase = some (next, t)) :
    Moves s phase next t := by
  have hsame : ∀ {next' : WorkerPhase α τ}, phase.held = [] → next'.held = [] →
      (next' = .left → phase = .left ∨ s.tasks = []) → Moves s phase next' s :=
    fun hphase hnext hleft => ⟨rfl, by rw [hphase, hnext], fun h => ⟨rfl, hleft h⟩⟩
  cases phase with
  | checkRunning =>
      obtain ⟨rfl, rfl⟩ := Prod.mk.inj (Option.some.inj h)
      split_ifs
      · exact hsame rfl rfl fun h => by cases h
      · exact hsame rfl rfl fun h => by cases h
  | checkTasks =>
      obtain ⟨rfl, rfl⟩ := Prod.mk.inj (Option.some.inj h)
      split_ifs with hempty
      · exact hsame rfl rfl fun _ => .inr (List.isEmpty_iff.mp hempty)
      · exact hsame rfl rfl fun h => by cases h
  | atLock =>
      rw [taskLoop] at h
      split_ifs at h
      · obtain ⟨rfl, rfl⟩ := Prod.mk.inj (Option.some.inj h)
        exact hsame rfl rfl fun h => by cases h
      · obtain ⟨popped, hpopped, hmk⟩ := Option.map_eq_some_iff.mp h
        obtain ⟨rfl, rfl⟩ := Prod.mk.inj hmk
        exact moves_of_popUnsafe hpopped rfl
  | waiting =>
      obtain ⟨popped, hpopped, hmk⟩ := Option.map_eq_some_iff.mp h
      obtain ⟨rfl, rfl⟩ := Prod.mk.inj hmk
      exact moves_of_popUnsafe hpopped rfl
  | runs task =>
      obtain ⟨rfl, rfl⟩ := Prod.mk.inj (Option.some.inj h)
      refine ⟨rfl, ?_, fun h => by cases h⟩
      change (s.tasks ++ [] ++ (s.ran ++ [task])).Perm (s.tasks ++ [task] ++ s.ran)
      rw [List.append_nil, List.append_assoc]
      exact List.Perm.append_left _ List.perm_append_comm
  | left =>
      obtain ⟨rfl, rfl⟩ := Prod.mk.inj (Option.some.inj h)
      exact hsame rfl rfl fun _ => .inl rfl

/-- A step of a worker changes nothing but this worker's phase and what it moves. -/
theorem exists_moves_of_worker {i : ℕ} (h : s.step (.worker i) = some t) :
    t = s ∨ ∃ before phase after next, s.threads = before ++ phase :: after ∧
      t.threads = before ++ next :: after ∧ Moves s phase next t := by
  rw [step] at h
  split at h
  · exact .inl (Option.some.inj h).symm
  · rename_i phase hphase
    obtain ⟨⟨next, u⟩, hu, rfl⟩ := Option.map_eq_some_iff.mp h
    obtain ⟨hi, rfl⟩ := List.getElem?_eq_some_iff.mp hphase
    obtain ⟨before, after, hthreads, -, hset⟩ :
        ∃ before after, s.threads = before ++ s.threads[i] :: after ∧ before.length = i ∧
          s.threads.set i next = before ++ next :: after := List.exists_of_set hi
    have hmoves := moves_of_taskLoop hu
    exact .inr ⟨before, _, after, next, hthreads, hset,
      ⟨hmoves.pushed, hmoves.tasks, hmoves.leaves⟩⟩

end Worker

/-- Every task that was pushed is in the set, with a worker or run, in one place only. -/
def Accounted (s : TaskRunner α τ) : Prop :=
  ((s.tasks ++ s.threads.flatMap WorkerPhase.held ++ s.ran).map TaskContainer.key).Perm
    s.pushed.zipIdx

theorem accounted_push {s : TaskRunner α τ} (h : s.Accounted) (priority : ℤ) (timestamp : τ)
    (status : TaskStatus) (taskArgs : α) (place : ℕ) :
    (s.push priority timestamp status taskArgs place).Accounted := by
  have hplace : ∀ task : TaskContainer α τ,
      (s.tasks.take place ++ task :: s.tasks.drop place).Perm (task :: s.tasks) := fun task => by
    refine List.perm_middle.trans ?_
    rw [List.take_append_drop]
  rw [Accounted, push]
  dsimp only
  rw [List.zipIdx_append, zero_add]
  refine (((hplace _).append_right _).append_right _).map _ |>.trans ?_
  exact (List.Perm.cons _ h).trans (List.perm_append_singleton _ _).symm

theorem accounted_worker {s t : TaskRunner α τ} {i : ℕ} (h : s.Accounted)
    (hstep : s.step (.worker i) = some t) : t.Accounted := by
  obtain rfl | ⟨before, phase, after, next, hs, ht, hmoves⟩ := exists_moves_of_worker hstep
  · exact h
  · have hmiddle : ∀ (phase : WorkerPhase α τ) (tasks ran : List (TaskContainer α τ)),
        (tasks ++ (before ++ phase :: after).flatMap WorkerPhase.held ++ ran).Perm
          ((before ++ after).flatMap WorkerPhase.held ++ (tasks ++ phase.held ++ ran)) := by
      intro phase tasks ran
      refine Multiset.coe_eq_coe.mp ?_
      simp only [List.flatMap_append, List.flatMap_cons, ← Multiset.coe_add]
      abel
    rw [Accounted, hs] at h
    rw [Accounted, ht, hmoves.pushed]
    refine ((hmiddle next t.tasks t.ran).trans ?_).map _ |>.trans h
    exact (hmoves.tasks.append_left _).trans (hmiddle phase s.tasks s.ran).symm

theorem accounted_step {s t : TaskRunner α τ} {e : TaskEvent α τ} (h : s.Accounted)
    (hpossible : s.Possible e) (hstep : s.step e = some t) : t.Accounted := by
  cases e with
  | push priority timestamp status taskArgs place =>
      obtain rfl := Option.some.inj hstep
      exact accounted_push h priority timestamp status taskArgs place
  | worker i => exact accounted_worker h hstep
  | cancelAll =>
      obtain rfl := Option.some.inj hstep
      have hkeys : (s.tasks.map TaskContainer.cancel).map TaskContainer.key =
          s.tasks.map TaskContainer.key := by
        rw [List.map_map]
        exact List.map_congr_left fun task _ => task.key_cancel
      rw [Accounted, List.map_append, List.map_append] at h
      rw [Accounted, cancelAll, List.map_append, List.map_append]
      exact hkeys ▸ h
  | join =>
      obtain rfl := Option.some.inj hstep
      exact h
  | joinReturns =>
      obtain rfl := Option.some.inj hstep
      have hheld : s.threads.flatMap WorkerPhase.held = [] := by
        refine List.flatMap_eq_nil_iff.mpr fun phase hphase => ?_
        rw [hpossible.2 phase hphase]
        rfl
      rw [Accounted, hheld] at h
      exact h

/-- When all workers have left, there are no tasks. -/
def Drained (s : TaskRunner α τ) : Prop := (∀ phase ∈ s.threads, phase = .left) → s.tasks = []

/-- All workers have left, and there are tasks. -/
def Stranded (s : TaskRunner α τ) : Prop := (∀ phase ∈ s.threads, phase = .left) ∧ s.tasks ≠ []

theorem drained_step {s t : TaskRunner α τ} {e : TaskEvent α τ} (h : s.Drained)
    (hpossible : s.Possible e) (hheard : s.PushIsHeard e) (hstep : s.step e = some t) :
    t.Drained := by
  cases e with
  | push priority timestamp status taskArgs place =>
      obtain rfl := Option.some.inj hstep
      obtain ⟨phase, hphase, hne⟩ := hheard
      exact fun hleft => absurd (hleft phase hphase) hne
  | worker i =>
      obtain rfl | ⟨before, phase, after, next, hs, ht, hmoves⟩ := exists_moves_of_worker hstep
      · exact h
      · intro hleft
        rw [ht] at hleft
        obtain ⟨htasks, hphase | hnil⟩ := hmoves.leaves (hleft next (by simp))
        · rw [htasks]
          refine h fun other hother => ?_
          rw [hs, List.mem_append, List.mem_cons] at hother
          obtain hbefore | rfl | hafter := hother
          · exact hleft other (by simp [hbefore])
          · exact hphase
          · exact hleft other (by simp [hafter])
        · rw [htasks, hnil]
  | cancelAll =>
      obtain rfl := Option.some.inj hstep
      exact fun hleft => List.map_eq_nil_iff.mpr (h hleft)
  | join =>
      obtain rfl := Option.some.inj hstep
      exact h
  | joinReturns =>
      obtain rfl := Option.some.inj hstep
      exact fun _ => h hpossible.2

theorem stranded_step {s t : TaskRunner α τ} {e : TaskEvent α τ} (h : s.Stranded)
    (hstep : s.step e = some t) : t.Stranded := by
  cases e with
  | push priority timestamp status taskArgs place =>
      obtain rfl := Option.some.inj hstep
      exact ⟨h.1, by simp [push]⟩
  | worker i =>
      rw [step] at hstep
      split at hstep
      · obtain rfl := Option.some.inj hstep
        exact h
      · rename_i phase hphase
        obtain rfl := h.1 phase (List.mem_of_getElem? hphase)
        obtain rfl := Option.some.inj hstep
        refine ⟨fun phase hmem => ?_, h.2⟩
        obtain hmem | rfl := List.mem_or_eq_of_mem_set hmem
        · exact h.1 phase hmem
        · rfl
  | cancelAll =>
      obtain rfl := Option.some.inj hstep
      exact ⟨h.1, fun hnil => h.2 (List.map_eq_nil_iff.mp hnil)⟩
  | join =>
      obtain rfl := Option.some.inj hstep
      exact h
  | joinReturns =>
      obtain rfl := Option.some.inj hstep
      exact ⟨fun phase hphase => (List.not_mem_nil hphase).elim, h.2⟩

theorem stranded_of_not_heard {s t : TaskRunner α τ} {e : TaskEvent α τ}
    (hstep : s.step e = some t) (hheard : ¬s.PushIsHeard e) : t.Stranded := by
  cases e with
  | push priority timestamp status taskArgs place =>
      obtain rfl := Option.some.inj hstep
      refine ⟨fun phase hphase => ?_, by simp [push]⟩
      by_contra hne
      exact hheard ⟨phase, hphase, hne⟩
  | _ => exact absurd trivial hheard

theorem step_defined_iff (s : TaskRunner α τ) (e : TaskEvent α τ) :
    (∃ t, s.step e = some t) ↔ s.WaitFindsTask e := by
  have hpop : (∃ popped, s.popUnsafe = some popped) ↔ s.tasks ≠ [] := by
    rw [popUnsafe]
    split <;> simp_all
  cases e with
  | worker i =>
      rw [step, WaitFindsTask]
      cases hphase : s.threads[i]? with
      | none => simp
      | some phase =>
          cases phase with
          | waiting => simp [taskLoop, ← hpop]
          | atLock =>
              refine iff_of_true ?_ (by simp)
              by_cases hempty : s.tasks.isEmpty
              · simp [taskLoop, hempty]
              · obtain ⟨popped, hpopped⟩ := hpop.mpr fun h => hempty (List.isEmpty_iff.mpr h)
                simp [taskLoop, hempty, hpopped]
          | _ => simp [taskLoop]
  | _ => simp [step, WaitFindsTask]

theorem accounted_new (numThreads : ℕ) : (new numThreads : TaskRunner α τ).Accounted := by
  have hheld : (new numThreads : TaskRunner α τ).threads.flatMap WorkerPhase.held = [] := by
    refine List.flatMap_eq_nil_iff.mpr fun phase hphase => ?_
    rw [List.eq_of_mem_replicate hphase]
    rfl
  rw [Accounted, hheld]
  rfl

theorem ranOnce_iff_tasks_nil {s : TaskRunner α τ} (h : s.Accounted) (hthreads : s.threads = []) :
    s.RanOnce ↔ s.tasks = [] := by
  rw [Accounted, hthreads, List.flatMap_nil, List.append_nil] at h
  constructor
  · intro hran
    have hlength := (hran.trans h.symm).length_eq
    rw [List.map_append, List.length_append, List.length_map, List.length_map] at hlength
    exact List.length_eq_zero_iff.mp (by omega)
  · intro hnil
    rw [hnil, List.nil_append] at h
    exact h

/-- A run is defined, so no worker pops from an empty set in it, exactly if no wait
returns while there are no tasks. -/
theorem allSteps_waitFindsTask_iff (s : TaskRunner α τ) (es : List (TaskEvent α τ)) :
    AllSteps step WaitFindsTask s es ↔ ∀ pre, pre <+: es → ∃ t, run step s pre = some t := by
  have hstep : ∀ (s : TaskRunner α τ) (e : TaskEvent α τ), True → True →
      ((∃ t, s.step e = some t ∧ True) ↔ s.WaitFindsTask e) := fun s e _ _ => by
    simp only [and_true, step_defined_iff]
  have hall : AllSteps step (fun _ _ => True) s es :=
    allSteps_of_forall_mem (fun _ _ _ => trivial) s
  simpa only [and_true] using allSteps_iff_defined hstep trivial hall

theorem threads_of_joinReturns {s t : TaskRunner α τ} {es : List (TaskEvent α τ)}
    (hrun : run step s (es ++ [.joinReturns]) = some t) : t.threads = [] := by
  rw [run_append, Option.bind_eq_some_iff] at hrun
  obtain ⟨u, -, hlast⟩ := hrun
  obtain ⟨t', ht', hrest⟩ := run_cons_eq_some.mp hlast
  obtain rfl := Option.some.inj ht'
  obtain rfl := Option.some.inj hrest
  rfl

/-- What the steps of a run keep that no push comes too late for. -/
theorem run_drained (numThreads : ℕ) {es : List (TaskEvent α τ)}
    (hpossible : AllSteps step Possible (new numThreads) es)
    (hall : AllSteps step (fun s e => s.WaitFindsTask e ∧ s.PushIsHeard e) (new numThreads) es) :
    ∃ t, run step (new numThreads) es = some t ∧ t.Accounted ∧ t.Drained := by
  refine run_defined (I := fun s : TaskRunner α τ => s.Accounted ∧ s.Drained)
    (fun s e hs h => ?_) ⟨accounted_new numThreads, fun _ => rfl⟩ (hpossible.and hall)
  obtain ⟨t, ht⟩ := (step_defined_iff s e).mpr h.2.1
  exact ⟨t, ht, accounted_step hs.1 h.1 ht, drained_step hs.2 h.1 h.2.2 ht⟩

/-- A worker never pops from an empty set exactly if no wait returns while there are no
tasks. In a run that ends with the return of `join`, this holds and all tasks that were
pushed were run exactly once, exactly if moreover no task is pushed after all workers have
left. -/
theorem ranOnce_iff (numThreads : ℕ) (es : List (TaskEvent α τ))
    (hpossible : AllSteps step Possible (new numThreads) es) :
    (AllSteps step WaitFindsTask (new numThreads) es ↔
        ∀ pre, pre <+: es → ∃ t, run step (new numThreads) pre = some t) ∧
      ∀ fs, es = fs ++ [.joinReturns] →
        (AllSteps step (fun s e => s.WaitFindsTask e ∧ s.PushIsHeard e) (new numThreads) es ↔
          ∃ t, run step (new numThreads) es = some t ∧ t.RanOnce) := by
  refine ⟨allSteps_waitFindsTask_iff _ es, ?_⟩
  rintro fs rfl
  constructor
  · intro hall
    obtain ⟨t, ht, haccounted, hdrained⟩ := run_drained numThreads hpossible hall
    have hthreads := threads_of_joinReturns ht
    refine ⟨t, ht, (ranOnce_iff_tasks_nil haccounted hthreads).mpr (hdrained ?_)⟩
    rw [hthreads]
    exact fun phase hphase => (List.not_mem_nil hphase).elim
  · rintro ⟨t, ht, hran⟩
    have haccounted : t.Accounted := run_invariant_of_allSteps
      (fun _ _ _ => accounted_step) (accounted_new numThreads) hpossible ht
    have hnil := (ranOnce_iff_tasks_nil haccounted (threads_of_joinReturns ht)).mp hran
    refine allSteps_of_not_trapped (T := Stranded) (fun s e u hu hnot => ?_)
      (fun _ _ _ => stranded_step) ht fun hstranded => hstranded.2 hnil
    have hwait := (step_defined_iff s e).mp ⟨u, hu⟩
    exact stranded_of_not_heard hu fun hheard => hnot ⟨hwait, hheard⟩

/-- A worker waits for a task and runs it, and a second one is cancelled and run before the
worker leaves. -/
def cancelledBeforeJoin : List (TaskEvent ℕ ℕ) :=
  [.worker 0, .worker 0, .push 2 5 .pending 10 0, .worker 0, .push 1 6 .pending 11 0, .worker 0,
    .cancelAll, .join, .worker 0, .worker 0, .worker 0, .worker 0, .worker 0, .worker 0,
    .joinReturns]

theorem ranOnce_iff_cancelled :
    (∀ pre, pre <+: cancelledBeforeJoin → ∃ t, run step (new 1) pre = some t) ∧
      ∃ t, run step (new 1) cancelledBeforeJoin = some t ∧ t.RanOnce := by
  obtain ⟨hdefined, hran⟩ := ranOnce_iff 1 cancelledBeforeJoin (by decide)
  exact ⟨hdefined.mp (by decide), (hran cancelledBeforeJoin.dropLast rfl).mp (by decide)⟩

def wokenByJoin : List (TaskEvent ℕ ℕ) := [.worker 0, .worker 0, .join, .worker 0]

/-- The only worker has left when a task is pushed. -/
def pushedTooLate : List (TaskEvent ℕ ℕ) :=
  [.join, .worker 0, .worker 0, .push 1 0 .pending 10 0, .joinReturns]

theorem wokenByJoin_not_defined :
    (AllSteps step Possible (new 1) wokenByJoin ∧ run step (new 1) wokenByJoin = none) ∧
      AllSteps step Possible (new 1) pushedTooLate ∧
        ∃ t, run step (new 1) pushedTooLate = some t ∧ ¬t.RanOnce := by
  refine ⟨⟨by decide, rfl⟩, by decide, _, rfl, fun hran => ?_⟩
  exact absurd hran.length_eq (by decide)

end TaskRunner

end Utils

end DistStorage
