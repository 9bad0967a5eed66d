import DistStorage.Utils.PollEngine

/-!
# The batches of callbacks of the polls

A poll takes the callbacks of the events of a batch under the map mutex, and runs them
one after the other when it has released it. In between come the calls of other threads
and of the callbacks themselves. Every push is one callback here, known by its number.

A callback is run once at most. A pop drops the callbacks in the map, and none of them
is run later; those that a poll has taken are out of its reach.
-/

namespace DistStorage

namespace Utils

open Transition Epoll

structure Pushed where
  number : ℕ
  fd : ℤ
  deriving DecidableEq, Repr

/-- What happens to callbacks. -/
inductive CallbackEvent
  | pushed (callback : Pushed)
  | taken (callback : Pushed)
  | popped (fd : ℤ)
  | started (callback : Pushed)
  deriving DecidableEq, Repr

/-- A poll whose `epoll_wait` returned, and one that runs its callbacks. -/
inductive PollPhase
  | reported (events : List Event)
  | running (callbacks : List Pushed)

/-- The engine with the polls that are on their way. -/
structure Polling where
  engine : PollEngine Pushed
  pushes : ℕ
  polls : ℕ → Option PollPhase
  log : List CallbackEvent

namespace PollEngine

def pollSection {κ : Type*} (s : PollEngine κ) (events : List Event) : PollEngine κ × List κ :=
  if events = [] then (s, [])
  else
    let t := if events.length < eventBatchSize then s.clearWake else s
    let taken := takeCallbacks events t.watchers
    ({ t with watchers := taken.1 }, taken.2)

/-- Without a call in between `poll` is `epoll_wait` and its section. -/
theorem poll_eq_pollSection {κ : Type*} (s : PollEngine κ) (events : List Event) :
    s.poll events = pollSection { s with interest := s.interest.report events } events := rfl

theorem watchers_pollSection {κ : Type*} (s : PollEngine κ) (events : List Event) :
    ((s.pollSection events).1.watchers, (s.pollSection events).2) =
      takeCallbacks events s.watchers := by
  unfold pollSection
  by_cases hnil : events = []
  · simp [hnil, takeCallbacks]
  · simp only [if_neg hnil]
    split_ifs <;> rfl

/-- The watchers that stay and the callbacks that are taken are those that were there. -/
theorem takeCallbacks_perm {κ : Type*} (events : List Event) (watchers : List (Watcher κ)) :
    ((takeCallbacks events watchers).1.map Watcher.callback ++
      (takeCallbacks events watchers).2).Perm (watchers.map Watcher.callback) := by
  have hfold : ∀ (l : List (Watcher κ)) (taken : List κ),
      ((events.foldl
          (fun acc e => (acc.1.filter fun w => ¬ Fires e w,
            acc.2 ++ (acc.1.filter fun w => Fires e w).map Watcher.callback))
          (l, taken)).1.map Watcher.callback ++
        (events.foldl
          (fun acc e => (acc.1.filter fun w => ¬ Fires e w,
            acc.2 ++ (acc.1.filter fun w => Fires e w).map Watcher.callback))
          (l, taken)).2).Perm (l.map Watcher.callback ++ taken) := by
    induction events with
    | nil => exact fun _ _ => .refl _
    | cons e events ih =>
        intro l taken
        rw [List.foldl_cons]
        refine (ih _ _).trans ?_
        -- the event splits the watchers
        have hsplit := (List.filter_append_perm (fun w => decide (Fires e w)) l).map
          Watcher.callback
        rw [List.map_append] at hsplit
        have hneg : (l.filter fun w => decide ¬Fires e w) =
            l.filter fun w => !decide (Fires e w) := by simp
        rw [hneg, ← List.append_assoc]
        refine List.Perm.trans ?_ (hsplit.append_right taken)
        rw [List.append_assoc _ _ taken]
        exact List.perm_append_comm
  have hall := hfold watchers []
  rwa [List.append_nil] at hall

end PollEngine

namespace Polling

def new (wakeupFd : ℤ) : Polling where
  engine := PollEngine.new wakeupFd
  pushes := 0
  polls := fun _ => none
  log := []

inductive Step
  | push (fd : ℤ) (read write watchable : Bool)
  | pop (fd : ℤ)
  | wait (poll : ℕ) (events : List Event)
  | take (poll : ℕ)
  | start (poll : ℕ)

def push (s : Polling) (fd : ℤ) (read write watchable : Bool) : Polling :=
  let callback : Pushed := ⟨s.pushes, fd⟩
  { s with
    engine := s.engine.push fd callback read write watchable
    pushes := s.pushes + 1
    log := s.log ++ [.pushed callback] }

def pop (s : Polling) (fd : ℤ) : Polling :=
  { s with engine := s.engine.pop fd, log := s.log ++ [.popped fd] }

def wait (s : Polling) (poll : ℕ) (events : List Event) : Polling :=
  { s with
    engine := { s.engine with interest := s.engine.interest.report events }
    polls := Function.update s.polls poll (some (.reported events)) }

def take (s : Polling) (poll : ℕ) (events : List Event) : Polling :=
  let taken := s.engine.pollSection events
  { s with
    engine := taken.1
    polls := Function.update s.polls poll (some (.running taken.2))
    log := s.log ++ taken.2.map .taken }

def start (s : Polling) (poll : ℕ) (callback : Pushed) (rest : List Pushed) : Polling :=
  { s with
    polls := Function.update s.polls poll (some (.running rest))
    log := s.log ++ [.started callback] }

def step (s : Polling) : Step → Option Polling
  | .push fd read write watchable =>
      if fd = s.engine.wakeupFd ∧ watchable = false then none
      else some (s.push fd read write watchable)
  | .pop fd => some (s.pop fd)
  | .wait poll events =>
      if s.polls poll = none ∧ s.engine.MayReport events then some (s.wait poll events) else none
  | .take poll =>
      match s.polls poll with
      | some (.reported events) => some (s.take poll events)
      | _ => none
  | .start poll =>
      match s.polls poll with
      | some (.running (callback :: rest)) => some (s.start poll callback rest)
      | _ => none

theorem polls_take_self (s : Polling) (poll : ℕ) (events : List Event) :
    (s.take poll events).polls poll = some (.running (s.engine.pollSection events).2) :=
  Function.update_self ..

theorem polls_take_of_ne (s : Polling) {p poll : ℕ} (hp : p ≠ poll) (events : List Event) :
    (s.take poll events).polls p = s.polls p :=
  Function.update_of_ne hp _ _

theorem polls_start_self (s : Polling) (poll : ℕ) (callback : Pushed) (rest : List Pushed) :
    (s.start poll callback rest).polls poll = some (.running rest) :=
  Function.update_self ..

theorem polls_start_of_ne (s : Polling) {p poll : ℕ} (hp : p ≠ poll) (callback : Pushed)
    (rest : List Pushed) : (s.start poll callback rest).polls p = s.polls p :=
  Function.update_of_ne hp _ _

def callbacks (s : Polling) : List Pushed := s.engine.watchers.map Watcher.callback

def takenIn (log : List CallbackEvent) : List Pushed :=
  log.filterMap fun
    | .taken callback => some callback
    | _ => none

def startedIn (log : List CallbackEvent) : List Pushed :=
  log.filterMap fun
    | .started callback => some callback
    | _ => none

@[simp] theorem mem_takenIn {log : List CallbackEvent} {c : Pushed} :
    c ∈ takenIn log ↔ .taken c ∈ log := by
  rw [takenIn, List.mem_filterMap]
  constructor
  · rintro ⟨e, he, heq⟩
    cases e <;> cases heq
    exact he
  · exact fun h => ⟨_, h, rfl⟩

@[simp] theorem mem_startedIn {log : List CallbackEvent} {c : Pushed} :
    c ∈ startedIn log ↔ .started c ∈ log := by
  rw [startedIn, List.mem_filterMap]
  constructor
  · rintro ⟨e, he, heq⟩
    cases e <;> cases heq
    exact he
  · exact fun h => ⟨_, h, rfl⟩

theorem takenIn_append (log es : List CallbackEvent) :
    takenIn (log ++ es) = takenIn log ++ takenIn es := List.filterMap_append

theorem startedIn_append (log es : List CallbackEvent) :
    startedIn (log ++ es) = startedIn log ++ startedIn es := List.filterMap_append

theorem takenIn_map_taken (cs : List Pushed) : takenIn (cs.map .taken) = cs := by
  rw [takenIn, List.filterMap_map]
  exact List.filterMap_some

/-- A callback that was pushed before a pop of its descriptor, and not taken by then,
is gone. -/
def Dropped (s : Polling) (log : List CallbackEvent) : Prop :=
  ∀ before fd after, log = before ++ .popped fd :: after → ∀ c : Pushed, c.fd = fd →
    .pushed c ∈ before → .taken c ∉ before → c ∉ s.callbacks ∧ .taken c ∉ after

/-- Every callback is in the map or was taken, once. -/
structure Mapped (s : Polling) : Prop where
  fresh : ∀ c ∈ s.callbacks ++ takenIn s.log, c.number < s.pushes
  pushed : ∀ c, .pushed c ∈ s.log → c.number < s.pushes
  fds : ∀ w ∈ s.engine.watchers, w.callback.fd = w.fd
  once : (s.callbacks ++ takenIn s.log).Nodup

/-- A callback that was taken waits in one poll at most, until it is started. -/
structure Waiting (s : Polling) : Prop where
  started : ∀ c, .started c ∈ s.log → .taken c ∈ s.log
  once : (startedIn s.log).Nodup
  pending : ∀ p cs, s.polls p = some (.running cs) →
    cs.Nodup ∧ ∀ c ∈ cs, .taken c ∈ s.log ∧ .started c ∉ s.log
  apart : ∀ p q cs ds, p ≠ q → s.polls p = some (.running cs) →
    s.polls q = some (.running ds) → cs.Disjoint ds

structure Ordered (s : Polling) : Prop where
  mapped : s.Mapped
  waiting : s.Waiting
  dropped : s.Dropped s.log

section Steps

variable {s t : Polling}

theorem ordered_new (wakeupFd : ℤ) : (new wakeupFd).Ordered := by
  refine ⟨?_, ?_, ?_⟩
  · constructor <;> simp [new, PollEngine.new, callbacks, takenIn]
  · constructor <;> simp [new, startedIn]
  · simp [new, Dropped]

theorem append_eq_append_cons {α : Type*} {l es before after : List α} {e : α} (he : e ∉ es)
    (h : l ++ es = before ++ e :: after) :
    ∃ rest, l = before ++ e :: rest ∧ after = rest ++ es := by
  rcases List.append_eq_append_iff.mp h with ⟨as, -, hes⟩ | ⟨bs, hl, hrest⟩
  · exact absurd (hes ▸ List.mem_append_right as List.mem_cons_self) he
  · cases bs with
    | nil =>
        obtain rfl : e :: after = es := hrest
        exact absurd List.mem_cons_self he
    | cons b bs =>
        obtain ⟨rfl, rfl⟩ := List.cons.inj hrest
        exact ⟨bs, hl, rfl⟩

/-- Without a pop and with no new callbacks in the map what was dropped stays dropped. -/
theorem Dropped.append {log es : List CallbackEvent} (h : s.Dropped log)
    (hpop : ∀ fd, .popped fd ∉ es)
    (hnew : ∀ c, c ∉ s.callbacks → (c ∈ t.callbacks ∨ .taken c ∈ es) → .pushed c ∉ log) :
    t.Dropped (log ++ es) := by
  intro before fd after heq c hfd hpushed hnot
  obtain ⟨rest, rfl, rfl⟩ := append_eq_append_cons (hpop fd) heq
  obtain ⟨hmap, htaken⟩ := h before fd rest rfl c hfd hpushed hnot
  have hgone := fun hc => hnew c hmap hc (List.mem_append_left _ hpushed)
  refine ⟨fun hc => hgone (.inl hc), fun hc => ?_⟩
  exact (List.mem_append.mp hc).elim htaken fun hc => hgone (.inr hc)

theorem Mapped.mono (h : s.Mapped) (hpushes : t.pushes = s.pushes)
    (hlog : ∀ c, .pushed c ∈ t.log → .pushed c ∈ s.log)
    (hwatchers : ∀ w ∈ t.engine.watchers, w ∈ s.engine.watchers)
    (hcallbacks : (t.callbacks ++ takenIn t.log).Subperm (s.callbacks ++ takenIn s.log)) :
    t.Mapped := by
  refine ⟨fun c hc => ?_, fun c hc => ?_, fun w hw => h.fds w (hwatchers w hw), ?_⟩
  · rw [hpushes]
    exact h.fresh c (hcallbacks.subset hc)
  · rw [hpushes]
    exact h.pushed c (hlog c hc)
  · obtain ⟨l, hperm, hsub⟩ := hcallbacks
    exact hperm.nodup_iff.mp (hsub.nodup h.once)

theorem Mapped.push (h : s.Mapped) (fd : ℤ) (read write watchable : Bool) :
    (s.push fd read write watchable).Mapped := by
  have hcallbacks : (s.push fd read write watchable).callbacks =
      s.callbacks ++ [⟨s.pushes, fd⟩] := by
    cases watchable <;> simp [callbacks, Polling.push, PollEngine.push, PollEngine.wake]
  have htaken : takenIn (s.push fd read write watchable).log = takenIn s.log :=
    (takenIn_append _ _).trans (List.append_nil _)
  have hperm : ((s.push fd read write watchable).callbacks ++
      takenIn (s.push fd read write watchable).log).Perm
      (⟨s.pushes, fd⟩ :: (s.callbacks ++ takenIn s.log)) := by
    rw [hcallbacks, htaken, List.append_assoc]
    exact List.perm_middle
  refine ⟨fun c hc => ?_, fun c hc => ?_, fun w hw => ?_, hperm.nodup_iff.mpr ?_⟩
  · rcases List.mem_cons.mp (hperm.subset hc) with rfl | hc
    · exact Nat.lt_succ_self _
    · exact (h.fresh c hc).trans (Nat.lt_succ_self _)
  · rcases List.mem_append.mp hc with hc | hc
    · exact (h.pushed c hc).trans (Nat.lt_succ_self _)
    · cases List.mem_singleton.mp hc
      exact Nat.lt_succ_self _
  · rcases PollEngine.mem_watchers_push.mp hw with hw | rfl
    · exact h.fds w hw
    · rfl
  · exact List.nodup_cons.mpr ⟨fun hmem => absurd (h.fresh _ hmem) (lt_irrefl _), h.once⟩

theorem Waiting.append {es : List CallbackEvent} (h : s.Waiting) (hlog : t.log = s.log ++ es)
    (hes : ∀ c, .started c ∉ es)
    (hpolls : ∀ p cs, t.polls p = some (.running cs) → s.polls p = some (.running cs)) :
    t.Waiting := by
  have hnone : startedIn es = [] :=
    List.eq_nil_iff_forall_not_mem.mpr fun c hc => hes c (mem_startedIn.mp hc)
  have hold : ∀ {c}, .started c ∈ t.log → .started c ∈ s.log := by
    intro c hc
    rw [hlog] at hc
    exact (List.mem_append.mp hc).elim id fun hc => absurd hc (hes c)
  have hkeep : ∀ {c}, .taken c ∈ s.log → .taken c ∈ t.log :=
    fun hc => hlog ▸ List.mem_append_left es hc
  refine ⟨fun c hc => hkeep (h.started c (hold hc)), ?_, fun p cs hp => ?_, ?_⟩
  · rw [hlog, startedIn_append, hnone, List.append_nil]
    exact h.once
  · obtain ⟨hnodup, hmem⟩ := h.pending p cs (hpolls p cs hp)
    exact ⟨hnodup, fun c hc => ⟨hkeep (hmem c hc).1, fun hs => (hmem c hc).2 (hold hs)⟩⟩
  · exact fun p q cs ds hpq hp hq => h.apart p q cs ds hpq (hpolls p cs hp) (hpolls q ds hq)

theorem callbacks_take_perm (s : Polling) (poll : ℕ) (events : List Event) :
    ((s.take poll events).callbacks ++ (s.engine.pollSection events).2).Perm s.callbacks := by
  have htake := s.engine.watchers_pollSection events
  have hperm := PollEngine.takeCallbacks_perm events s.engine.watchers
  rwa [← htake] at hperm

theorem Mapped.taken (h : s.Mapped) (events : List Event) :
    (s.engine.pollSection events).2.Nodup ∧
      ∀ c ∈ (s.engine.pollSection events).2, c ∈ s.callbacks ∧ .taken c ∉ s.log := by
  have hperm := callbacks_take_perm s 0 events
  obtain ⟨hnodup, -, hdisjoint⟩ := List.nodup_append'.mp h.once
  refine ⟨(List.nodup_append'.mp (hperm.nodup_iff.mpr hnodup)).2.1, fun c hc => ?_⟩
  have hmap := hperm.subset (List.mem_append_right _ hc)
  exact ⟨hmap, fun htaken => hdisjoint hmap (mem_takenIn.mpr htaken)⟩

theorem not_started_map_taken (cs : List Pushed) (c : Pushed) :
    .started c ∉ cs.map CallbackEvent.taken := by
  rw [List.mem_map]
  rintro ⟨_, _, heq⟩
  cases heq

/-- A poll gets callbacks that nothing has taken before. -/
theorem Waiting.take (h : s.Waiting) (hmapped : s.Mapped) (poll : ℕ) (events : List Event) :
    (s.take poll events).Waiting := by
  obtain ⟨hnodup, hnew⟩ := hmapped.taken events
  have hself := polls_take_self s poll events
  have hnone : startedIn ((s.engine.pollSection events).2.map CallbackEvent.taken) = [] :=
    List.eq_nil_iff_forall_not_mem.mpr fun c hc =>
      not_started_map_taken _ c (mem_startedIn.mp hc)
  have hold : ∀ {c}, .started c ∈ (s.take poll events).log → .started c ∈ s.log := fun hc =>
    (List.mem_append.mp hc).elim id fun hc => absurd hc (not_started_map_taken _ _)
  have hkeep : ∀ {c}, .taken c ∈ s.log → .taken c ∈ (s.take poll events).log :=
    fun hc => List.mem_append_left _ hc
  have hother : ∀ p cs, p ≠ poll → s.polls p = some (.running cs) →
      cs.Disjoint (s.engine.pollSection events).2 :=
    fun p cs _ hp c hc hc' => (hnew c hc').2 (((h.pending p cs hp).2 c hc).1)
  refine ⟨fun c hc => hkeep (h.started c (hold hc)), ?_, fun p cs hp => ?_, ?_⟩
  · change (startedIn (s.log ++ _)).Nodup
    rw [startedIn_append, hnone, List.append_nil]
    exact h.once
  · by_cases hpoll : p = poll
    · subst hpoll
      obtain rfl : _ = cs := PollPhase.running.inj (Option.some.inj (hself.symm.trans hp))
      refine ⟨hnodup, fun c hc => ⟨List.mem_append_right _ (List.mem_map_of_mem hc), fun hs => ?_⟩⟩
      exact (hnew c hc).2 (h.started c (hold hs))
    · rw [polls_take_of_ne s hpoll] at hp
      obtain ⟨hcs, hmem⟩ := h.pending p cs hp
      exact ⟨hcs, fun c hc => ⟨hkeep (hmem c hc).1, fun hs => (hmem c hc).2 (hold hs)⟩⟩
  · intro p q cs ds hpq hp hq
    by_cases hpoll : p = poll
    · subst hpoll
      obtain rfl : _ = cs := PollPhase.running.inj (Option.some.inj (hself.symm.trans hp))
      rw [polls_take_of_ne s hpq.symm] at hq
      exact (hother q ds hpq.symm hq).symm
    · rw [polls_take_of_ne s hpoll] at hp
      by_cases hpoll' : q = poll
      · subst hpoll'
        obtain rfl : _ = ds := PollPhase.running.inj (Option.some.inj (hself.symm.trans hq))
        exact hother p cs hpoll hp
      · rw [polls_take_of_ne s hpoll'] at hq
        exact h.apart p q cs ds hpq hp hq

theorem Waiting.start (h : s.Waiting) {poll : ℕ} {callback : Pushed} {rest : List Pushed}
    (hpoll : s.polls poll = some (.running (callback :: rest))) :
    (s.start poll callback rest).Waiting := by
  obtain ⟨hnodup, hmem⟩ := h.pending poll _ hpoll
  obtain ⟨hfirst, hrest⟩ := List.nodup_cons.mp hnodup
  obtain ⟨htaken, hnot⟩ := hmem callback List.mem_cons_self
  -- every poll runs what it ran before, or less
  have hpolls : ∀ p cs, (s.start poll callback rest).polls p = some (.running cs) →
      ∃ cs', s.polls p = some (.running cs') ∧ (∀ c ∈ cs, c ∈ cs') ∧ cs.Nodup ∧
        callback ∉ cs := by
    intro p cs hp
    by_cases heq : p = poll
    · subst heq
      rw [polls_start_self] at hp
      obtain rfl := PollPhase.running.inj (Option.some.inj hp)
      exact ⟨_, hpoll, fun c hc => List.mem_cons_of_mem _ hc, hrest, hfirst⟩
    · rw [polls_start_of_ne s heq] at hp
      refine ⟨cs, hp, fun c hc => hc, (h.pending p cs hp).1, fun hc => ?_⟩
      exact h.apart p poll cs _ heq hp hpoll hc List.mem_cons_self
  have hold : ∀ {c}, .started c ∈ (s.start poll callback rest).log →
      .started c ∈ s.log ∨ c = callback := by
    intro c hc
    rcases List.mem_append.mp hc with hc | hc
    · exact .inl hc
    · cases List.mem_singleton.mp hc
      exact .inr rfl
  refine ⟨fun c hc => ?_, ?_, fun p cs hp => ?_, fun p q cs ds hpq hp hq c hc hc' => ?_⟩
  · rcases hold hc with hc | rfl
    · exact List.mem_append_left _ (h.started c hc)
    · exact List.mem_append_left _ htaken
  · change (startedIn (s.log ++ [.started callback])).Nodup
    rw [startedIn_append]
    refine List.nodup_append'.mpr ⟨h.once, List.nodup_singleton callback, ?_⟩
    intro c hc hc'
    obtain rfl := List.mem_singleton.mp hc'
    exact hnot (mem_startedIn.mp hc)
  · obtain ⟨cs', hp', hsub, hcs, hout⟩ := hpolls p cs hp
    refine ⟨hcs, fun c hc => ?_⟩
    obtain ⟨htaken', hnot'⟩ := (h.pending p cs' hp').2 c (hsub c hc)
    refine ⟨List.mem_append_left _ htaken', fun hs => ?_⟩
    rcases hold hs with hs | rfl
    · exact hnot' hs
    · exact hout hc
  · obtain ⟨cs', hp', hsub, -⟩ := hpolls p cs hp
    obtain ⟨ds', hq', hsub', -⟩ := hpolls q ds hq
    exact h.apart p q cs' ds' hpq hp' hq' (hsub c hc) (hsub' c hc')

theorem Ordered.push (h : s.Ordered) (fd : ℤ) (read write watchable : Bool) :
    (s.push fd read write watchable).Ordered := by
  refine ⟨h.mapped.push fd read write watchable, h.waiting.append rfl ?_ fun _ _ hp => hp, ?_⟩
  · exact fun c hc => nomatch List.mem_singleton.mp hc
  · refine h.dropped.append (fun fd hc => nomatch List.mem_singleton.mp hc) ?_
    rintro c hmap (hc | hc) hpushed
    · obtain ⟨w, hw, rfl⟩ := List.mem_map.mp hc
      rcases PollEngine.mem_watchers_push.mp hw with hw | rfl
      · exact hmap (List.mem_map_of_mem hw)
      · exact absurd (h.mapped.pushed _ hpushed) (lt_irrefl _)
    · cases List.mem_singleton.mp hc

theorem Ordered.pop (h : s.Ordered) (fd : ℤ) : (s.pop fd).Ordered := by
  have hwatchers : ∀ w ∈ (s.pop fd).engine.watchers, w ∈ s.engine.watchers :=
    fun w hw => List.mem_of_mem_filter hw
  have htaken : takenIn (s.pop fd).log = takenIn s.log :=
    (takenIn_append _ _).trans (List.append_nil _)
  have hsub : (s.pop fd).callbacks.Sublist s.callbacks := List.filter_sublist.map _
  refine ⟨h.mapped.mono rfl ?_ hwatchers ?_, h.waiting.append rfl ?_ fun _ _ hp => hp, ?_⟩
  · intro c hc
    exact (List.mem_append.mp hc).elim id fun hc => nomatch List.mem_singleton.mp hc
  · rw [htaken]
    exact (hsub.append (.refl _)).subperm
  · exact fun c hc => nomatch List.mem_singleton.mp hc
  · intro before fd' after heq c hfd hpushed hnot
    rcases List.eq_nil_or_concat after with rfl | ⟨rest, last, rfl⟩
    · -- the callbacks of the descriptor leave the map
      obtain ⟨rfl, hlast⟩ := List.append_inj' heq rfl
      cases List.singleton_inj.mp hlast
      refine ⟨fun hc => ?_, List.not_mem_nil⟩
      obtain ⟨w, hw, rfl⟩ := List.mem_map.mp hc
      have hne : w.fd ≠ fd := by simpa using (List.mem_filter.mp hw).2
      exact hne ((h.mapped.fds w (hwatchers w hw)).symm.trans hfd)
    · rw [List.concat_eq_append, ← List.cons_append, ← List.append_assoc] at heq
      obtain ⟨hlog, hlast⟩ := List.append_inj' heq rfl
      obtain ⟨hmap, htaken⟩ := h.dropped before fd' rest hlog c hfd hpushed hnot
      refine ⟨fun hc => hmap (hsub.subset hc), fun hc => ?_⟩
      rw [List.concat_eq_append, ← hlast] at hc
      rcases List.mem_append.mp hc with hc | hc
      · exact htaken hc
      · cases List.mem_singleton.mp hc

theorem Ordered.wait (h : s.Ordered) (poll : ℕ) (events : List Event) :
    (s.wait poll events).Ordered := by
  refine ⟨h.mapped.mono rfl (fun _ hc => hc) (fun _ hw => hw) (.refl _),
    h.waiting.append (List.append_nil _).symm (fun _ => List.not_mem_nil) ?_, h.dropped⟩
  intro p cs hp
  by_cases heq : p = poll
  · subst heq
    cases (Function.update_self ..).symm.trans hp
  · exact (Function.update_of_ne heq _ _).symm.trans hp

theorem Ordered.take (h : s.Ordered) (poll : ℕ) (events : List Event) :
    (s.take poll events).Ordered := by
  have hperm := callbacks_take_perm s poll events
  have htaken := (h.mapped.taken events).2
  have hes : ∀ {e}, e ∈ (s.engine.pollSection events).2.map CallbackEvent.taken →
      ∃ c, c ∈ s.callbacks ∧ e = .taken c := by
    intro e he
    obtain ⟨c, hc, rfl⟩ := List.mem_map.mp he
    exact ⟨c, (htaken c hc).1, rfl⟩
  refine ⟨h.mapped.mono rfl ?_ ?_ ?_, h.waiting.take h.mapped poll events,
    h.dropped.append ?_ ?_⟩
  · intro c hc
    rcases List.mem_append.mp hc with hc | hc
    · exact hc
    · obtain ⟨_, _, heq⟩ := hes hc
      cases heq
  · intro w hw
    have hstays : (s.engine.pollSection events).1.watchers =
        (PollEngine.takeCallbacks events s.engine.watchers).1 :=
      congrArg Prod.fst (s.engine.watchers_pollSection events)
    rw [PollEngine.takeCallbacks_fst] at hstays
    exact List.mem_of_mem_filter (hstays ▸ (show w ∈ _ from hw))
  · change (_ ++ takenIn (s.log ++ _)).Subperm _
    rw [takenIn_append, takenIn_map_taken]
    refine List.Perm.subperm (List.Perm.trans ?_ (hperm.append_right (takenIn s.log)))
    rw [List.append_assoc]
    exact List.perm_append_comm.append_left _
  · intro fd hc
    obtain ⟨_, _, heq⟩ := hes hc
    cases heq
  · rintro c hmap (hc | hc) -
    · exact hmap (hperm.subset (List.mem_append_left _ hc))
    · obtain ⟨c', hc', heq⟩ := hes hc
      cases heq
      exact hmap hc'

theorem Ordered.start (h : s.Ordered) {poll : ℕ} {callback : Pushed} {rest : List Pushed}
    (hpoll : s.polls poll = some (.running (callback :: rest))) :
    (s.start poll callback rest).Ordered := by
  have htaken : takenIn (s.start poll callback rest).log = takenIn s.log :=
    (takenIn_append _ _).trans (List.append_nil _)
  refine ⟨h.mapped.mono rfl ?_ (fun _ hw => hw) ?_, h.waiting.start hpoll, h.dropped.append ?_ ?_⟩
  · intro c hc
    exact (List.mem_append.mp hc).elim id fun hc => nomatch List.mem_singleton.mp hc
  · rw [htaken]
    exact .refl _
  · exact fun fd hc => nomatch List.mem_singleton.mp hc
  · rintro c hmap (hc | hc) -
    · exact hmap hc
    · cases List.mem_singleton.mp hc

theorem ordered_step (s : Polling) (e : Step) (t : Polling) (h : s.Ordered)
    (hstep : step s e = some t) : t.Ordered := by
  cases e with
  | push fd read write watchable =>
      rw [step] at hstep
      split_ifs at hstep
      exact Option.some.inj hstep ▸ h.push fd read write watchable
  | pop fd => exact Option.some.inj hstep ▸ h.pop fd
  | wait poll events =>
      rw [step] at hstep
      split_ifs at hstep
      exact Option.some.inj hstep ▸ h.wait poll events
  | take poll =>
      rw [step] at hstep
      split at hstep
      · exact Option.some.inj hstep ▸ h.take poll _
      · cases hstep
  | start poll =>
      rw [step] at hstep
      split at hstep
      · exact Option.some.inj hstep ▸ h.start ‹_›
      · cases hstep

end Steps

/-- In every run a callback is started once at most, and after a pop those alone of the
callbacks pushed before for the descriptor that a poll had taken by then. -/
theorem startedIn_of_run {wakeupFd : ℤ} {steps : List Step} {s : Polling}
    (hrun : run step (new wakeupFd) steps = some s) :
    (startedIn s.log).Nodup ∧
      ∀ before fd after, s.log = before ++ .popped fd :: after → ∀ c : Pushed, c.fd = fd →
        .pushed c ∈ before → .started c ∈ after → .taken c ∈ before := by
  have h : s.Ordered := run_invariant ordered_step (ordered_new wakeupFd) hrun
  refine ⟨h.waiting.once, fun before fd after hlog c hfd hpushed hstarted => ?_⟩
  by_contra hnot
  have hgone := (h.dropped before fd after hlog c hfd hpushed hnot).2
  have htaken := h.waiting.started c
    (hlog ▸ List.mem_append_right before (List.mem_cons_of_mem _ hstarted))
  rw [hlog] at htaken
  rcases List.mem_append.mp htaken with htaken | htaken
  · exact hnot htaken
  · rcases List.mem_cons.mp htaken with heq | htaken
    · cases heq
    · exact hgone htaken

/-- A writer is popped after a poll has taken its callback, and the reader of another
descriptor before. -/
def popSteps : List Step :=
  [.push 5 false true true, .push 6 true false true, .wait 0 [⟨5, EPOLLOUT⟩], .take 0, .pop 5,
    .pop 6, .start 0]

theorem startedIn_sample : ∃ s, run step (new 3) popSteps = some s ∧
    (startedIn s.log).Nodup ∧ startedIn s.log = [⟨0, 5⟩] :=
  ⟨_, rfl, (startedIn_of_run (show run step (new 3) popSteps = some _ from rfl)).1, rfl⟩

/-- The writer's callback is started after the pop of its descriptor. -/
theorem started_after_pop : ∃ s before after, run step (new 3) popSteps = some s ∧
    s.log = before ++ .popped 5 :: after ∧ .pushed ⟨0, 5⟩ ∈ before ∧ .started ⟨0, 5⟩ ∈ after :=
  ⟨_, [.pushed ⟨0, 5⟩, .pushed ⟨1, 6⟩, .taken ⟨0, 5⟩], [.popped 6, .started ⟨0, 5⟩], rfl, rfl,
    by decide, by decide⟩

end Polling

end Utils

end DistStorage
