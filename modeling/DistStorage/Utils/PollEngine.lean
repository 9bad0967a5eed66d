import DistStorage.Transition.Run

/-!
# The poll engine

`PollEngine` keeps the watchers of all descriptors in one multimap and
registers each descriptor once in epoll, one-shot, for the flags of all its
watchers together. A push adds a watcher and renews the registration; a poll
takes the watchers that want a reported event and leaves the others; a pop
drops the watchers of a descriptor.

The steps are the sections under the map mutex. The kernel's side is the
interest list and the counter of the wake-up descriptor: a registration with
`EPOLLONESHOT` is disarmed when an event for it is reported. The calls that
the taken callbacks make are further steps.
-/

namespace DistStorage

namespace Utils

open Transition

namespace Epoll

abbrev Flags := BitVec 32

def EPOLLIN : Flags := 0x001

def EPOLLOUT : Flags := 0x004

def EPOLLERR : Flags := 0x008

def EPOLLHUP : Flags := 0x010

def EPOLLONESHOT : Flags := 0x40000000

structure Registration where
  events : Flags
  armed : Bool
  deriving DecidableEq, Repr

structure Event where
  fd : ℤ
  events : Flags
  deriving DecidableEq, Repr

/-- A registration after an event for it was reported. -/
def Registration.reported (r : Registration) : Registration :=
  { r with armed := r.armed && r.events &&& EPOLLONESHOT = 0 }

abbrev InterestList := ℤ → Option Registration

def InterestList.report (interest : InterestList) (events : List Event) : InterestList := fun fd =>
  if ∃ e ∈ events, e.fd = fd then (interest fd).map Registration.reported else interest fd

/-- The event may be reported: its descriptor is armed, and it asks for the
flags or they are an error or a hangup. -/
def InterestList.Reportable (interest : InterestList) (e : Event) : Prop :=
  e.events ≠ 0 ∧ ∃ r, interest e.fd = some r ∧ r.armed = true ∧
    e.events &&& (r.events &&& ~~~EPOLLONESHOT ||| EPOLLERR ||| EPOLLHUP) = e.events

def InterestList.ArmedFor (interest : InterestList) (fd : ℤ) (flags : Flags) : Prop :=
  ∃ r, interest fd = some r ∧ r.armed = true ∧ flags &&& r.events = flags

instance (interest : InterestList) (e : Event) : Decidable (interest.Reportable e) :=
  match h : interest e.fd with
  | none => .isFalse (by simp [InterestList.Reportable, h])
  | some r =>
      decidable_of_iff (e.events ≠ 0 ∧ r.armed = true ∧
        e.events &&& (r.events &&& ~~~EPOLLONESHOT ||| EPOLLERR ||| EPOLLHUP) = e.events)
        (by simp [InterestList.Reportable, h])

instance (interest : InterestList) (fd : ℤ) (flags : Flags) :
    Decidable (interest.ArmedFor fd flags) :=
  match h : interest fd with
  | none => .isFalse (by simp [InterestList.ArmedFor, h])
  | some r =>
      decidable_of_iff (r.armed = true ∧ flags &&& r.events = flags)
        (by simp [InterestList.ArmedFor, h])

end Epoll

open Epoll

structure Watcher (κ : Type*) where
  fd : ℤ
  flags : Flags
  callback : κ
  deriving DecidableEq, Repr

/-- The engine, with the kernel's state for its two descriptors. -/
structure PollEngine (κ : Type*) where
  watchers : List (Watcher κ)
  wakeupFd : ℤ
  interest : InterestList
  wakeups : ℕ

namespace PollEngine

variable {κ : Type*}

def eventBatchSize : ℕ := 16

def new (wakeupFd : ℤ) : PollEngine κ where
  watchers := []
  wakeupFd := wakeupFd
  interest := fun fd => if fd = wakeupFd then some ⟨EPOLLIN, true⟩ else none
  wakeups := 0

def wake (s : PollEngine κ) : PollEngine κ :=
  { s with wakeups := s.wakeups + 1 }

def clearWake (s : PollEngine κ) : PollEngine κ :=
  { s with wakeups := 0 }

def watchersOf (s : PollEngine κ) (fd : ℤ) : List (Watcher κ) :=
  s.watchers.filter fun w => w.fd = fd

def getWatchFlags (s : PollEngine κ) (fd : ℤ) : Flags :=
  ((s.watchersOf fd).map Watcher.flags).foldl (· ||| ·) 0

def requestFlags (read write : Bool) : Flags :=
  (if read then EPOLLIN else 0) ||| (if write then EPOLLOUT else 0)

/-- `push`; `watchable` says whether the kernel accepts the descriptor. If it
does, one of the two `epoll_ctl` calls succeeds; if not, both fail and `push`
throws with the new watcher in the map. -/
def push (s : PollEngine κ) (fd : ℤ) (callback : κ) (read write watchable : Bool) :
    PollEngine κ :=
  let watchFlags := requestFlags read write ||| s.getWatchFlags fd
  let t := { s with watchers := s.watchers ++ [⟨fd, requestFlags read write, callback⟩] }
  if watchable then
    wake { t with
      interest := Function.update t.interest fd (some ⟨watchFlags ||| EPOLLONESHOT, true⟩) }
  else t

/-- The watcher is one that the event fires. -/
def Fires (e : Event) (w : Watcher κ) : Prop :=
  w.fd = e.fd ∧ e.events &&& w.flags ≠ 0

instance (e : Event) (w : Watcher κ) : Decidable (Fires e w) := by
  unfold Fires
  infer_instance

def takeCallbacks (events : List Event) (watchers : List (Watcher κ)) :
    List (Watcher κ) × List κ :=
  events.foldl
    (fun acc e => (acc.1.filter fun w => ¬ Fires e w,
      acc.2 ++ (acc.1.filter fun w => Fires e w).map Watcher.callback))
    (watchers, [])

/-- The locked section of `poll` after `epoll_wait` returned the events, with
the callbacks that it takes. -/
def poll (s : PollEngine κ) (events : List Event) : PollEngine κ × List κ :=
  let t := { s with interest := s.interest.report events }
  if events = [] then (t, [])
  else
    let t := if events.length < eventBatchSize then t.clearWake else t
    let taken := takeCallbacks events t.watchers
    ({ t with watchers := taken.1 }, taken.2)

def pop (s : PollEngine κ) (fd : ℤ) : PollEngine κ :=
  { s with watchers := s.watchers.filter fun w => w.fd ≠ fd }

/-- A call of the engine, with what the kernel answers. No events stand for
both a timeout and a failing `epoll_wait`. -/
inductive Call (κ : Type*)
  | push (fd : ℤ) (callback : κ) (read write watchable : Bool)
  | poll (events : List Event)
  | pop (fd : ℤ)

/-- What `epoll_wait` may return: at most a batch, each descriptor once, and
the wake-up descriptor readable only after a wake. -/
def MayReport (s : PollEngine κ) (events : List Event) : Prop :=
  events.length ≤ eventBatchSize ∧ (events.map Event.fd).Nodup ∧
    ∀ e ∈ events, s.interest.Reportable e ∧
      (e.fd = s.wakeupFd → e.events &&& EPOLLIN ≠ 0 → 0 < s.wakeups)

instance (s : PollEngine κ) (events : List Event) : Decidable (s.MayReport events) := by
  unfold MayReport
  infer_instance

/-- One call. The wake-up descriptor is open as long as the engine is. -/
def step (s : PollEngine κ) : Call κ → Option (PollEngine κ)
  | .push fd callback read write watchable =>
      if fd = s.wakeupFd ∧ watchable = false then none
      else some (s.push fd callback read write watchable)
  | .poll events => if s.MayReport events then some (s.poll events).1 else none
  | .pop fd => some (s.pop fd)

/-- Every descriptor with a watcher is armed for the flags of all its watchers. -/
def Covered (s : PollEngine κ) : Prop :=
  ∀ fd, s.watchersOf fd ≠ [] → s.interest.ArmedFor fd (s.getWatchFlags fd)

/-- The call leaves no watcher without its registration: a push is accepted, or
its descriptor is armed for what it asks; every watcher of a reported
descriptor wants the event. -/
def LeavesNone (s : PollEngine κ) : Call κ → Prop
  | .push fd _ read write watchable =>
      watchable = true ∨ s.interest.ArmedFor fd (requestFlags read write)
  | .poll events => ∀ e ∈ events, ∀ w ∈ s.watchersOf e.fd, e.events &&& w.flags ≠ 0
  | .pop _ => True

instance (s : PollEngine κ) (c : Call κ) : Decidable (s.LeavesNone c) := by
  cases c <;> unfold LeavesNone <;> infer_instance

/-- Only the wake-up descriptor is not registered one-shot, and only as long as
nobody watches it. -/
def OneShot (s : PollEngine κ) : Prop :=
  ∀ fd r, s.interest fd = some r → r.events &&& EPOLLONESHOT = 0 →
    fd = s.wakeupFd ∧ ∀ w ∈ s.watchers, w.fd ≠ fd

theorem or_and_eq_iff (a b mask : Flags) :
    (a ||| b) &&& mask = a ||| b ↔ a &&& mask = a ∧ b &&& mask = b := by
  constructor
  · intro h
    have hbit : ∀ i : ℕ, ((a ||| b) &&& mask).getLsbD i = (a ||| b).getLsbD i := by
      intro i
      rw [h]
    constructor
    · apply BitVec.eq_of_getLsbD_eq
      intro i _
      have := hbit i
      simp only [BitVec.getLsbD_and, BitVec.getLsbD_or] at this ⊢
      cases ha : a.getLsbD i <;> simp_all
    · apply BitVec.eq_of_getLsbD_eq
      intro i _
      have := hbit i
      simp only [BitVec.getLsbD_and, BitVec.getLsbD_or] at this ⊢
      cases hb : b.getLsbD i <;> simp_all
  · rintro ⟨ha, hb⟩
    rw [BitVec.and_or_distrib_right, ha, hb]

theorem mask_holds (a b c : Flags) :
    a &&& (a ||| b ||| c) = a ∧ b &&& (a ||| b ||| c) = b ∧ c &&& (a ||| b ||| c) = c := by
  obtain ⟨hab, hc⟩ := (or_and_eq_iff (a ||| b) c (a ||| b ||| c)).mp BitVec.and_self
  obtain ⟨ha, hb⟩ := (or_and_eq_iff a b (a ||| b ||| c)).mp hab
  exact ⟨ha, hb, hc⟩

theorem foldl_or_append (a : Flags) (l : List Flags) :
    l.foldl (· ||| ·) a = a ||| l.foldl (· ||| ·) 0 := by
  induction l generalizing a with
  | nil => simp
  | cons b l ih =>
      rw [List.foldl_cons, List.foldl_cons, ih (a ||| b), ih (0 ||| b)]
      simp [BitVec.or_assoc]

/-- A mask holds the flags of a descriptor if it holds those of each watcher. -/
theorem getWatchFlags_and_eq_iff (s : PollEngine κ) (fd : ℤ) (mask : Flags) :
    s.getWatchFlags fd &&& mask = s.getWatchFlags fd ↔
      ∀ w ∈ s.watchersOf fd, w.flags &&& mask = w.flags := by
  unfold getWatchFlags
  generalize s.watchersOf fd = l
  induction l with
  | nil => simp
  | cons w l ih =>
      rw [List.map_cons, List.foldl_cons, foldl_or_append, or_and_eq_iff, List.forall_mem_cons,
        ih]
      simp

theorem mem_watchersOf {s : PollEngine κ} {fd : ℤ} {w : Watcher κ} :
    w ∈ s.watchersOf fd ↔ w ∈ s.watchers ∧ w.fd = fd := by
  simp [watchersOf]

theorem covered_iff {s : PollEngine κ} :
    s.Covered ↔ ∀ w ∈ s.watchers, s.interest.ArmedFor w.fd w.flags := by
  constructor
  · intro h w hw
    have hmem : w ∈ s.watchersOf w.fd := mem_watchersOf.mpr ⟨hw, rfl⟩
    obtain ⟨r, hr, harmed, hflags⟩ := h w.fd (List.ne_nil_of_mem hmem)
    exact ⟨r, hr, harmed, (s.getWatchFlags_and_eq_iff w.fd r.events).mp hflags w hmem⟩
  · intro h fd hne
    obtain ⟨w, hw⟩ := List.exists_mem_of_ne_nil _ hne
    obtain ⟨hmem, rfl⟩ := mem_watchersOf.mp hw
    obtain ⟨r, hr, harmed, -⟩ := h w hmem
    refine ⟨r, hr, harmed, (s.getWatchFlags_and_eq_iff w.fd r.events).mpr ?_⟩
    intro v hv
    obtain ⟨hv, hfd⟩ := mem_watchersOf.mp hv
    obtain ⟨r', hr', -, hflags⟩ := h v hv
    rw [hfd, hr] at hr'
    obtain rfl := Option.some.inj hr'
    exact hflags

theorem takeCallbacks_fst (events : List Event) (watchers : List (Watcher κ)) :
    (takeCallbacks events watchers).1 =
      watchers.filter fun w => ∀ e ∈ events, ¬ Fires e w := by
  have hfold : ∀ (l : List (Watcher κ)) (taken : List κ),
      (events.foldl
        (fun acc e => (acc.1.filter fun w => ¬ Fires e w,
          acc.2 ++ (acc.1.filter fun w => Fires e w).map Watcher.callback))
        (l, taken)).1 = l.filter fun w => ∀ e ∈ events, ¬ Fires e w := by
    induction events with
    | nil => simp
    | cons e events ih =>
        intro l taken
        rw [List.foldl_cons, ih, List.filter_filter]
        congr 1
        funext w
        simp [Bool.and_comm]
  exact hfold watchers []

theorem mem_watchers_poll {s : PollEngine κ} {events : List Event} {w : Watcher κ} :
    w ∈ (s.poll events).1.watchers ↔ w ∈ s.watchers ∧ ∀ e ∈ events, ¬ Fires e w := by
  unfold poll
  by_cases hnil : events = []
  · simp [hnil]
  · simp only [if_neg hnil, takeCallbacks_fst]
    split_ifs <;> simp [clearWake]

theorem interest_poll (s : PollEngine κ) (events : List Event) :
    (s.poll events).1.interest = s.interest.report events := by
  unfold poll
  by_cases hnil : events = []
  · simp [hnil]
  · simp only [if_neg hnil]
    split_ifs <;> rfl

theorem wakeupFd_poll (s : PollEngine κ) (events : List Event) :
    (s.poll events).1.wakeupFd = s.wakeupFd := by
  unfold poll
  by_cases hnil : events = []
  · simp [hnil]
  · simp only [if_neg hnil]
    split_ifs <;> rfl

theorem step_push_eq_some {s t : PollEngine κ} {fd : ℤ} {callback : κ}
    {read write watchable : Bool} :
    step s (.push fd callback read write watchable) = some t ↔
      ¬(fd = s.wakeupFd ∧ watchable = false) ∧ s.push fd callback read write watchable = t := by
  rw [step]
  split_ifs with h <;> simp [h]

theorem step_poll_eq_some {s t : PollEngine κ} {events : List Event} :
    step s (.poll events) = some t ↔ s.MayReport events ∧ (s.poll events).1 = t := by
  rw [step]
  split_ifs with h <;> simp [h]

theorem mem_watchers_push {s : PollEngine κ} {fd : ℤ} {callback : κ}
    {read write watchable : Bool} {w : Watcher κ} :
    w ∈ (s.push fd callback read write watchable).watchers ↔
      w ∈ s.watchers ∨ w = ⟨fd, requestFlags read write, callback⟩ := by
  cases watchable <;> simp [push, wake]

theorem interest_push_true (s : PollEngine κ) (fd : ℤ) (callback : κ) (read write : Bool) :
    (s.push fd callback read write true).interest =
      Function.update s.interest fd
        (some ⟨requestFlags read write ||| s.getWatchFlags fd ||| EPOLLONESHOT, true⟩) := rfl

theorem report_eq_some {interest : InterestList} {events : List Event} {fd : ℤ}
    {r : Registration} (h : interest.report events fd = some r) :
    ∃ r', interest fd = some r' ∧ r.events = r'.events ∧
      (r = r' ∨ (∃ e ∈ events, e.fd = fd) ∧ r = r'.reported) := by
  unfold InterestList.report at h
  split_ifs at h with hmem
  · obtain ⟨r', hr', rfl⟩ := Option.map_eq_some_iff.mp h
    exact ⟨r', hr', rfl, .inr ⟨hmem, rfl⟩⟩
  · exact ⟨r, h, rfl, .inl rfl⟩

theorem oneShot_new (wakeupFd : ℤ) : (new wakeupFd : PollEngine κ).OneShot := by
  intro fd r hr _
  unfold new at hr ⊢
  simp only at hr
  split_ifs at hr with hfd
  exact ⟨hfd, by simp⟩

theorem oneShot_step (s : PollEngine κ) (c : Call κ) (t : PollEngine κ) (h : s.OneShot)
    (hstep : step s c = some t) : t.OneShot := by
  intro fd' r hr hzero
  cases c with
  | push fd callback read write watchable =>
      obtain ⟨hopen, rfl⟩ := step_push_eq_some.mp hstep
      have hother : s.interest fd' = some r → fd' ≠ fd →
          fd' = s.wakeupFd ∧
            ∀ w ∈ (s.push fd callback read write watchable).watchers, w.fd ≠ fd' := by
        intro hr hne
        obtain ⟨hwake, hnone⟩ := h fd' r hr hzero
        refine ⟨hwake, ?_⟩
        intro w hw
        rcases mem_watchers_push.mp hw with hw | rfl
        · exact hnone w hw
        · exact fun heq => hne heq.symm
      cases watchable with
      | true =>
          rw [interest_push_true, Function.update_apply] at hr
          split_ifs at hr with hfd
          · obtain rfl := Option.some.inj hr
            rw [BitVec.and_comm, (mask_holds _ _ EPOLLONESHOT).2.2] at hzero
            exact absurd hzero (by decide)
          · exact hother hr hfd
      | false =>
          apply hother hr
          rintro rfl
          exact hopen ⟨(h fd' r hr hzero).1, rfl⟩
  | poll events =>
      obtain ⟨-, rfl⟩ := step_poll_eq_some.mp hstep
      rw [interest_poll] at hr
      obtain ⟨r', hr', hevents, -⟩ := report_eq_some hr
      obtain ⟨hwake, hnone⟩ := h fd' r' hr' (by rw [← hevents]; exact hzero)
      rw [wakeupFd_poll]
      exact ⟨hwake, fun w hw => hnone w (mem_watchers_poll.mp hw).1⟩
  | pop fd =>
      obtain rfl := Option.some.inj hstep
      obtain ⟨hwake, hnone⟩ := h fd' r hr hzero
      exact ⟨hwake, fun w hw => hnone w (List.mem_of_mem_filter hw)⟩

theorem covered_push_true {s : PollEngine κ} (h : s.Covered) (fd : ℤ) (callback : κ)
    (read write : Bool) : (s.push fd callback read write true).Covered := by
  rw [covered_iff] at h ⊢
  intro w hw
  rw [interest_push_true, InterestList.ArmedFor]
  obtain ⟨hrequest, hunion, -⟩ :=
    mask_holds (requestFlags read write) (s.getWatchFlags fd) EPOLLONESHOT
  by_cases hfd : w.fd = fd
  · rw [hfd, Function.update_self]
    refine ⟨_, rfl, rfl, ?_⟩
    rcases mem_watchers_push.mp hw with hold | rfl
    · exact (s.getWatchFlags_and_eq_iff fd _).mp hunion w (mem_watchersOf.mpr ⟨hold, hfd⟩)
    · exact hrequest
  · rw [Function.update_of_ne hfd]
    rcases mem_watchers_push.mp hw with hold | rfl
    · exact h w hold
    · exact absurd rfl hfd

theorem covered_push_false_iff {s : PollEngine κ} (h : s.Covered) (fd : ℤ) (callback : κ)
    (read write : Bool) :
    (s.push fd callback read write false).Covered ↔
      s.interest.ArmedFor fd (requestFlags read write) := by
  rw [covered_iff] at h ⊢
  constructor
  · intro hnew
    exact hnew ⟨fd, requestFlags read write, callback⟩ (mem_watchers_push.mpr (.inr rfl))
  · intro hr w hw
    rcases mem_watchers_push.mp hw with hold | rfl
    · exact h w hold
    · exact hr

theorem covered_poll_iff {s : PollEngine κ} {events : List Event} (hone : s.OneShot)
    (h : s.Covered) (hfds : (events.map Event.fd).Nodup) :
    (s.poll events).1.Covered ↔
      ∀ e ∈ events, ∀ w ∈ s.watchersOf e.fd, e.events &&& w.flags ≠ 0 := by
  rw [covered_iff] at h ⊢
  constructor
  · intro hnew e he w hw hmiss
    obtain ⟨hw, hfd⟩ := mem_watchersOf.mp hw
    -- no other event is about the descriptor, so the watcher stays behind
    have hstays : w ∈ (s.poll events).1.watchers := by
      refine mem_watchers_poll.mpr ⟨hw, ?_⟩
      rintro e' he' ⟨hfd', hfires⟩
      obtain rfl := List.inj_on_of_nodup_map hfds he' he (hfd'.symm.trans hfd)
      exact hfires hmiss
    obtain ⟨r, hr, harmed, -⟩ := hnew w hstays
    rw [interest_poll, InterestList.report, if_pos ⟨e, he, hfd.symm⟩] at hr
    obtain ⟨r', hr', rfl⟩ := Option.map_eq_some_iff.mp hr
    have hzero : r'.events &&& EPOLLONESHOT = 0 := by
      simp only [Registration.reported, Bool.and_eq_true, decide_eq_true_eq] at harmed
      exact harmed.2
    exact (hone w.fd r' hr' hzero).2 w hw rfl
  · intro hfire w hw
    obtain ⟨hw, hmiss⟩ := mem_watchers_poll.mp hw
    have hquiet : ¬∃ e ∈ events, e.fd = w.fd := by
      rintro ⟨e, he, hfd⟩
      exact hmiss e he ⟨hfd.symm, hfire e he w (mem_watchersOf.mpr ⟨hw, hfd.symm⟩)⟩
    rw [interest_poll, InterestList.ArmedFor, InterestList.report, if_neg hquiet]
    exact h w hw

/-- A call keeps every descriptor covered exactly if it leaves none behind. -/
theorem covered_step_iff (s : PollEngine κ) (c : Call κ) (t : PollEngine κ) (hone : s.OneShot)
    (h : s.Covered) (hstep : step s c = some t) : t.Covered ↔ s.LeavesNone c := by
  cases c with
  | push fd callback read write watchable =>
      obtain ⟨-, rfl⟩ := step_push_eq_some.mp hstep
      cases watchable with
      | true => exact ⟨fun _ => .inl rfl, fun _ => covered_push_true h fd callback read write⟩
      | false =>
          rw [covered_push_false_iff h]
          simp [LeavesNone]
  | poll events =>
      obtain ⟨hmay, rfl⟩ := step_poll_eq_some.mp hstep
      exact covered_poll_iff hone h hmay.2.1
  | pop fd =>
      obtain rfl := Option.some.inj hstep
      rw [covered_iff] at h ⊢
      exact ⟨fun _ => trivial, fun _ w hw => h w (List.mem_of_mem_filter hw)⟩

theorem covered_new (wakeupFd : ℤ) : (new wakeupFd : PollEngine κ).Covered := by
  intro fd hne
  exact absurd rfl hne

/-- In a run of calls every descriptor with a watcher is armed for all its
watchers at the end of the section of each call exactly if no call leaves a watcher
behind. Then it is so at the return of each poll, too. -/
theorem covered_iff_leavesNone (wakeupFd : ℤ) {calls : List (Call κ)} {s : PollEngine κ}
    (hrun : run step (new wakeupFd) calls = some s) :
    (∀ pre t, pre <+: calls → run step (new wakeupFd) pre = some t → t.Covered) ↔
      AllSteps step LeavesNone (new wakeupFd) calls :=
  (allSteps_iff_invariant oneShot_step covered_step_iff (oneShot_new wakeupFd)
    (covered_new wakeupFd) hrun).symm

theorem covered_iff_leavesNone_sample :
    ∃ s, run step (new 3 : PollEngine ℕ) [.push 5 0 true true true, .poll [⟨5, EPOLLOUT⟩],
        .push 5 1 true false true] = some s ∧
      ∀ pre t, pre <+: [.push 5 0 true true true, .poll [⟨5, EPOLLOUT⟩],
        .push 5 1 true false true] → run step (new 3 : PollEngine ℕ) pre = some t → t.Covered :=
  ⟨_, rfl, (covered_iff_leavesNone 3 rfl).mpr (by decide +kernel)⟩

/-- A reader and a writer wait on one descriptor, which becomes writable: the
reader stays on a disarmed descriptor. -/
theorem reader_left_disarmed :
    ∃ s, run step (new 3 : PollEngine ℕ) [.push 5 0 true false true, .push 5 1 false true true,
        .poll [⟨5, EPOLLOUT⟩]] = some s ∧ ¬s.Covered := by
  refine ⟨_, rfl, ?_⟩
  intro h
  exact absurd (h 5 (by decide +kernel)) (by decide +kernel)

end PollEngine

end Utils

end DistStorage
