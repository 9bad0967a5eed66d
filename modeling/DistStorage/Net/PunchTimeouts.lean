import DistStorage.Cpp.Trace
import DistStorage.Net.TcpV4
import DistStorage.Numeration.CappedPowers

/-!
# The waits of a hole punch

The loop of a hole punch is to poll no more often than it was told, and never
longer than it was told. The peer chooses the number of tries and the back-off; the
first wait is not capped, a scale may be negative, and no tries wrap around to the
greatest number. `holePunchLoop_bounded_iff` says for which parameters the loop is
bounded whatever the calls answer.
-/

namespace DistStorage

namespace Net

open Cpp Cpp.Action Numeration

/-- A wait that can be given to `poll`, and is not longer than the longest. -/
def Fits (settings : HolePunchParameters) (ms : ℤ) : Prop :=
  0 ≤ ms ∧ (ms : ℚ) ≤ 1000 * settings.connectSecMax

/-- The polls that an action makes, whether it returns or throws. -/
def Polls {α : Type} (q : List ℤ → Prop) (m : Run α) : Prop :=
  ∀ s, ∃ t polls, Leaves m s t ∧ t.polls = s.polls ++ polls ∧ q polls

/-- The loop of `tcpv4_hole_punch` ends, with no more polls than the greater of one
and the tries, and every wait fits. -/
def LoopBounded (settings : HolePunchParameters) : Prop :=
  ∀ src dst, Polls
    (fun polls => polls.length ≤ max 1 settings.connectCount ∧ ∀ ms ∈ polls, Fits settings ms)
    (holePunchLoop settings src dst (rounds settings.connectCount) settings.connectSecStart true)

/-- The parameters that bound the loop: there is a try, the first wait is not longer
than the longest, and no later one, in milliseconds, comes down to minus one or gets
out of `int`. A wait is a power of the scale times the first, unless the scale is
negative and the wait follows on the longest. -/
structure Sane (settings : HolePunchParameters) : Prop where
  connectCount_ne_zero : settings.connectCount ≠ 0
  start_gt : -1 < 1000 * settings.connectSecStart
  start_le : (Int.tdiv (settings.connectSecStart * 1000).num (settings.connectSecStart * 1000).den :
    ℚ) ≤ 1000 * settings.connectSecMax
  wait_gt : ∀ i < settings.connectCount,
    -1 < 1000 * settings.connectSecStart * settings.connectSecScale ^ i ∨
      2 ≤ i ∧ settings.connectSecScale < 0 ∧
        -1 < 1000 * settings.connectSecMax * settings.connectSecScale
  wait_lt : 1000 * settings.connectSecMax < 2 ^ 31 ∨
    ∀ i < settings.connectCount,
      1000 * settings.connectSecStart * settings.connectSecScale ^ i < 2 ^ 31

section Milliseconds

theorem tdiv_of_nonneg {q : ℚ} (h : 0 ≤ q) : Int.tdiv q.num q.den = ⌊q⌋ := by
  rw [Rat.floor_def', Int.tdiv_eq_ediv_of_nonneg (Rat.num_nonneg.mpr h)]

theorem tdiv_of_nonpos {q : ℚ} (h : q ≤ 0) : Int.tdiv q.num q.den = ⌈q⌉ := by
  have hnum : 0 ≤ -q.num := by
    rw [neg_nonneg]
    exact Rat.num_nonpos.mpr h
  rw [Rat.ceil_def', ← Int.tdiv_eq_ediv_of_nonneg hnum, Int.neg_tdiv, neg_neg]

/-- Cut off toward zero, a number is not negative exactly above minus one. -/
theorem tdiv_nonneg_iff {q : ℚ} : 0 ≤ Int.tdiv q.num q.den ↔ -1 < q := by
  rcases le_total 0 q with h | h
  · rw [tdiv_of_nonneg h]
    exact iff_of_true (Int.floor_nonneg.mpr h) (by linarith)
  · have hceil : 0 ≤ ⌈q⌉ ↔ -1 < ⌈q⌉ := by omega
    rw [tdiv_of_nonpos h, hceil, Int.lt_ceil, Int.cast_neg, Int.cast_one]

theorem tdiv_lt_iff {q : ℚ} {b : ℤ} (hb : 0 < b) : Int.tdiv q.num q.den < b ↔ q < b := by
  rcases le_total 0 q with h | h
  · rw [tdiv_of_nonneg h, Int.floor_lt]
  · rw [tdiv_of_nonpos h]
    have hceil : ⌈q⌉ ≤ 0 := by
      rw [Int.ceil_le]
      simpa using h
    have hcast : (0 : ℚ) < b := by exact_mod_cast hb
    exact iff_of_true (by omega) (by linarith)

theorem tdiv_le {q M : ℚ} (hM : 0 ≤ M) (h : q ≤ M) : (Int.tdiv q.num q.den : ℚ) ≤ M := by
  rcases le_total 0 q with hq | hq
  · rw [tdiv_of_nonneg hq]
    exact (Int.floor_le q).trans h
  · rw [tdiv_of_nonpos hq]
    have hceil : ⌈q⌉ ≤ 0 := by
      rw [Int.ceil_le]
      simpa using hq
    have hcast : (⌈q⌉ : ℚ) ≤ 0 := by exact_mod_cast hceil
    exact hcast.trans hM

end Milliseconds

section Waits

variable {settings : HolePunchParameters}

/-- The wait after a number of steps of the back-off. -/
def wait (settings : HolePunchParameters) : ℕ → ℚ :=
  cappedPower settings.connectSecStart settings.connectSecScale settings.connectSecMax

theorem wait_succ (settings : HolePunchParameters) (i : ℕ) :
    wait settings (i + 1) = backoff settings (wait settings i) := rfl

/-- The wait is converted to a timeout that fits. -/
def WaitFits (settings : HolePunchParameters) (connectSec : ℚ) : Prop :=
  ∃ ms, timeoutMs connectSec = some ms ∧ Fits settings ms

theorem waitFits_iff {connectSec : ℚ} :
    WaitFits settings connectSec ↔ -1 < connectSec * 1000 ∧ connectSec * 1000 < 2 ^ 31 ∧
      (Int.tdiv (connectSec * 1000).num (connectSec * 1000).den : ℚ) ≤
        1000 * settings.connectSecMax := by
  have hlt : Int.tdiv (connectSec * 1000).num (connectSec * 1000).den < 2 ^ 31 ↔
      connectSec * 1000 < 2 ^ 31 := by
    have := tdiv_lt_iff (q := connectSec * 1000) (b := 2 ^ 31) (by norm_num)
    exact_mod_cast this
  rw [← tdiv_nonneg_iff, ← hlt]
  unfold WaitFits timeoutMs Fits
  simp only
  split_ifs with hint
  · simp only [Option.some.injEq, exists_eq_left', hint.2, true_and]
  · refine iff_of_false (by simp) ?_
    rintro ⟨hnonneg, hlt, -⟩
    exact hint ⟨by omega, hlt⟩

/-- With a try, the parameters are sane exactly if every wait of a try fits. -/
theorem sane_iff (hcount : settings.connectCount ≠ 0) :
    Sane settings ↔ ∀ i < settings.connectCount, WaitFits settings (wait settings i) := by
  have hms : ∀ i, wait settings i * 1000 = cappedPower (1000 * settings.connectSecStart)
      settings.connectSecScale (1000 * settings.connectSecMax) i := by
    intro i
    rw [mul_comm, wait, mul_cappedPower (by norm_num)]
  have hstart : wait settings 0 * 1000 = 1000 * settings.connectSecStart := hms 0
  have hmax : -1 < 1000 * settings.connectSecStart →
      (Int.tdiv (settings.connectSecStart * 1000).num
        (settings.connectSecStart * 1000).den : ℚ) ≤ 1000 * settings.connectSecMax →
      0 ≤ 1000 * settings.connectSecMax := by
    intro hgt hle
    have hnonneg := tdiv_nonneg_iff.mpr ((mul_comm _ _).trans_gt hgt)
    exact le_trans (by exact_mod_cast hnonneg) hle
  have hzero : settings.connectSecStart * 1000 = 1000 * settings.connectSecStart := mul_comm _ _
  constructor
  · intro h i hi
    have hM := hmax h.start_gt h.start_le
    have hx : 1000 * settings.connectSecStart < 2 ^ 31 := by
      rcases h.wait_lt with hcap | hpower
      · have hint : Int.tdiv (settings.connectSecStart * 1000).num
            (settings.connectSecStart * 1000).den < 2 ^ 31 := by
          exact_mod_cast h.start_le.trans_lt hcap
        rw [← hzero]
        exact_mod_cast (tdiv_lt_iff (by norm_num)).mp hint
      · simpa using hpower 0 (Nat.pos_of_ne_zero hcount)
    rw [waitFits_iff]
    refine ⟨?_, ?_, ?_⟩
    · rw [hms]
      exact (forall_lt_cappedPower_iff (by norm_num) hM _).mpr h.wait_gt i hi
    · rw [hms]
      exact (forall_cappedPower_lt_iff (by norm_num) hM hx _).mpr h.wait_lt i hi
    · cases i with
      | zero => exact h.start_le
      | succ i =>
          rw [hms]
          exact tdiv_le hM (cappedPower_succ_le _ _ _ i)
  · intro h
    obtain ⟨hgt, hlt, hle⟩ := waitFits_iff.mp (h 0 (Nat.pos_of_ne_zero hcount))
    rw [hstart] at hgt hlt
    have hM := hmax hgt hle
    refine ⟨hcount, hgt, hle, ?_, ?_⟩
    · refine (forall_lt_cappedPower_iff (by norm_num) hM _).mp fun i hi => ?_
      rw [← hms]
      exact (waitFits_iff.mp (h i hi)).1
    · refine (forall_cappedPower_lt_iff (by norm_num) hM hlt _).mp fun i hi => ?_
      rw [← hms]
      exact (waitFits_iff.mp (h i hi)).2.1

end Waits

section Quiet

variable {α β : Type} {m : Run α}

def Quiet (m : Run α) : Prop :=
  ∀ s, ∃ t, Leaves m s t ∧ t.polls = s.polls

theorem Quiet.pure (a : α) : Quiet (pure a) :=
  fun s => ⟨s, .returned a rfl, rfl⟩

theorem Quiet.throw (e : Exception) : Quiet (Action.throw e : Run α) :=
  fun s => ⟨s, .thrown e rfl, rfl⟩

theorem Quiet.bind {f : α → Run β} (hm : Quiet m) (hf : ∀ a, Quiet (f a)) : Quiet (m >>= f) := by
  intro s
  obtain ⟨t, hleaves, hpolls⟩ := hm s
  cases hleaves with
  | returned a hreturned =>
      obtain ⟨u, hrest, hrestPolls⟩ := hf a t
      exact ⟨u, hrest.of_returned hreturned, hrestPolls.trans hpolls⟩
  | thrown e hthrown => exact ⟨t, .thrown e (bind_of_thrown hthrown), hpolls⟩

theorem Quiet.modify {g : Machine → Machine} (hg : ∀ s, (g s).polls = s.polls) :
    Quiet (Action.modify g) :=
  fun s => ⟨g s, .returned () rfl, hg s⟩

theorem Quiet.require (p : Prop) [Decidable p] (e : Exception) :
    Quiet (Action.require p e : Run Unit) := by
  unfold Action.require
  split_ifs
  · exact .pure ()
  · exact .throw e

theorem answer_quiet : Quiet answer :=
  fun _ => ⟨_, .returned _ rfl, rfl⟩

theorem value_quiet (v : Var) : Quiet (value v) :=
  fun _ => ⟨_, .returned _ rfl, rfl⟩

theorem allocate_quiet : Quiet allocate :=
  fun _ => ⟨_, .returned _ rfl, rfl⟩

theorem handle_quiet (v : Var) : Quiet (handle v) :=
  fun _ => ⟨_, .returned _ rfl, rfl⟩

theorem operate_quiet (fd : ℤ) : Quiet (operate fd) :=
  fun _ => ⟨_, .returned _ rfl, by simp⟩

theorem ccall_quiet (descr : String) (a : Answer) : Quiet (ccall descr a) :=
  .require _ _

theorem tcpv4NewSocket_quiet : Quiet tcpv4NewSocket :=
  answer_quiet.bind fun _ => (ccall_quiet _ _).bind fun _ => allocate_quiet

theorem tcpv4PortReuse_quiet (fd : ℤ) : Quiet (tcpv4PortReuse fd) :=
  (operate_quiet fd).bind fun _ => (ccall_quiet _ _).bind fun _ =>
    (operate_quiet fd).bind fun _ => ccall_quiet _ _

theorem tcpv4BindPort_quiet (fd : ℤ) (addr : IPv4Addr) : Quiet (tcpv4BindPort fd addr) :=
  (Quiet.require _ _).bind fun _ => (operate_quiet fd).bind fun _ => ccall_quiet _ _

theorem tcpv4ConnectUnsafe_quiet (fd : ℤ) (addr : IPv4Addr) :
    Quiet (tcpv4ConnectUnsafe fd addr) := by
  refine (Quiet.require _ _).bind fun _ => (operate_quiet fd).bind fun a => ?_
  split_ifs
  · exact .pure _
  · exact .pure _
  · exact .pure _
  · exact .pure _

theorem tcpv4AcceptUnsafe_quiet (fd : ℤ) : Quiet (tcpv4AcceptUnsafe fd) := by
  refine (operate_quiet fd).bind fun a => ?_
  split_ifs
  · exact .pure _
  · refine allocate_quiet.bind fun newFd => ?_
    exact (Quiet.modify (Machine.setVar_polls _ _)).bind fun _ => .pure _

theorem handleSome_quiet (v : Var) : Quiet (some <$> handle v) :=
  (handle_quiet v).bind fun _ => .pure _

theorem punchOutbound_quiet (dst : IPv4Addr) (fireNewSyn : Bool) :
    Quiet (punchOutbound dst fireNewSyn) := by
  cases fireNewSyn with
  | false => exact .pure none
  | true =>
      refine (value_quiet _).bind fun fd => (tcpv4ConnectUnsafe_quiet fd dst).bind fun status => ?_
      split_ifs
      · exact handleSome_quiet _
      · exact .pure _

theorem acceptPeer_quiet (dst : IPv4Addr) : Quiet (acceptPeer dst) := by
  refine (value_quiet _).bind fun fd => (tcpv4AcceptUnsafe_quiet fd).bind fun o => ?_
  cases o with
  | none => exact .pure _
  | some peer =>
      simp only
      split_ifs
      · exact handleSome_quiet _
      · refine (handle_quiet _).bind fun newFd => ?_
        exact (Quiet.modify (Machine.close_polls newFd)).bind fun _ => .pure _

theorem finishConnect_quiet (src : IPv4Addr) : Quiet (finishConnect src) := by
  refine (value_quiet _).bind fun fd => (operate_quiet fd).bind fun a => ?_
  split_ifs
  · exact handleSome_quiet _
  · refine tcpv4NewSocket_quiet.bind fun newFd => ?_
    refine (Quiet.modify (Machine.reset_polls _)).bind fun _ => ?_
    refine (Quiet.modify (Machine.setVar_polls _ newFd)).bind fun _ => ?_
    refine (tcpv4PortReuse_quiet newFd).bind fun _ => ?_
    exact (tcpv4BindPort_quiet newFd src).bind fun _ => .pure _

end Quiet

section Loop

variable {α β : Type} {q r : List ℤ → Prop} {m : Run α} {settings : HolePunchParameters}

theorem Polls.pure (hq : q []) (a : α) : Polls q (pure a : Run α) :=
  fun s => ⟨s, [], .returned a rfl, (List.append_nil _).symm, hq⟩

theorem Polls.throw (hq : q []) (e : Exception) : Polls q (Action.throw e : Run α) :=
  fun s => ⟨s, [], .thrown e rfl, (List.append_nil _).symm, hq⟩

theorem Polls.bind {f : α → Run β} (hm : Quiet m) (hf : ∀ a, Polls q (f a)) (hq : q []) :
    Polls q (m >>= f) := by
  intro s
  obtain ⟨t, hleaves, hpolls⟩ := hm s
  cases hleaves with
  | returned a hreturned =>
      obtain ⟨u, polls, hrest, hrestPolls, hqpolls⟩ := hf a t
      exact ⟨u, polls, hrest.of_returned hreturned, by rw [hrestPolls, hpolls], hqpolls⟩
  | thrown e hthrown =>
      exact ⟨t, [], .thrown e (bind_of_thrown hthrown), by rw [hpolls, List.append_nil], hq⟩

theorem pollSockets_returned (ms : ℤ) (s : Machine) :
    ∃ a t, pollSockets ms s = .returned a t ∧ t.polls = s.polls ++ [ms] :=
  ⟨_, _, rfl, by simp⟩

theorem Polls.pollSockets_bind {ms : ℤ} {f : Answer → Run β} (hf : ∀ a, Polls r (f a))
    (hq : ∀ polls, r polls → q (ms :: polls)) : Polls q (pollSockets ms >>= f) := by
  intro s
  obtain ⟨a, t, hreturned, hpolls⟩ := pollSockets_returned ms s
  obtain ⟨u, polls, hrest, hrestPolls, hqpolls⟩ := hf a t
  refine ⟨u, ms :: polls, hrest.of_returned hreturned, ?_, hq polls hqpolls⟩
  rw [hrestPolls, hpolls, List.append_assoc]
  rfl

/-- At most so many polls, with waits that fit. -/
def AtMost (settings : HolePunchParameters) (n : ℕ) (polls : List ℤ) : Prop :=
  polls.length ≤ n ∧ ∀ ms ∈ polls, Fits settings ms

theorem atMost_nil (settings : HolePunchParameters) (n : ℕ) : AtMost settings n [] :=
  ⟨Nat.zero_le n, by simp⟩

theorem AtMost.cons {n : ℕ} {ms : ℤ} {polls : List ℤ} (hms : Fits settings ms)
    (h : AtMost settings n polls) : AtMost settings (n + 1) (ms :: polls) :=
  ⟨Nat.succ_le_succ h.1, List.forall_mem_cons.mpr ⟨hms, h.2⟩⟩

theorem afterPoll_polls (src dst : IPv4Addr) {n : ℕ} {connectSec : ℚ}
    (h : ∀ fire, Polls (AtMost settings n)
      (holePunchLoop settings src dst n (backoff settings connectSec) fire)) (res : Answer) :
    Polls (AtMost settings n) (if res.pollOut then do
        match ← finishConnect src with
        | some fd => pure fd
        | none => holePunchLoop settings src dst n (backoff settings connectSec) true
      else holePunchLoop settings src dst n (backoff settings connectSec) false) := by
  have hnil := atMost_nil settings n
  split_ifs
  · refine .bind (finishConnect_quiet src) (fun o => ?_) hnil
    cases o with
    | some fd => exact .pure hnil fd
    | none => exact h true
  · exact h false

theorem holePunchLoop_polls (src dst : IPv4Addr) {n k : ℕ}
    (h : ∀ i < n, WaitFits settings (wait settings (k + i))) (fireNewSyn : Bool) :
    Polls (AtMost settings n)
      (holePunchLoop settings src dst n (wait settings k) fireNewSyn) := by
  induction n generalizing k fireNewSyn with
  | zero => exact .throw (atMost_nil settings 0) _
  | succ n ih =>
      have hnil := atMost_nil settings n
      have hsame : ∀ fire, Polls (AtMost settings n)
          (holePunchLoop settings src dst n (wait settings k) fire) :=
        ih fun i hi => h i (by omega)
      have hnext : ∀ fire, Polls (AtMost settings n)
          (holePunchLoop settings src dst n (backoff settings (wait settings k)) fire) := by
        intro fire
        rw [← wait_succ]
        exact ih (fun i hi => by rw [add_assoc, add_comm 1 i]; exact h (i + 1) (by omega)) fire
      have htail := afterPoll_polls src dst hnext
      obtain ⟨ms, hms, hfits⟩ := h 0 (Nat.succ_pos n)
      rw [add_zero] at hms
      unfold holePunchLoop
      refine .bind (punchOutbound_quiet dst fireNewSyn) (fun o => ?_) (atMost_nil settings _)
      cases o with
      | some fd => exact .pure (atMost_nil settings _) fd
      | none =>
          simp only
          rw [hms, ofOption_some_bind]
          refine Polls.pollSockets_bind (r := AtMost settings n) (fun res => ?_)
            fun polls hpolls => hpolls.cons hfits
          by_cases hfailed : res.ret < 0
          · rw [if_pos hfailed]
            split_ifs
            · exact hsame false
            · exact .throw hnil _
          rw [if_neg hfailed]
          by_cases htimeout : res.ret = 0
          · rw [if_pos htimeout]
            exact hnext false
          rw [if_neg htimeout]
          by_cases hpollIn : res.pollIn = true
          · rw [if_pos hpollIn]
            refine .bind (acceptPeer_quiet dst) (fun o => ?_) hnil
            cases o with
            | some fd => exact .pure hnil fd
            | none => exact htail res
          · rw [if_neg hpollIn]
            refine .bind (.pure none) (fun o => ?_) hnil
            cases o with
            | some fd => exact .pure hnil fd
            | none => exact htail res

end Loop

section Idle

variable {settings : HolePunchParameters} {s t : Machine}

def anyAddr : IPv4Addr := ⟨[], 0⟩

/-- Every call answers with zero, so that `poll` times out; no socket is open, so
that no connection comes about. -/
structure Idle (s : Machine) : Prop where
  opened_eq_nil : s.opened = []
  answers_eq : ∀ i, s.answers i = ⟨0, .other, false, false, anyAddr, 0⟩

theorem Idle.check (h : Idle s) (fd : ℤ) : Idle (s.check fd) := by
  unfold Machine.check
  split_ifs <;> exact ⟨h.opened_eq_nil, h.answers_eq⟩

def idleMachine : Machine :=
  { Machine.received (fun _ => ⟨0, .other, false, false, anyAddr, 0⟩) (fun _ => false) (-1) with
    opened := [] }

theorem idleMachine_idle : Idle idleMachine := ⟨rfl, fun _ => rfl⟩

theorem punchOutbound_idle (h : Idle s) (fireNewSyn : Bool) :
    ∃ u, punchOutbound anyAddr fireNewSyn s = .returned none u ∧ Idle u ∧ u.polls = s.polls := by
  cases fireNewSyn with
  | false => exact ⟨s, rfl, h, rfl⟩
  | true =>
      have hcalled : Idle { s with calls := s.calls + 1 } := ⟨h.opened_eq_nil, h.answers_eq⟩
      have hclosed : s.vars .connectFd ∉ s.opened := by simp [h.opened_eq_nil]
      have hoperate : operate (s.vars .connectFd) s = .returned
          { s.answers s.calls with
            ret := -1
            errno := .other
            pollIn := false
            pollOut := false
            soError := 0 }
          (Machine.check (s.vars .connectFd) { s with calls := s.calls + 1 }) := by
        change Outcome.returned (if _ ∈ s.opened then _ else _) _ = _
        rw [if_neg hclosed]
      refine ⟨_, ?_, hcalled.check (s.vars .connectFd), Machine.check_polls _ _⟩
      have hrequire : ipv4ConvertAddr anyAddr.addr s = .returned () s := rfl
      have hconnect : tcpv4ConnectUnsafe (s.vars .connectFd) anyAddr s = .returned .failed
          (Machine.check (s.vars .connectFd) { s with calls := s.calls + 1 }) :=
        (bind_of_returned hrequire).trans (bind_of_returned hoperate)
      exact bind_of_returned hconnect

theorem pollSockets_idle (h : Idle s) (ms : ℤ) :
    ∃ a u, pollSockets ms s = .returned a u ∧ a.ret = 0 ∧ Idle u ∧ u.polls = s.polls ++ [ms] := by
  have hcalled : Idle { s with calls := s.calls + 1 } := ⟨h.opened_eq_nil, h.answers_eq⟩
  have hchecked := (hcalled.check (s.vars .listenFd)).check (s.vars .connectFd)
  refine ⟨_, _, rfl, ?_, ⟨hchecked.opened_eq_nil, hchecked.answers_eq⟩, by simp⟩
  exact congrArg Answer.ret (h.answers_eq s.calls)

theorem holePunchLoop_idle (src : IPv4Addr) {n k : ℕ} {fireNewSyn : Bool} (h : Idle s)
    (hleaves : Leaves (holePunchLoop settings src anyAddr n (wait settings k) fireNewSyn) s t) :
    ∃ polls, t.polls = s.polls ++ polls ∧
      polls.map some = (List.range n).map fun i => timeoutMs (wait settings (k + i)) := by
  induction n generalizing s k fireNewSyn with
  | zero =>
      rw [eq_of_leaves_throw hleaves]
      exact ⟨[], (List.append_nil _).symm, rfl⟩
  | succ n ih =>
      obtain ⟨u, houtbound, hu, hpolls⟩ := punchOutbound_idle h fireNewSyn
      unfold holePunchLoop at hleaves
      have hrest := hleaves.of_bind_returned houtbound
      simp only at hrest
      obtain ⟨ms, hms, hrest⟩ := leaves_of_ofOption_bind hrest
      obtain ⟨res, v, hpoll, hres, hv, hvpolls⟩ := pollSockets_idle hu ms
      have hloop := hrest.of_bind_returned hpoll
      rw [hres, if_neg (lt_irrefl 0), if_pos rfl, ← wait_succ] at hloop
      obtain ⟨polls, htpolls, hmap⟩ := ih hv hloop
      refine ⟨ms :: polls, ?_, ?_⟩
      · rw [htpolls, hvpolls, hpolls, List.append_assoc]
        rfl
      · rw [List.map_cons, hmap, List.range_succ_eq_map, List.map_cons, List.map_map, ← hms]
        simp [Function.comp_def, Nat.add_assoc, Nat.add_comm 1]

theorem LoopBounded.idle_polls (h : LoopBounded settings) :
    ∃ polls : List ℤ, polls.map some =
        (List.range (rounds settings.connectCount)).map (fun i => timeoutMs (wait settings i)) ∧
      polls.length ≤ max 1 settings.connectCount ∧ ∀ ms ∈ polls, Fits settings ms := by
  obtain ⟨t, polls, hleaves, hpolls, hlength, hfits⟩ := h anyAddr anyAddr idleMachine
  obtain ⟨polls', hpolls', hmap⟩ := holePunchLoop_idle (k := 0) anyAddr idleMachine_idle hleaves
  obtain rfl : polls = polls' := List.append_cancel_left (hpolls.symm.trans hpolls')
  simp only [zero_add] at hmap
  exact ⟨polls, hmap, hlength, hfits⟩

end Idle

/-- Whatever the calls answer, the loop polls no more often than the greater of one
and the tries, and never longer than the longest wait, exactly if the parameters are
sane. -/
theorem loopBounded_iff (settings : HolePunchParameters) :
    LoopBounded settings ↔ Sane settings := by
  constructor
  · intro h
    obtain ⟨polls, hmap, hlength, hfits⟩ := h.idle_polls
    have hrounds : polls.length = rounds settings.connectCount := by
      simpa using congrArg List.length hmap
    have hcount : settings.connectCount ≠ 0 := by
      intro hzero
      rw [hrounds, hzero] at hlength
      exact absurd hlength (by decide)
    rw [sane_iff hcount]
    intro i hi
    rw [rounds, if_neg hcount] at hrounds hmap
    have hget := congrArg (·[i]?) hmap
    simp only [List.getElem?_map, List.getElem?_range hi,
      List.getElem?_eq_getElem (hi.trans_eq hrounds.symm), Option.map_some,
      Option.some.injEq] at hget
    exact ⟨_, hget.symm, hfits _ (List.getElem_mem _)⟩
  · intro h src dst
    have hcount := h.connectCount_ne_zero
    have hfits := (sane_iff hcount).mp h
    have hloop := holePunchLoop_polls src dst (n := settings.connectCount) (k := 0)
      (fun i hi => by rw [zero_add]; exact hfits i hi) true
    rw [rounds, if_neg hcount]
    intro s
    obtain ⟨t, polls, hleaves, hpolls, hatMost⟩ := hloop s
    exact ⟨t, polls, hleaves, hpolls, hatMost.1.trans (le_max_right _ _), hatMost.2⟩

def sampleParameters (connectCount : ℕ) (connectSecStart : ℚ) : HolePunchParameters where
  src := .ipv4 anyAddr
  dst := .ipv4 anyAddr
  connectSecStart := connectSecStart
  connectSecMax := 2
  connectSecScale := 1
  connectCount := connectCount

/-- No tries are 2 ^ 32 of them, and a first wait of ten seconds is not cut down to
two. -/
theorem punch_waits_long :
    ¬LoopBounded (sampleParameters 0 1) ∧ ¬LoopBounded (sampleParameters 1 10) := by
  constructor
  · intro h
    obtain ⟨polls, hmap, hlength, -⟩ := h.idle_polls
    have hrounds : polls.length = rounds (sampleParameters 0 1).connectCount := by
      simpa using congrArg List.length hmap
    rw [hrounds] at hlength
    exact absurd hlength (by decide)
  · intro h
    obtain ⟨polls, hmap, -, hfits⟩ := h.idle_polls
    have hwait : timeoutMs (wait (sampleParameters 1 10) 0) = some 10000 := by
      decide +kernel
    have hpolls : polls = [10000] := by
      have hone : polls.map some = [10000].map some := hmap.trans (congrArg ([·]) hwait)
      exact List.map_injective_iff.mpr (Option.some_injective ℤ) hone
    rw [hpolls] at hfits
    exact absurd (hfits 10000 (List.mem_singleton_self _)).2 (by norm_num [sampleParameters])

end Net

end DistStorage
