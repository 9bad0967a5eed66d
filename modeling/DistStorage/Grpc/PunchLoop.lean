import DistStorage.Grpc.HolePunchPath

/-!
# The descriptors of the punch loop

The loop of `tcpv4_hole_punch` on a listener and a bound connector: each round may
accept a peer, drop it, or replace a connector that failed. In every round the listener
and one connector are open and in their owners, and what is returned is the connector,
or a peer that was accepted from the destination.

The loop is taken on its own: `tcpv4_hole_punch` takes the connector out of its owner
before it binds it, and does not come to the loop with a connector that is bound.
-/

namespace DistStorage

namespace Grpc

namespace HolePunch

open Cpp Cpp.Action Net

/-- A listener and a connector are open, in their owners, and no call was made on a
descriptor that was not open. -/
structure Punching (l c : ℤ) (s : Machine) : Prop where
  listenFd_eq : s.vars .listenFd = l
  connectFd_eq : s.vars .connectFd = c
  opened_eq : s.opened = [l, c]
  ne : l ≠ c
  nonneg : 0 ≤ l ∧ 0 ≤ c
  lt_nextFd : l < s.nextFd ∧ c < s.nextFd
  notMem_faults : ∀ fd, .badDescriptor fd ∉ s.faults

/-- The last call was an accept on the listener, whose peer was the destination, and the
descriptor that it made was taken out of its variable. -/
def AcceptedFrom (l : ℤ) (dst : IPv4Addr) (fd : ℤ) (s : Machine) : Prop :=
  ∃ c t peer u, Punching l c t ∧ tcpv4AcceptUnsafe l t = .returned (some peer) u ∧
    (peer.addr = dst.addr ∧ peer.port = dst.port) ∧ u.vars .acceptedFd = fd ∧
    s = u.setVar .acceptedFd (-1)

/-- The connector is returned and out of its owner, or the peer that was accepted last. -/
structure Won (l : ℤ) (dst : IPv4Addr) (fd : ℤ) (s : Machine) : Prop where
  listenFd_eq : s.vars .listenFd = l
  nonneg : 0 ≤ l
  ne : l ≠ fd
  result : s.vars .connectFd = -1 ∧ s.opened = [l, fd] ∨
    AcceptedFrom l dst fd s ∧
      ∃ c, 0 ≤ c ∧ l ≠ c ∧ c ≠ fd ∧ s.vars .connectFd = c ∧ s.opened = [l, c, fd]
  notMem_faults : ∀ fd, .badDescriptor fd ∉ s.faults

/-- How a part of a round ends: with a result, or ready to go on. -/
def Advances (l : ℤ) (dst : IPv4Addr) : Option ℤ → Machine → Prop
  | some fd, s => Won l dst fd s
  | none, s => ∃ c, Punching l c s

structure Accepted (l c : ℤ) (peer : IPv4Addr) (s : Machine) : Prop where
  listenFd_eq : s.vars .listenFd = l
  connectFd_eq : s.vars .connectFd = c
  opened_eq : s.opened = [l, c, s.vars .acceptedFd]
  ne : l ≠ c
  acceptedFd_ne : l ≠ s.vars .acceptedFd ∧ c ≠ s.vars .acceptedFd
  nonneg : 0 ≤ l ∧ 0 ≤ c
  lt_nextFd : l < s.nextFd ∧ c < s.nextFd
  accepted : ∃ c t, Punching l c t ∧ tcpv4AcceptUnsafe l t = .returned (some peer) s
  notMem_faults : ∀ fd, .badDescriptor fd ∉ s.faults

/-- What an exception leaves. -/
def Lost (l : ℤ) (_ : Exception) (s : Machine) : Prop := ∃ c, Punching l c s

section Calls

variable {l c : ℤ} {s : Machine}

theorem Punching.withCalls (h : Punching l c s) (n : ℕ) : Punching l c { s with calls := n } :=
  ⟨h.listenFd_eq, h.connectFd_eq, h.opened_eq, h.ne, h.nonneg, h.lt_nextFd, h.notMem_faults⟩

theorem Punching.operate (h : Punching l c s) {fd : ℤ} (hfd : fd = l ∨ fd = c) :
    operate fd s = .returned (s.answers s.calls) { s with calls := s.calls + 1 } := by
  apply operate_of_owned
  · rw [h.opened_eq]
    rcases hfd with rfl | rfl <;> simp
  · rcases hfd with rfl | rfl
    · exact ⟨.listenFd, by decide, h.listenFd_eq⟩
    · exact ⟨.connectFd, by decide, h.connectFd_eq⟩

theorem operate_connectFd (l c : ℤ) :
    Triple (Punching l c) (operate c) (fun _ => Punching l c) (Lost l) := by
  intro s h
  rw [h.operate (.inr rfl)]
  exact h.withCalls _

theorem callOnConnector (l c : ℤ) (descr : String) :
    Triple (Punching l c) (operate c >>= ccall descr) (fun _ => Punching l c) (Lost l) := by
  refine (operate_connectFd l c).bind fun a => ?_
  unfold ccall Action.require
  split_ifs
  · exact fun s h => h
  · exact fun s h => ⟨c, h⟩

theorem convertAddr (l c : ℤ) (addr : Bytes) :
    Triple (Punching l c) (ipv4ConvertAddr addr) (fun _ => Punching l c) (Lost l) := by
  unfold ipv4ConvertAddr Action.require
  split_ifs
  · exact fun s h => h
  · exact fun s h => ⟨c, h⟩

theorem portReuse (l c : ℤ) :
    Triple (Punching l c) (tcpv4PortReuse c) (fun _ => Punching l c) (Lost l) := by
  unfold tcpv4PortReuse
  refine (operate_connectFd l c).bind fun a => ?_
  refine Triple.bind (Q := fun _ => Punching l c) ?_ fun _ => callOnConnector l c _
  unfold ccall Action.require
  split_ifs
  · exact fun s h => h
  · exact fun s h => ⟨c, h⟩

theorem bindPort (l c : ℤ) (addr : IPv4Addr) :
    Triple (Punching l c) (tcpv4BindPort c addr) (fun _ => Punching l c) (Lost l) :=
  (convertAddr l c addr.addr).bind fun _ => callOnConnector l c _

theorem handleConnector (l c : ℤ) (dst : IPv4Addr) :
    Triple (Punching l c) (some <$> handle .connectFd) (Advances l dst) (Lost l) := by
  intro s h
  change Won l dst (s.vars .connectFd) (s.setVar .connectFd (-1))
  rw [h.connectFd_eq]
  exact ⟨h.listenFd_eq, h.nonneg.1, h.ne, .inl ⟨rfl, h.opened_eq⟩, h.notMem_faults⟩

theorem value_triple {α : Type} {v : Var} {fd l c : ℤ} {m : ℤ → Run α} {Q : α → Machine → Prop}
    (hv : ∀ s, Punching l c s → s.vars v = fd) (hm : Triple (Punching l c) (m fd) Q (Lost l)) :
    Triple (Punching l c) (value v >>= m) Q (Lost l) := by
  intro s h
  rw [value_bind, hv s h]
  exact hm s h

theorem punchOutbound_advances (l c : ℤ) (dst : IPv4Addr) (fireNewSyn : Bool) :
    Triple (Punching l c) (punchOutbound dst fireNewSyn) (Advances l dst) (Lost l) := by
  cases fireNewSyn with
  | false => exact fun s h => ⟨c, h⟩
  | true =>
      refine value_triple (fun s h => h.connectFd_eq) ?_
      have hconnect : Triple (Punching l c) (tcpv4ConnectUnsafe c dst) (fun _ => Punching l c)
          (Lost l) := by
        refine (convertAddr l c dst.addr).bind fun _ => (operate_connectFd l c).bind fun a => ?_
        split_ifs
        · exact fun s h => h
        · exact fun s h => h
        · exact fun s h => h
        · exact fun s h => h
      refine hconnect.bind fun status => ?_
      split_ifs
      · exact handleConnector l c dst
      · exact fun s h => ⟨c, h⟩

theorem pollSockets_punching (l c ms : ℤ) :
    Triple (Punching l c) (pollSockets ms) (fun _ => Punching l c) (Lost l) := by
  intro s h
  have hcalls := h.withCalls (s.calls + 1)
  have hl : Machine.check (s.vars .listenFd) { s with calls := s.calls + 1 } =
      { s with calls := s.calls + 1 } :=
    check_of_owned (by rw [hcalls.opened_eq, h.listenFd_eq]; simp) ⟨.listenFd, by decide, rfl⟩
  have hc : Machine.check (s.vars .connectFd) { s with calls := s.calls + 1 } =
      { s with calls := s.calls + 1 } :=
    check_of_owned (by rw [hcalls.opened_eq, h.connectFd_eq]; simp) ⟨.connectFd, by decide, rfl⟩
  change Punching l c { (Machine.check (s.vars .connectFd)
    (Machine.check (s.vars .listenFd) { s with calls := s.calls + 1 })) with polls := _ }
  rw [hl, hc]
  exact ⟨h.listenFd_eq, h.connectFd_eq, h.opened_eq, h.ne, h.nonneg, h.lt_nextFd, h.notMem_faults⟩

theorem acceptUnsafe (l c : ℤ) :
    Triple (Punching l c) (tcpv4AcceptUnsafe l)
      (fun o s => match o with
        | none => Punching l c s
        | some peer => Accepted l c peer s) (Lost l) := by
  intro s h
  by_cases hret : (s.answers s.calls).ret < 0
  · rw [tcpv4AcceptUnsafe, bind_of_returned (h.operate (.inl rfl)), if_pos hret]
    exact h.withCalls _
  have haccept : tcpv4AcceptUnsafe l s = .returned (some (s.answers s.calls).peer)
      (Machine.setVar .acceptedFd s.nextFd
        { s with
          calls := s.calls + 1
          nextFd := s.nextFd + 1
          opened := s.opened ++ [s.nextFd] }) := by
    rw [tcpv4AcceptUnsafe, bind_of_returned (h.operate (.inl rfl)), if_neg hret]
    rfl
  rw [haccept]
  obtain ⟨hl, hc⟩ := h.lt_nextFd
  exact
    { listenFd_eq := h.listenFd_eq
      connectFd_eq := h.connectFd_eq
      opened_eq := by
        change s.opened ++ [s.nextFd] = _
        rw [h.opened_eq]
        rfl
      ne := h.ne
      acceptedFd_ne := ⟨hl.ne, hc.ne⟩
      nonneg := h.nonneg
      lt_nextFd := ⟨hl.trans (Int.lt_succ _), hc.trans (Int.lt_succ _)⟩
      accepted := ⟨c, s, h, haccept⟩
      notMem_faults := h.notMem_faults }

/-- A check records no call on a descriptor that is open. -/
theorem notMem_faults_check {s : Machine} (h : ∀ fd, .badDescriptor fd ∉ s.faults) {fd : ℤ}
    (hfd : fd ∈ s.opened) : ∀ fd', .badDescriptor fd' ∉ (s.check fd).faults := by
  intro fd' hmem
  rw [Machine.check, if_neg (not_not.mpr hfd)] at hmem
  split_ifs at hmem
  · exact h fd' hmem
  · rcases List.mem_append.mp hmem with hmem | hlast
    · exact h fd' hmem
    · cases List.mem_singleton.mp hlast

theorem acceptPeer_advances (l c : ℤ) (dst : IPv4Addr) :
    Triple (Punching l c) (acceptPeer dst) (Advances l dst) (Lost l) := by
  refine value_triple (fun s h => h.listenFd_eq) ((acceptUnsafe l c).bind fun o => ?_)
  cases o with
  | none => exact fun s h => ⟨c, h⟩
  | some peer =>
      simp only
      split_ifs with hpeer
      · intro s h
        obtain ⟨c', t, ht, haccept⟩ := h.accepted
        have hfrom : AcceptedFrom l dst (s.vars .acceptedFd) (s.setVar .acceptedFd (-1)) :=
          ⟨c', t, peer, s, ht, haccept, hpeer, rfl, rfl⟩
        exact ⟨h.listenFd_eq, h.nonneg.1, h.acceptedFd_ne.1, .inr ⟨hfrom, c, h.nonneg.2, h.ne,
          h.acceptedFd_ne.2, h.connectFd_eq, h.opened_eq⟩, h.notMem_faults⟩
      · intro s h
        have hmem : s.vars .acceptedFd ∈ (s.setVar .acceptedFd (-1)).opened := by
          rw [show (s.setVar .acceptedFd (-1)).opened = s.opened from rfl, h.opened_eq]
          simp
        change ∃ c', Punching l c' ((s.setVar .acceptedFd (-1)).close (s.vars .acceptedFd))
        obtain ⟨hvars, hopened⟩ := check_eq (s.vars .acceptedFd) (s.setVar .acceptedFd (-1))
        refine ⟨c, ?_, ?_, ?_, h.ne, h.nonneg, ?_, ?_⟩
        · exact (congrFun hvars .listenFd).trans h.listenFd_eq
        · exact (congrFun hvars .connectFd).trans h.connectFd_eq
        · change ((s.setVar .acceptedFd (-1)).check (s.vars .acceptedFd)).opened.erase _ = _
          rw [hopened]
          change s.opened.erase (s.vars .acceptedFd) = _
          rw [h.opened_eq, List.erase_cons_tail (by simpa using h.acceptedFd_ne.1),
            List.erase_cons_tail (by simpa using h.acceptedFd_ne.2), List.erase_cons_head]
        · have hnext : ((s.setVar .acceptedFd (-1)).close (s.vars .acceptedFd)).nextFd =
              s.nextFd := by
            unfold Machine.close Machine.check
            split_ifs <;> rfl
          rw [hnext]
          exact h.lt_nextFd
        · exact notMem_faults_check (s := s.setVar .acceptedFd (-1)) h.notMem_faults hmem

/-- A connector that failed is closed once the new one is there, which is in its place
before anything else can fail. -/
theorem finishConnect_advances (l c : ℤ) (src dst : IPv4Addr) :
    Triple (Punching l c) (finishConnect src) (Advances l dst) (Lost l) := by
  refine value_triple (fun s h => h.connectFd_eq) ((operate_connectFd l c).bind fun a => ?_)
  split_ifs
  · exact handleConnector l c dst
  have hnew : Triple (Punching l c) tcpv4NewSocket (fun n s => ∃ t, Punching l c t ∧ n = t.nextFd ∧
      s = { t with nextFd := t.nextFd + 1, opened := t.opened ++ [t.nextFd] }) (Lost l) := by
    intro s h
    by_cases hret : 0 ≤ (s.answers s.calls).ret
    · rw [tcpv4NewSocket, bind_of_returned (show answer s = _ from rfl),
        bind_of_returned (ccall_returned _ hret _)]
      exact ⟨_, h.withCalls _, rfl, rfl⟩
    · rw [tcpv4NewSocket, bind_of_returned (show answer s = _ from rfl),
        bind_of_thrown (ccall_thrown hret _)]
      exact ⟨c, h.withCalls _⟩
  refine hnew.bind fun n => ?_
  rintro s ⟨t, ht, rfl, rfl⟩
  have hreplaced : Punching l t.nextFd
      ((Machine.reset .connectFd
        { t with nextFd := t.nextFd + 1, opened := t.opened ++ [t.nextFd] }).setVar
          .connectFd t.nextFd) := by
    obtain ⟨hl, hc⟩ := ht.lt_nextFd
    have hne : t.vars .connectFd ≠ -1 := by
      rw [ht.connectFd_eq]
      have := ht.nonneg
      omega
    rw [reset_of_opened (s := { t with
      nextFd := t.nextFd + 1
      opened := t.opened ++ [t.nextFd] }) hne (by simp [ht.opened_eq, ht.connectFd_eq])]
    refine ⟨?_, ?_, ?_, hl.ne, ⟨ht.nonneg.1, ht.nonneg.1.trans hl.le⟩,
      ⟨hl.trans (Int.lt_succ _), Int.lt_succ _⟩, ht.notMem_faults⟩
    · simp [Machine.setVar, ht.listenFd_eq]
    · simp [Machine.setVar]
    · change (t.opened ++ [t.nextFd]).erase (t.vars .connectFd) = _
      rw [ht.opened_eq, ht.connectFd_eq, List.cons_append,
        List.erase_cons_tail (by simpa using ht.ne), List.cons_append, List.erase_cons_head]
      rfl
  have hrest : Triple (Punching l t.nextFd) (do
      tcpv4PortReuse t.nextFd
      tcpv4BindPort t.nextFd src
      pure none : Run (Option ℤ)) (Advances l dst) (Lost l) :=
    (portReuse l t.nextFd).bind fun _ => (bindPort l t.nextFd src).bind fun _ s h => ⟨_, h⟩
  exact hrest _ hreplaced

end Calls

/-- In every round the listener and one connector are open and in their owners, whatever
the calls answer. What the loop returns is the connector, or a peer that was accepted from
the destination. -/
theorem holePunchLoop_won (settings : HolePunchParameters) (src dst : IPv4Addr) (l : ℤ) (n : ℕ)
    (connectSec : ℚ) (fireNewSyn : Bool) :
    Triple (fun s => ∃ c, Punching l c s)
      (holePunchLoop settings src dst n connectSec fireNewSyn) (Won l dst) (Lost l) := by
  induction n generalizing connectSec fireNewSyn with
  | zero => exact fun s h => h
  | succ n ih =>
      have hnext : ∀ (c connectSec : _) (fireNewSyn : Bool), Triple (Punching l c)
          (holePunchLoop settings src dst n connectSec fireNewSyn) (Won l dst) (Lost l) :=
        fun c _ _ => (ih _ _).consequence (fun s h => ⟨c, h⟩) (fun _ _ h => h) fun _ _ h => h
      -- what is done with the end of `connect` is given by its two cases
      have htail : ∀ (res : Answer) (c : ℤ) (finished : Option ℤ → Run ℤ),
          (∀ fd, finished (some fd) = pure fd) →
          finished none = holePunchLoop settings src dst n (backoff settings connectSec) true →
          Triple (Punching l c) (if res.pollOut then finishConnect src >>= finished
            else holePunchLoop settings src dst n (backoff settings connectSec) false)
            (Won l dst) (Lost l) := by
        intro res c finished hsome hnone
        split_ifs
        · refine (finishConnect_advances l c src dst).bind fun o => ?_
          cases o with
          | some fd =>
              rw [hsome]
              exact fun s h => h
          | none =>
              rw [hnone]
              exact ih _ _
        · exact hnext c _ _
      unfold holePunchLoop
      rintro s ⟨c, h⟩
      refine (punchOutbound_advances l c dst fireNewSyn).bind (fun o => ?_) s h
      cases o with
      | some fd => exact fun s h => h
      | none =>
          rintro s ⟨c, h⟩
          refine Triple.ofOption_bind (P := Punching l c) (fun ms _ => ?_) s h
          refine (pollSockets_punching l c ms).bind fun res => ?_
          by_cases hfailed : res.ret < 0
          · rw [if_pos hfailed]
            split_ifs
            · exact hnext c _ _
            · exact fun s h => ⟨c, h⟩
          rw [if_neg hfailed]
          by_cases htimeout : res.ret = 0
          · rw [if_pos htimeout]
            exact hnext c _ _
          rw [if_neg htimeout]
          by_cases hpollIn : res.pollIn = true
          · rw [if_pos hpollIn]
            refine (acceptPeer_advances l c dst).bind fun o => ?_
            cases o with
            | some fd => exact fun s h => h
            | none =>
                rintro s ⟨c, h⟩
                exact htail res c _ (fun _ => rfl) rfl s h
          · rw [if_neg hpollIn]
            exact htail res c _ (fun _ => rfl) rfl

/-- The loop to the end of the scopes of the connector and of the listener. -/
def punchScopes (settings : HolePunchParameters) (src dst : IPv4Addr) (n : ℕ) (connectSec : ℚ)
    (fireNewSyn : Bool) : Run ℤ :=
  finallyDo
    (finallyDo (holePunchLoop settings src dst n connectSec fireNewSyn) (Machine.reset .connectFd))
    (Machine.reset .listenFd)

/-- Only these descriptors are open, and no call was made on another one. -/
structure OnlyOpen (fds : List ℤ) (s : Machine) : Prop where
  opened_eq : s.opened = fds
  notMem_faults : ∀ fd, .badDescriptor fd ∉ s.faults

section Scopes

variable {l c fd : ℤ} {dst : IPv4Addr} {s : Machine}

theorem OnlyOpen.reset {fds : List ℤ} {v : Var} (h : OnlyOpen fds s) (hv : 0 ≤ s.vars v)
    (hmem : s.vars v ∈ fds) :
    OnlyOpen (fds.erase (s.vars v)) (s.reset v) ∧
      ∀ v' ≠ v, (s.reset v).vars v' = s.vars v' := by
  rw [reset_of_opened (by omega) (by rwa [h.opened_eq])]
  refine ⟨⟨congrArg (List.erase · (s.vars v)) h.opened_eq, h.notMem_faults⟩, fun v' hne => ?_⟩
  exact Function.update_of_ne hne _ _

theorem Punching.released (h : Punching l c s) :
    OnlyOpen [] ((s.reset .connectFd).reset .listenFd) := by
  obtain ⟨hl, hc⟩ := h.nonneg
  have hconnect := OnlyOpen.reset (v := .connectFd) ⟨h.opened_eq, h.notMem_faults⟩
    (by rwa [h.connectFd_eq]) (by simp [h.connectFd_eq])
  rw [h.connectFd_eq, List.erase_cons_tail (by simpa using h.ne), List.erase_cons_head] at hconnect
  have hlisten := hconnect.2 .listenFd (by decide)
  rw [h.listenFd_eq] at hlisten
  have hreset := (hconnect.1.reset (v := .listenFd) (by rwa [hlisten]) (by simp [hlisten])).1
  rwa [hlisten, List.erase_cons_head] at hreset

theorem Won.released (h : Won l dst fd s) :
    OnlyOpen [fd] ((s.reset .connectFd).reset .listenFd) := by
  obtain ⟨hconnect, hopened⟩ | ⟨-, c, hc, hlc, hcfd, hconnect, hopened⟩ := h.result
  · have hkept : s.reset .connectFd = s := by rw [Machine.reset, if_pos hconnect]
    rw [hkept]
    have hreset := (OnlyOpen.reset (v := .listenFd) ⟨hopened, h.notMem_faults⟩
      (by rw [h.listenFd_eq]; exact h.nonneg) (by simp [h.listenFd_eq])).1
    rwa [h.listenFd_eq, List.erase_cons_head] at hreset
  · have hreset := OnlyOpen.reset (v := .connectFd) ⟨hopened, h.notMem_faults⟩
      (by rwa [hconnect]) (by simp [hconnect])
    rw [hconnect, List.erase_cons_tail (by simpa using hlc), List.erase_cons_head] at hreset
    have hlisten := hreset.2 .listenFd (by decide)
    rw [h.listenFd_eq] at hlisten
    have hclosed := (hreset.1.reset (v := .listenFd) (by rw [hlisten]; exact h.nonneg)
      (by simp [hlisten])).1
    rwa [hlisten, List.erase_cons_head] at hclosed

end Scopes

/-- From a listener and a bound connector, whatever the calls answer: the loop returns
the connector or a peer that was accepted from the destination, and when the scopes of
the two are left, what was returned is the only descriptor that is open, after an
exception none. No call is made on a descriptor that is not open. -/
theorem holePunchLoop_released (settings : HolePunchParameters) (src dst : IPv4Addr) (l : ℤ)
    (n : ℕ) (connectSec : ℚ) (fireNewSyn : Bool) :
    Triple (fun s => ∃ c, Punching l c s)
        (holePunchLoop settings src dst n connectSec fireNewSyn) (Won l dst) (Lost l) ∧
      Triple (fun s => ∃ c, Punching l c s)
        (punchScopes settings src dst n connectSec fireNewSyn)
        (fun fd => OnlyOpen [fd]) (fun _ => OnlyOpen []) := by
  have hloop := holePunchLoop_won settings src dst l n connectSec fireNewSyn
  refine ⟨hloop, ?_⟩
  have hscope : Triple (fun s => ∃ c, Punching l c s)
      (finallyDo (holePunchLoop settings src dst n connectSec fireNewSyn)
        (Machine.reset .connectFd))
      (fun fd s => OnlyOpen [fd] (s.reset .listenFd))
      (fun _ s => OnlyOpen [] (s.reset .listenFd)) := by
    refine hloop.finallyDo (fun fd s h => h.released) ?_
    rintro e s ⟨c, h⟩
    exact h.released
  exact hscope.finallyDo (fun _ _ h => h) fun _ _ h => h

/-- A listener and a connector, with a peer of another address in the first round and a
connector that fails in the second one. -/
def samplePunching : Machine :=
  { Machine.received
      (fun k =>
        match k with
        | 0 => ⟨-1, .inProgress, false, false, ⟨[], 0⟩, 0⟩
        | 1 => ⟨1, .other, true, false, ⟨[], 0⟩, 0⟩
        | 2 => ⟨0, .other, false, false, ⟨[10, 0, 0, 9], 5000⟩, 0⟩
        | 3 => ⟨1, .other, false, true, ⟨[], 0⟩, 0⟩
        | 4 => ⟨0, .other, false, false, ⟨[], 0⟩, 111⟩
        | _ => ⟨0, .other, false, false, ⟨[], 0⟩, 0⟩)
      (fun _ => false) 5 with
    nextFd := 7
    vars := fun v =>
      match v with
      | .listenFd => 5
      | .connectFd => 6
      | _ => -1
    opened := [5, 6] }

theorem samplePunching_punching : Punching 5 6 samplePunching := by
  constructor <;> simp [samplePunching, Machine.received]

theorem holePunchLoop_released_sample :
    ∃ s, punchScopes sampleParameters ⟨[], 4000⟩ ⟨[10, 0, 0, 2], 5000⟩ 3 1 true samplePunching =
      .returned 8 s ∧ OnlyOpen [8] s := by
  obtain ⟨fd, s, hrun, hfd⟩ := Outcome.exists_of_returns (p := fun fd _ => fd = 8)
    (show (punchScopes sampleParameters ⟨[], 4000⟩ ⟨[10, 0, 0, 2], 5000⟩ 3 1 true
      samplePunching).returns _ = true by decide +kernel)
  obtain rfl : fd = 8 := of_decide_eq_true hfd
  have hreleased := (holePunchLoop_released sampleParameters ⟨[], 4000⟩ ⟨[10, 0, 0, 2], 5000⟩ 5 3 1
    true).2
  exact ⟨s, hrun, hreleased.returned ⟨6, samplePunching_punching⟩ hrun⟩

end HolePunch

end Grpc

end DistStorage
