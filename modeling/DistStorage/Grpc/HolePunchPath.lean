import DistStorage.Net.TcpV4

/-!
# The hole-punch path

`PerformHolePunchAndHandshake` punches, runs the TLS handshake on the connected
socket and hands an `SSLEndpoint` to its callback. The path goes from the
reserved socket to the destruction of the endpoint.
-/

namespace DistStorage

namespace Grpc

namespace HolePunch

open Cpp Net

/-- `SSL_new`, and a call on a null pointer if it fails. -/
def sslNew : Run Unit := do
  let a ← answer
  if a.ret = 0 then fun _ => .undefined
  else Action.modify fun s => { s with sslLocal := true, sslCreated := s.sslCreated + 1 }

/-- `SSL_set_fd`, which does not own the descriptor. -/
def sslSetFd (fd : ℤ) : Run Unit := Action.modify fun s => { s with sslFd := fd }

/-- `SSL_connect` or `SSL_accept` on the descriptor of the object. -/
def sslHandshake : Run ℤ := do
  let s ← Action.get
  let a ← operate s.sslFd
  pure a.ret

/-- The destructor of the local `ssl`. -/
def freeLocal (s : Machine) : Machine :=
  if s.sslLocal then { s.sslFree with sslLocal := false } else s

/-- `SSLEndpoint::SSLEndpoint`: the socket and the object move in, and their
addresses are read. -/
def newEndpoint : Run Unit := do
  Action.modify fun s =>
    { s.move .connectedFd .endpointFd with sslLocal := false, sslEndpoint := true }
  let _ ← operate (← value .endpointFd)
  let _ ← operate (← value .endpointFd)
  pure ()

/-- `SSLEndpoint::~SSLEndpoint`, which frees the object and leaves it to the
destructor of its member as well. -/
def destroyEndpoint (s : Machine) : Machine :=
  if s.sslEndpoint then ({ s.sslFree.sslFree with sslEndpoint := false }).reset .endpointFd else s

/-- The handshake after the punch, with the connected socket in its variable. -/
def handshake (onComplete : Completion → Run Unit) : Run Unit := do
  tcpv4SetBlocking (← value .connectedFd)
  tcpv4SetTimeout (← value .connectedFd)
  sslNew
  Action.finallyDo (do
    sslSetFd (← handle .connectedFd)
    let ret ← sslHandshake
    if ret ≠ 1 then onComplete .handshakeFailed
    else do
      tcpv4SetTimeout (← value .connectedFd)
      tcpv4SetBlocking (← value .connectedFd)
      newEndpoint
      let s ← Action.get
      onComplete (.endpoint (s.vars .endpointFd ∈ s.opened))) freeLocal

/-- The block of `PerformHolePunchAndHandshake` whose exceptions are caught. -/
def punchAndHandshake (params : HolePunchParameters) (onComplete : Completion → Run Unit) :
    Run Unit := do
  if ← loadCancelFlag then onComplete .cancelledBefore
  else do
    Action.modify (Machine.move .fd .listenFd)
    let raw ← tcpv4HolePunch params
    Action.finallyDo (do
      Action.modify (Machine.setVar .connectedFd raw)
      if ← loadCancelFlag then onComplete .cancelledDuring
      else handshake onComplete) (Machine.reset .connectedFd)

/-- `PerformHolePunchAndHandshake` with the reserved socket in `fd`. -/
def performHolePunchAndHandshake (params : HolePunchParameters)
    (onComplete : Completion → Run Unit) : Run Unit :=
  Action.finallyDo
    (Action.tryCatch (punchAndHandshake params onComplete) fun e => onComplete (.failed e))
    (Machine.reset .fd)

def keepCompletion (c : Completion) : Run Unit :=
  Action.modify fun s => { s with completions := s.completions ++ [c] }

/-- The path from a received socket to the destruction of the endpoint. -/
def path (params : HolePunchParameters) : Run Unit :=
  Action.finallyDo (performHolePunchAndHandshake params keepCompletion) destroyEndpoint

/-- What the path promises: no fault, every socket closed, every object freed
once, and a created endpoint owns its socket. -/
structure Sound (s : Machine) : Prop where
  faults_eq_nil : s.faults = []
  opened_eq_nil : s.opened = []
  sslFreed_eq : s.sslFreed = s.sslCreated
  endpoint_owns : .endpoint false ∉ s.completions

/-- A connector is created: the punch is not cancelled before, its addresses are
IPv4, and `listen` and `socket` succeed. -/
def ConnectorCreated (answers : ℕ → Answer) (cancelled : ℕ → Bool)
    (params : HolePunchParameters) : Prop :=
  cancelled 0 = false ∧ (∃ src, params.src = .ipv4 src) ∧ (∃ dst, params.dst = .ipv4 dst) ∧
    0 ≤ (answers 0).ret ∧ 0 ≤ (answers 1).ret

/-- Only the listener is open, and its variable owns it. -/
structure Holding (fd : ℤ) (s : Machine) : Prop where
  fd_eq : s.vars .fd = -1
  listenFd_eq : s.vars .listenFd = fd
  opened_eq : s.opened = [fd]
  faults_eq_nil : s.faults = []
  sslEndpoint_eq : s.sslEndpoint = false
  sslFreed_eq : s.sslFreed = s.sslCreated
  completions_eq_nil : s.completions = []

def punchStart (answers : ℕ → Answer) (cancelled : ℕ → Bool) (fd : ℤ) : Machine :=
  { Machine.received answers cancelled fd with loads := 1 }.move .fd .listenFd

theorem check_of_owned {s : Machine} {fd : ℤ} (hopened : fd ∈ s.opened) (howned : s.Owned fd) :
    s.check fd = s := by
  rw [Machine.check, if_neg (not_not.mpr hopened), if_neg (not_not.mpr howned)]

theorem operate_of_owned {s : Machine} {fd : ℤ} (hopened : fd ∈ s.opened) (howned : s.Owned fd) :
    operate fd s = .returned (s.answers s.calls) { s with calls := s.calls + 1 } := by
  have hcheck :
      Machine.check fd { s with calls := s.calls + 1 } = { s with calls := s.calls + 1 } :=
    check_of_owned hopened howned
  change Outcome.returned (if fd ∈ s.opened then s.answers s.calls else _)
    (Machine.check fd { s with calls := s.calls + 1 }) = _
  rw [hcheck, if_pos hopened]

theorem reset_of_opened {s : Machine} {v : Var} (hne : s.vars v ≠ -1)
    (hopened : s.vars v ∈ s.opened) :
    s.reset v = { s with
      opened := s.opened.erase (s.vars v)
      vars := Function.update s.vars v (-1) } := by
  have howned : s.Owned (s.vars v) := ⟨v, by cases v <;> decide, rfl⟩
  rw [Machine.reset, if_neg hne, Machine.close, check_of_owned hopened howned]
  rfl

theorem punchStart_holding (answers : ℕ → Answer) (cancelled : ℕ → Bool) (fd : ℤ) :
    Holding fd (punchStart answers cancelled fd) := by
  constructor <;> rfl

theorem loadCancelFlag_received {answers : ℕ → Answer} {cancelled : ℕ → Bool} {fd : ℤ} {b : Bool}
    (h : cancelled 0 = b) :
    loadCancelFlag (.received answers cancelled fd) =
      .returned b { Machine.received answers cancelled fd with loads := 1 } := by
  change Outcome.returned (cancelled 0) _ = _
  rw [h]
  rfl

/-- A punch that throws is reported to the callback. -/
theorem perform_of_thrown {answers : ℕ → Answer} {cancelled : ℕ → Bool}
    {params : HolePunchParameters} {fd : ℤ} (hcancelled : cancelled 0 = false)
    {e : Exception} {t : Machine}
    (hpunch : tcpv4HolePunch params (punchStart answers cancelled fd) = .thrown e t) :
    performHolePunchAndHandshake params keepCompletion (.received answers cancelled fd) =
      .returned () (Machine.reset .fd { t with completions := t.completions ++ [.failed e] }) := by
  have hbody : punchAndHandshake params keepCompletion (.received answers cancelled fd) =
      .thrown e t := by
    unfold punchAndHandshake
    rw [Action.bind_of_returned (loadCancelFlag_received hcancelled)]
    have hmove : Action.modify (Machine.move .fd .listenFd)
        { Machine.received answers cancelled fd with loads := 1 } =
          (.returned () (punchStart answers cancelled fd) : Outcome Exception Machine Unit) := rfl
    exact (Action.bind_of_returned hmove).trans (Action.bind_of_thrown hpunch)
  have hcatch : Action.tryCatch (punchAndHandshake params keepCompletion)
      (fun e => keepCompletion (.failed e)) (.received answers cancelled fd) =
        .returned () { t with completions := t.completions ++ [.failed e] } :=
    Action.tryCatch_of_thrown hbody
  exact Action.finallyDo_of_returned hcatch

/-- A punch that throws while only the listener is open ends the path well. -/
theorem sound_of_holding {answers : ℕ → Answer} {cancelled : ℕ → Bool}
    {params : HolePunchParameters} {fd : ℤ} (hfd : 0 ≤ fd) (hcancelled : cancelled 0 = false)
    {e : Exception} {t : Machine} (ht : Holding fd t)
    (hpunch : tcpv4HolePunch params (punchStart answers cancelled fd) =
      .thrown e (t.reset .listenFd)) :
    ∃ s, path params (.received answers cancelled fd) = .returned () s ∧ Sound s := by
  have hreset := reset_of_opened (s := t) (v := .listenFd) (by rw [ht.listenFd_eq]; omega)
    (by rw [ht.opened_eq, ht.listenFd_eq]; exact List.mem_singleton_self fd)
  rw [ht.listenFd_eq, ht.opened_eq, List.erase_cons_head] at hreset
  refine ⟨_, Action.finallyDo_of_returned (perform_of_thrown hcancelled hpunch), ?_⟩
  rw [hreset]
  have hfdVar : Function.update t.vars .listenFd (-1) .fd = -1 := by
    rw [Function.update_of_ne (by decide)]
    exact ht.fd_eq
  rw [Machine.reset, if_pos hfdVar, destroyEndpoint, if_neg (by simp [ht.sslEndpoint_eq])]
  exact ⟨ht.faults_eq_nil, rfl, ht.sslFreed_eq, by simp [ht.completions_eq_nil]⟩

/-- A received socket that is not used is closed. -/
theorem sound_of_cancelled {answers : ℕ → Answer} {cancelled : ℕ → Bool}
    {params : HolePunchParameters} {fd : ℤ} (hfd : 0 ≤ fd) (hcancelled : cancelled 0 = true) :
    ∃ s, path params (.received answers cancelled fd) = .returned () s ∧ Sound s := by
  have hbody : punchAndHandshake params keepCompletion (.received answers cancelled fd) =
      .returned () { Machine.received answers cancelled fd with
        loads := 1
        completions := [.cancelledBefore] } := by
    unfold punchAndHandshake
    rw [Action.bind_of_returned (loadCancelFlag_received hcancelled)]
    rfl
  refine ⟨_, Action.finallyDo_of_returned (Action.finallyDo_of_returned
    (Action.tryCatch_of_returned hbody)), ?_⟩
  have hreset := reset_of_opened (v := .fd) (s := { Machine.received answers cancelled fd with
    loads := 1
    completions := [.cancelledBefore] }) (by change fd ≠ -1; omega) (List.mem_singleton_self fd)
  rw [hreset]
  exact ⟨rfl, List.erase_cons_head fd [], rfl, by simp [destroyEndpoint, Machine.received]⟩

/-- A call on the listener while nothing else is open. -/
theorem operate_listenFd {fd : ℤ} {s : Machine} (h : Holding fd s) :
    operate fd s = .returned (s.answers s.calls) { s with calls := s.calls + 1 } := by
  refine operate_of_owned ?_ ⟨.listenFd, by decide, h.listenFd_eq⟩
  rw [h.opened_eq]
  exact List.mem_singleton_self fd

def connectorStart (answers : ℕ → Answer) (cancelled : ℕ → Bool) (fd : ℤ) : Machine :=
  { punchStart answers cancelled fd with
    calls := 2
    nextFd := fd + 1 + 1
    opened := [fd, fd + 1] }

/-- What happens before the connector: it is created, or the punch throws while
only the listener is open. -/
theorem openConnector_cases (answers : ℕ → Answer) (cancelled : ℕ → Bool)
    (params : HolePunchParameters) (fd : ℤ) :
    (((∃ src, params.src = .ipv4 src) ∧ (∃ dst, params.dst = .ipv4 dst) ∧
        0 ≤ (answers 0).ret ∧ 0 ≤ (answers 1).ret) ∧
      ∃ src dst, openConnector params (punchStart answers cancelled fd) =
        .returned (src, dst, fd + 1) (connectorStart answers cancelled fd)) ∨
    (¬((∃ src, params.src = .ipv4 src) ∧ (∃ dst, params.dst = .ipv4 dst) ∧
        0 ≤ (answers 0).ret ∧ 0 ≤ (answers 1).ret) ∧
      ∃ e t, Holding fd t ∧
        openConnector params (punchStart answers cancelled fd) = .thrown e t) := by
  have hstart := punchStart_holding answers cancelled fd
  have hlistens : tcpv4Listen fd (punchStart answers cancelled fd) =
      ccall "listening" (answers 0) { punchStart answers cancelled fd with calls := 1 } :=
    Action.bind_of_returned (operate_listenFd hstart)
  have hnew : tcpv4NewSocket { punchStart answers cancelled fd with calls := 1 } =
      (ccall "creating socket" (answers 1) >>= fun _ => allocate)
        { punchStart answers cancelled fd with calls := 2 } := rfl
  unfold openConnector
  by_cases hsrc : ∃ src, params.src = .ipv4 src
  swap
  · exact .inr ⟨fun h => hsrc h.1, _, _, hstart,
      Action.bind_of_thrown (getHolePunchIpv4Src_thrown hsrc _)⟩
  obtain ⟨src, hsrc⟩ := hsrc
  rw [Action.bind_of_returned (getHolePunchIpv4Src_returned hsrc _)]
  by_cases hdst : ∃ dst, params.dst = .ipv4 dst
  swap
  · exact .inr ⟨fun h => hdst h.2.1, _, _, hstart,
      Action.bind_of_thrown (getHolePunchIpv4Dst_thrown hdst _)⟩
  obtain ⟨dst, hdst⟩ := hdst
  rw [Action.bind_of_returned (getHolePunchIpv4Dst_returned hdst _), value_bind]
  by_cases hlisten : 0 ≤ (answers 0).ret
  swap
  · rw [ccall_thrown hlisten] at hlistens
    refine .inr ⟨fun h => hlisten h.2.2.1, _, _, ?_, Action.bind_of_thrown hlistens⟩
    constructor <;> rfl
  rw [ccall_returned _ hlisten] at hlistens
  by_cases hsocket : 0 ≤ (answers 1).ret
  · rw [Action.bind_of_returned (ccall_returned _ hsocket _)] at hnew
    exact .inl ⟨⟨⟨src, hsrc⟩, ⟨dst, hdst⟩, hlisten, hsocket⟩, src, dst,
      (Action.bind_of_returned hlistens).trans (Action.bind_of_returned hnew)⟩
  · rw [Action.bind_of_thrown (ccall_thrown hsocket _)] at hnew
    refine .inr ⟨fun h => hsocket h.2.2.2, _, _, ?_,
      (Action.bind_of_returned hlistens).trans (Action.bind_of_thrown hnew)⟩
    constructor <;> rfl

/-- A fault is recorded, and the connector is out of its owner's hands. -/
structure Tainted (s : Machine) : Prop where
  faults_ne_nil : s.faults ≠ []
  connectFd_eq : s.vars .connectFd = -1
  not_mem : -1 ∉ s.opened

theorem faults_prefix_check (fd : ℤ) (s : Machine) : s.faults <+: (s.check fd).faults := by
  unfold Machine.check
  split_ifs <;> simp

theorem faults_prefix_reset (v : Var) (s : Machine) : s.faults <+: (s.reset v).faults := by
  unfold Machine.reset
  split_ifs
  · exact List.prefix_rfl
  · exact faults_prefix_check _ s

theorem faults_prefix_destroyEndpoint (s : Machine) :
    s.faults <+: (destroyEndpoint s).faults := by
  have hfree : ∀ t : Machine, t.faults <+: t.sslFree.faults := by
    intro t
    unfold Machine.sslFree
    split_ifs <;> simp
  unfold destroyEndpoint
  split_ifs
  · exact ((hfree s).trans (hfree s.sslFree)).trans
      (faults_prefix_reset .endpointFd { s.sslFree.sslFree with sslEndpoint := false })
  · exact List.prefix_rfl

theorem ne_nil_of_isPrefix {l l' : List Fault} (h : l <+: l') (hl : l ≠ []) : l' ≠ [] := by
  rintro rfl
  exact hl (List.prefix_nil.mp h)

theorem check_eq (fd : ℤ) (s : Machine) :
    (s.check fd).vars = s.vars ∧ (s.check fd).opened = s.opened := by
  unfold Machine.check
  split_ifs <;> exact ⟨rfl, rfl⟩

theorem Tainted.check {s : Machine} (h : Tainted s) (fd : ℤ) : Tainted (s.check fd) := by
  obtain ⟨hvars, hopened⟩ := check_eq fd s
  exact ⟨ne_nil_of_isPrefix (faults_prefix_check fd s) h.faults_ne_nil,
    by rw [hvars]; exact h.connectFd_eq, by rw [hopened]; exact h.not_mem⟩

/-- A call keeps a run tainted, and fails on a descriptor that is not open. -/
theorem operate_tainted (fd : ℤ) :
    Action.Triple Tainted (operate fd)
      (fun a s => Tainted s ∧ (fd ∉ s.opened → a.ret = -1)) (fun _ => Tainted) := by
  intro s h
  change Tainted (Machine.check fd { s with calls := s.calls + 1 }) ∧ (_ → _)
  have hcalls : Tainted { s with calls := s.calls + 1 } :=
    ⟨h.faults_ne_nil, h.connectFd_eq, h.not_mem⟩
  refine ⟨hcalls.check fd, ?_⟩
  rw [(check_eq fd _).2]
  intro hnot
  change (if fd ∈ s.opened then _ else _ : Answer).ret = -1
  rw [if_neg hnot]

/-- `bind` on the descriptor of the emptied connector throws. -/
theorem bindPort_tainted (src : IPv4Addr) :
    Action.Triple Tainted (tcpv4BindPort (-1) src) (fun _ _ => False) (fun _ => Tainted) := by
  unfold tcpv4BindPort ipv4ConvertAddr
  refine Action.Triple.require_bind (fun s h => ?_) (fun _ => ?_)
  · exact h
  · apply (operate_tainted (-1)).bind
    rintro a s ⟨htainted, hret⟩
    rw [ccall_thrown (by rw [hret htainted.not_mem]; decide)]
    exact htainted

/-- The connector is open, but its descriptor was taken out of its owner. -/
structure Released (fd : ℤ) (s : Machine) : Prop where
  mem_opened : fd ∈ s.opened
  not_owned : ¬s.Owned fd
  connectFd_eq : s.vars .connectFd = -1
  not_mem : -1 ∉ s.opened

theorem operate_released (fd : ℤ) :
    Action.Triple (Released fd) (operate fd) (fun _ => Tainted) (fun _ => Tainted) := by
  intro s h
  change Tainted (Machine.check fd { s with calls := s.calls + 1 })
  have howned : ¬Machine.Owned { s with calls := s.calls + 1 } fd := h.not_owned
  rw [Machine.check, if_neg (not_not.mpr h.mem_opened), if_pos howned]
  exact ⟨List.append_ne_nil_of_right_ne_nil s.faults (List.cons_ne_nil _ []),
    h.connectFd_eq, h.not_mem⟩

theorem ccall_tainted (descr : String) (a : Answer) :
    Action.Triple Tainted (ccall descr a) (fun _ => Tainted) (fun _ => Tainted) := by
  unfold ccall Action.require
  split_ifs
  · exact Action.Triple.pure () (fun s h => h)
  · exact Action.Triple.throw _ (fun s h => h)

/-- The options of the connector are set on a descriptor that nobody owns. -/
theorem portReuse_released (fd : ℤ) :
    Action.Triple (Released fd) (tcpv4PortReuse fd) (fun _ => Tainted) (fun _ => Tainted) := by
  unfold tcpv4PortReuse
  apply (operate_released fd).bind
  intro a
  apply (ccall_tainted _ a).bind
  intro _
  have hoperate : Action.Triple Tainted (operate fd) (fun _ => Tainted) (fun _ => Tainted) :=
    (operate_tainted fd).consequence (fun s h => h) (fun b s h => h.1) (fun e s h => h)
  apply hoperate.bind
  intro b
  exact ccall_tainted _ b

theorem released_throws (settings : HolePunchParameters) (src dst : IPv4Addr) (fd : ℤ) :
    Action.Triple (Released fd) (do
      tcpv4PortReuse fd
      tcpv4BindPort (← value .connectFd) src
      holePunchLoop settings src dst (rounds settings.connectCount) settings.connectSecStart true)
      (fun _ _ => False) (fun _ => Tainted) := by
  apply (portReuse_released fd).bind
  intro _ s h
  rw [value_bind, h.connectFd_eq]
  have hbind : Action.Triple Tainted (do
      tcpv4BindPort (-1) src
      holePunchLoop settings src dst (rounds settings.connectCount) settings.connectSecStart true)
      (fun _ _ => False) (fun _ => Tainted) := by
    apply (bindPort_tainted src).bind
    intro _ t ht
    exact ht.elim
  exact hbind s h

theorem connectorStart_released {answers : ℕ → Answer} {cancelled : ℕ → Bool} {fd : ℤ}
    (hfd : 0 ≤ fd) :
    Released (fd + 1)
      (((connectorStart answers cancelled fd).setVar .connectFd (fd + 1)).setVar
        .connectFd (-1)) := by
  refine ⟨List.mem_cons_of_mem fd (List.mem_singleton_self (fd + 1)), ?_, rfl, ?_⟩
  · rintro ⟨v, -, hv⟩
    have hvalue : (((connectorStart answers cancelled fd).setVar .connectFd (fd + 1)).setVar
        .connectFd (-1)).vars v = if v = .listenFd then fd else -1 := by
      cases v <;> rfl
    rw [hvalue] at hv
    split_ifs at hv <;> omega
  · intro hmem
    have hcases : (-1 : ℤ) = fd ∨ (-1 : ℤ) = fd + 1 := by
      simpa [connectorStart, Machine.setVar] using hmem
    omega

/-- The handover of a descriptor in `handle`, and what it does to the punch. -/
theorem punchWithConnector_throws {answers : ℕ → Answer} {cancelled : ℕ → Bool} {fd : ℤ}
    (hfd : 0 ≤ fd) (settings : HolePunchParameters) (src dst : IPv4Addr) :
    Action.Triple (· = connectorStart answers cancelled fd) (do
      Action.modify (Machine.setVar .connectFd (fd + 1))
      punchWithConnector settings src dst) (fun _ _ => False) (fun _ => Tainted) := by
  rintro s rfl
  exact released_throws settings src dst (fd + 1) _ (connectorStart_released hfd)

theorem tcpv4HolePunch_throws {answers : ℕ → Answer} {cancelled : ℕ → Bool}
    {params : HolePunchParameters} {fd : ℤ} (hfd : 0 ≤ fd) {src dst : IPv4Addr}
    (hopen : openConnector params (punchStart answers cancelled fd) =
      .returned (src, dst, fd + 1) (connectorStart answers cancelled fd)) :
    Action.Triple (· = punchStart answers cancelled fd) (tcpv4HolePunch params)
      (fun _ _ => False) (fun _ s => s.faults ≠ []) := by
  unfold tcpv4HolePunch
  have hinner : Action.Triple (· = connectorStart answers cancelled fd)
      (Action.finallyDo (do
        Action.modify (Machine.setVar .connectFd (fd + 1))
        punchWithConnector params src dst) (Machine.reset .connectFd))
      (fun _ _ => False) (fun _ s => s.faults ≠ []) := by
    apply (punchWithConnector_throws hfd params src dst).finallyDo
    · exact fun _ _ h => h
    · exact fun _ t ht => ne_nil_of_isPrefix (faults_prefix_reset .connectFd t) ht.faults_ne_nil
  refine Action.Triple.finallyDo (fun s hs => ?_) (fun _ _ h => h)
    (fun _ t ht => ne_nil_of_isPrefix (faults_prefix_reset .listenFd t) ht)
  rw [hs, Action.bind_of_returned hopen]
  exact hinner _ rfl

section Defined

theorem operate_defined (fd : ℤ) (s : Machine) : ¬Action.Fails (fun _ => True) (operate fd) s := id

theorem ccall_defined (descr : String) (a : Answer) (s : Machine) :
    ¬Action.Fails (fun _ => True) (ccall descr a) s := by
  simp [ccall, Action.fails_require]

theorem portReuse_defined (fd : ℤ) (s : Machine) :
    ¬Action.Fails (fun _ => True) (tcpv4PortReuse fd) s := by
  simp [tcpv4PortReuse, Action.fails_bind, operate_defined, ccall_defined, Action.After]

theorem bindPort_defined (fd : ℤ) (addr : IPv4Addr) (s : Machine) :
    ¬Action.Fails (fun _ => True) (tcpv4BindPort fd addr) s := by
  simp [tcpv4BindPort, ipv4ConvertAddr, Action.fails_bind, Action.fails_require, operate_defined,
    ccall_defined, Action.After]

theorem released_defined (settings : HolePunchParameters) (src dst : IPv4Addr) {fd : ℤ}
    {s : Machine} (h : Released fd s) :
    ¬Action.Fails (fun _ => True) (do
      tcpv4PortReuse fd
      tcpv4BindPort (← value .connectFd) src
      holePunchLoop settings src dst (rounds settings.connectCount) settings.connectSecStart true)
      s := by
  rw [Action.fails_bind, or_iff_right (portReuse_defined fd s)]
  rintro ⟨a, t, hreuse, hfails⟩
  have ht : Tainted t := (portReuse_released fd).returned h hreuse
  rw [Action.Fails, value_bind, ht.connectFd_eq] at hfails
  change Action.Fails (fun _ => True) (do
    tcpv4BindPort (-1) src
    holePunchLoop settings src dst (rounds settings.connectCount) settings.connectSecStart true)
    t at hfails
  rw [Action.fails_bind, or_iff_right (bindPort_defined (-1) src t)] at hfails
  obtain ⟨a, u, hbind, -⟩ := hfails
  exact (bindPort_tainted src).returned ht hbind

end Defined

/-- Every punch throws: its addresses are not IPv4, it gets no connector, or it binds the
connector after it was released. -/
theorem tcpv4HolePunch_thrown (answers : ℕ → Answer) (cancelled : ℕ → Bool)
    (params : HolePunchParameters) {fd : ℤ} (hfd : 0 ≤ fd) :
    ∃ e t, tcpv4HolePunch params (punchStart answers cancelled fd) = .thrown e t := by
  rcases openConnector_cases answers cancelled params fd with
    ⟨-, src, dst, hopen⟩ | ⟨-, e, t, -, hopen⟩
  · have hinner : ∃ e t, Action.finallyDo (do
        Action.modify (Machine.setVar .connectFd (fd + 1))
        punchWithConnector params src dst) (Machine.reset .connectFd)
        (connectorStart answers cancelled fd) = .thrown e t := by
      have hthrows := punchWithConnector_throws hfd params src dst
        (connectorStart answers cancelled fd) rfl
      have hdefined : ¬Action.Fails (fun _ => True) (do
          Action.modify (Machine.setVar .connectFd (fd + 1))
          punchWithConnector params src dst) (connectorStart answers cancelled fd) :=
        released_defined params src dst (connectorStart_released hfd)
      cases hpunch : (do
          Action.modify (Machine.setVar .connectFd (fd + 1))
          punchWithConnector params src dst : Run ℤ) (connectorStart answers cancelled fd) with
      | returned raw t =>
          rw [hpunch] at hthrows
          exact hthrows.elim
      | thrown e t => exact ⟨_, _, Action.finallyDo_of_thrown hpunch⟩
      | undefined =>
          rw [Action.Fails, hpunch] at hdefined
          exact absurd trivial hdefined
    obtain ⟨e, t, hthrown⟩ := hinner
    exact ⟨e, _, Action.finallyDo_of_thrown ((Action.bind_of_returned hopen).trans hthrown)⟩
  · exact ⟨e, _, Action.finallyDo_of_thrown (Action.bind_of_thrown hopen)⟩

theorem path_faults {answers : ℕ → Answer} {cancelled : ℕ → Bool}
    {params : HolePunchParameters} {fd : ℤ} (hfd : 0 ≤ fd) (hcancelled : cancelled 0 = false)
    {src dst : IPv4Addr}
    (hopen : openConnector params (punchStart answers cancelled fd) =
      .returned (src, dst, fd + 1) (connectorStart answers cancelled fd)) :
    Action.Triple (· = Machine.received answers cancelled fd) (path params)
      (fun _ s => s.faults ≠ []) (fun _ s => s.faults ≠ []) := by
  have hbody : Action.Triple (· = Machine.received answers cancelled fd)
      (punchAndHandshake params keepCompletion) (fun _ _ => False) (fun _ s => s.faults ≠ []) := by
    rintro s rfl
    unfold punchAndHandshake
    rw [Action.bind_of_returned (loadCancelFlag_received hcancelled)]
    apply ((tcpv4HolePunch_throws hfd hopen).bind ?_) _ rfl
    intro raw t ht
    exact ht.elim
  have hcatch : Action.Triple (· = Machine.received answers cancelled fd)
      (Action.tryCatch (punchAndHandshake params keepCompletion)
        (fun e => keepCompletion (.failed e)))
      (fun _ s => s.faults ≠ []) (fun _ s => s.faults ≠ []) := by
    apply (hbody.consequence (fun _ h => h) (fun _ _ h => h.elim) (fun _ _ h => h)).tryCatch
    intro e
    exact Action.Triple.modify (fun s h => h)
  have hperform : Action.Triple (· = Machine.received answers cancelled fd)
      (performHolePunchAndHandshake params keepCompletion)
      (fun _ s => s.faults ≠ []) (fun _ s => s.faults ≠ []) := by
    apply hcatch.finallyDo
    · exact fun _ t ht => ne_nil_of_isPrefix (faults_prefix_reset .fd t) ht
    · exact fun _ t ht => ne_nil_of_isPrefix (faults_prefix_reset .fd t) ht
  apply hperform.finallyDo
  · exact fun _ t ht => ne_nil_of_isPrefix (faults_prefix_destroyEndpoint t) ht
  · exact fun _ t ht => ne_nil_of_isPrefix (faults_prefix_destroyEndpoint t) ht

/-- The path keeps its promises if and only if no connector is created. -/
theorem path_sound_iff (answers : ℕ → Answer) (cancelled : ℕ → Bool)
    (params : HolePunchParameters) {fd : ℤ} (hfd : 0 ≤ fd) :
    (∃ s, path params (.received answers cancelled fd) = .returned () s ∧ Sound s) ↔
      ¬ConnectorCreated answers cancelled params := by
  by_cases hcancelled : cancelled 0 = true
  · have hnot : ¬ConnectorCreated answers cancelled params := by
      rintro ⟨hfalse, -⟩
      rw [hcancelled] at hfalse
      cases hfalse
    exact ⟨fun _ => hnot, fun _ => sound_of_cancelled hfd hcancelled⟩
  have hload : cancelled 0 = false := Bool.eq_false_iff.mpr hcancelled
  rcases openConnector_cases answers cancelled params fd with
    ⟨hcreated, src, dst, hopen⟩ | ⟨hcreated, e, t, ht, hopen⟩
  · constructor
    · rintro ⟨s, hrun, hsound⟩
      exact absurd hsound.faults_eq_nil ((path_faults hfd hload hopen).returned rfl hrun)
    · intro hnot
      exact absurd ⟨hload, hcreated⟩ hnot
  · have hpunch : tcpv4HolePunch params (punchStart answers cancelled fd) =
        .thrown e (t.reset .listenFd) :=
      Action.finallyDo_of_thrown (Action.bind_of_thrown hopen)
    exact ⟨fun _ h => hcreated h.2, fun _ => sound_of_holding hfd hload ht hpunch⟩

def sampleParameters : HolePunchParameters where
  src := .ipv4 ⟨[], 4000⟩
  dst := .ipv4 ⟨[10, 0, 0, 2], 5000⟩
  connectSecStart := 1
  connectSecMax := 8
  connectSecScale := 2
  connectCount := 3

def sampleAnswers (ret : ℤ) : ℕ → Answer := fun _ => ⟨ret, .other, false, false, ⟨[], 0⟩, 0⟩

theorem path_sound_iff_sample :
    ∃ s, path sampleParameters (.received (sampleAnswers (-1)) (fun _ => false) 5) =
      .returned () s ∧ Sound s := by
  apply (path_sound_iff (sampleAnswers (-1)) (fun _ => false) sampleParameters
    (by decide : (0 : ℤ) ≤ 5)).mpr
  rintro ⟨-, -, -, hlisten, -⟩
  exact absurd hlisten (by decide)

/-- With every call successful the connector is leaked and the punch throws. -/
theorem path_connector_leaked :
    ∃ s, path sampleParameters (.received (sampleAnswers 0) (fun _ => false) 5) =
        .returned () s ∧
      s.faults = [.unowned 6, .unowned 6, .badDescriptor (-1)] ∧ s.opened = [6] ∧
      s.completions = [.failed (.connectionError "binding port")] ∧ ¬Sound s := by
  refine ⟨_, rfl, rfl, rfl, rfl, fun h => ?_⟩
  exact absurd h.opened_eq_nil (List.cons_ne_nil _ _)

end HolePunch

end Grpc

end DistStorage
