import DistStorage.Net.Machine

/-!
# Hole punching over TCP

`tcpv4_hole_punch` listens on the reserved socket, opens a connector on the
same port and tries both ways until one gives a connection. The loop runs once
for each try; the counter is an unsigned 32-bit number that is decremented
before it is tested.
-/

namespace DistStorage

namespace Net

open Cpp

structure IPv6Addr where
  addr : Bytes
  port : ℕ
  deriving DecidableEq, Repr

inductive IPAddr
  | notSet
  | ipv4 (addr : IPv4Addr)
  | ipv6 (addr : IPv6Addr)
  deriving DecidableEq, Repr

structure HolePunchParameters where
  src : IPAddr
  dst : IPAddr
  connectSecStart : ℚ
  connectSecMax : ℚ
  connectSecScale : ℚ
  connectCount : ℕ
  deriving DecidableEq, Repr

def ipv4ConvertAddr (addr : Bytes) : Run Unit :=
  Action.require (addr.length = 0 ∨ addr.length = 4)
    (.invalidArgument ("Invalid IPv4 address string length " ++ toString addr.length))

def tcpv4NewSocket : Run ℤ := do
  let a ← answer
  ccall "creating socket" a
  allocate

def tcpv4SetBlocking (fd : ℤ) : Run Unit := do
  let flags ← operate fd
  ccall "getting socket flags" flags
  let a ← operate fd
  ccall "setting socket blocking" a

def tcpv4SetTimeout (fd : ℤ) : Run Unit := do
  let a ← operate fd
  ccall "setting socket recv timeout" a
  let a ← operate fd
  ccall "setting socket send timeout" a

def tcpv4PortReuse (fd : ℤ) : Run Unit := do
  let a ← operate fd
  ccall "Allow multiple sockets to bind to the same local address/port pair" a
  let a ← operate fd
  ccall "Specifically allow multiple sockets to SHARE the exact same port" a

def tcpv4BindPort (fd : ℤ) (bindAddr : IPv4Addr) : Run Unit := do
  ipv4ConvertAddr bindAddr.addr
  let a ← operate fd
  ccall "binding port" a

inductive ConnectStatus
  | success
  | inProgress
  | failed
  deriving DecidableEq, Repr

def tcpv4ConnectUnsafe (fd : ℤ) (dstAddr : IPv4Addr) : Run ConnectStatus := do
  ipv4ConvertAddr dstAddr.addr
  let a ← operate fd
  if a.ret = 0 then pure .success
  else if a.errno = .inProgress ∨ a.errno = .already then pure .inProgress
  else if a.errno = .isConn then pure .success
  else pure .failed

def tcpv4Listen (fd : ℤ) : Run Unit := do
  let a ← operate fd
  ccall "listening" a

/-- `tcpv4_accept_unsafe`: the new descriptor in its variable, and the address. -/
def tcpv4AcceptUnsafe (fd : ℤ) : Run (Option IPv4Addr) := do
  let a ← operate fd
  if a.ret < 0 then pure none
  else do
    let newFd ← allocate
    Action.modify (Machine.setVar .acceptedFd newFd)
    pure (some a.peer)

def getHolePunchIpv4Src (settings : HolePunchParameters) : Run IPv4Addr :=
  match settings.src with
  | .ipv4 addr => pure addr
  | _ => Action.throw (.connectionError "hole punch parameters require IPv4 src")

def getHolePunchIpv4Dst (settings : HolePunchParameters) : Run IPv4Addr :=
  match settings.dst with
  | .ipv4 addr => pure addr
  | _ => Action.throw (.connectionError "hole punch parameters require IPv4 dst")

theorem getHolePunchIpv4Src_thrown {settings : HolePunchParameters}
    (h : ¬∃ src, settings.src = .ipv4 src) (s : Machine) :
    getHolePunchIpv4Src settings s =
      .thrown (.connectionError "hole punch parameters require IPv4 src") s := by
  unfold getHolePunchIpv4Src
  cases hsrc : settings.src with
  | ipv4 src => exact absurd ⟨src, hsrc⟩ h
  | notSet => rfl
  | ipv6 src => rfl

theorem getHolePunchIpv4Src_returned {settings : HolePunchParameters} {src : IPv4Addr}
    (h : settings.src = .ipv4 src) (s : Machine) :
    getHolePunchIpv4Src settings s = .returned src s := by
  rw [getHolePunchIpv4Src, h]
  rfl

theorem getHolePunchIpv4Dst_thrown {settings : HolePunchParameters}
    (h : ¬∃ dst, settings.dst = .ipv4 dst) (s : Machine) :
    getHolePunchIpv4Dst settings s =
      .thrown (.connectionError "hole punch parameters require IPv4 dst") s := by
  unfold getHolePunchIpv4Dst
  cases hdst : settings.dst with
  | ipv4 dst => exact absurd ⟨dst, hdst⟩ h
  | notSet => rfl
  | ipv6 dst => rfl

theorem getHolePunchIpv4Dst_returned {settings : HolePunchParameters} {dst : IPv4Addr}
    (h : settings.dst = .ipv4 dst) (s : Machine) :
    getHolePunchIpv4Dst settings s = .returned dst s := by
  rw [getHolePunchIpv4Dst, h]
  rfl

def pollSockets (timeoutMs : ℤ) : Run Answer := do
  let a ← answer
  let s ← Action.get
  Action.modify fun s => (s.check (s.vars .listenFd)).check (s.vars .connectFd)
  Action.modify fun s => { s with polls := s.polls ++ [timeoutMs] }
  pure { a with
    pollIn := a.pollIn && s.vars .listenFd ∈ s.opened
    pollOut := a.pollOut && s.vars .connectFd ∈ s.opened }

/-- Step A: `connect`, if a new one is due, and the connector if it succeeds. -/
def punchOutbound (dst : IPv4Addr) (fireNewSyn : Bool) : Run (Option ℤ) := do
  if fireNewSyn then
    let status ← tcpv4ConnectUnsafe (← value .connectFd) dst
    if status = .success then some <$> handle .connectFd else pure none
  else pure none

/-- Event 1: the listener has a peer; it is returned if it is the right one. -/
def acceptPeer (dst : IPv4Addr) : Run (Option ℤ) := do
  match ← tcpv4AcceptUnsafe (← value .listenFd) with
  | none => pure none
  | some peer =>
      if peer.addr = dst.addr ∧ peer.port = dst.port then some <$> handle .acceptedFd
      else do
        let newFd ← handle .acceptedFd
        Action.modify (Machine.close newFd)
        pure none

/-- Event 2: the connector has finished; if it failed it is replaced. The error
stays zero when `getsockopt` fails. -/
def finishConnect (src : IPv4Addr) : Run (Option ℤ) := do
  let a ← operate (← value .connectFd)
  if a.ret < 0 ∨ a.soError = 0 then some <$> handle .connectFd
  else do
    let newFd ← tcpv4NewSocket
    Action.modify (Machine.reset .connectFd)
    Action.modify (Machine.setVar .connectFd newFd)
    tcpv4PortReuse newFd
    tcpv4BindPort newFd src
    pure none

def backoff (settings : HolePunchParameters) (connectSec : ℚ) : ℚ :=
  min (connectSec * settings.connectSecScale) settings.connectSecMax

/-- The conversion of the timeout to milliseconds of type `int`, which cuts off the
fraction and is undefined outside the type. -/
def timeoutMs (connectSec : ℚ) : Option ℤ :=
  let ms := Int.tdiv (connectSec * 1000).num (connectSec * 1000).den
  if -2 ^ 31 ≤ ms ∧ ms < 2 ^ 31 then some ms else none

/-- The loop with a number of rounds left. -/
def holePunchLoop (settings : HolePunchParameters) (src dst : IPv4Addr) :
    ℕ → ℚ → Bool → Run ℤ
  | 0, _, _ => Action.throw (.connectionError "TCPv4 hole punching failed")
  | rounds + 1, connectSec, fireNewSyn => do
      match ← punchOutbound dst fireNewSyn with
      | some fd => pure fd
      | none =>
          let res ← pollSockets (← Action.ofOption (timeoutMs connectSec))
          if res.ret < 0 then
            if res.errno = .intr then holePunchLoop settings src dst rounds connectSec false
            else Action.throw (.connectionError "Poll failed during hole punch")
          else if res.ret = 0 then
            holePunchLoop settings src dst rounds (backoff settings connectSec) false
          else do
            match ← if res.pollIn then acceptPeer dst else pure none with
            | some fd => pure fd
            | none =>
                if res.pollOut then
                  match ← finishConnect src with
                  | some fd => pure fd
                  | none => holePunchLoop settings src dst rounds (backoff settings connectSec) true
                else holePunchLoop settings src dst rounds (backoff settings connectSec) false

/-- The rounds of the `do` loop, whose counter wraps around at zero. -/
def rounds (connectCount : ℕ) : ℕ :=
  if connectCount = 0 then 2 ^ 32 else connectCount

/-- The part of `tcpv4_hole_punch` after the connector was created. The call of
`handle` takes the descriptor out of its owner. -/
def punchWithConnector (settings : HolePunchParameters) (src dst : IPv4Addr) : Run ℤ := do
  tcpv4PortReuse (← handle .connectFd)
  tcpv4BindPort (← value .connectFd) src
  holePunchLoop settings src dst (rounds settings.connectCount) settings.connectSecStart true

/-- The part of `tcpv4_hole_punch` that listens and creates the connector. -/
def openConnector (settings : HolePunchParameters) : Run (IPv4Addr × IPv4Addr × ℤ) := do
  let src ← getHolePunchIpv4Src settings
  let dst ← getHolePunchIpv4Dst settings
  tcpv4Listen (← value .listenFd)
  let newFd ← tcpv4NewSocket
  pure (src, dst, newFd)

/-- `tcpv4_hole_punch` with the reserved socket in `listenFd`. -/
def tcpv4HolePunch (settings : HolePunchParameters) : Run ℤ :=
  Action.finallyDo (do
    let (src, dst, newFd) ← openConnector settings
    Action.finallyDo (do
      Action.modify (Machine.setVar .connectFd newFd)
      punchWithConnector settings src dst) (Machine.reset .connectFd)) (Machine.reset .listenFd)

end Net

end DistStorage
