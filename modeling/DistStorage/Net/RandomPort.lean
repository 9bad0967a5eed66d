import DistStorage.Net.Machine

/-!
# Reserving a random port

`tcpv4_bind_random_port` draws ports until one can be bound. The answers of the
kernel and the numbers of the random engine are given for each try; every port
of the range is drawn for some number. `tcpv4_addr_from_socket` asks for the
address of a reserved socket.
-/

namespace DistStorage

namespace Net

structure ReservedSocket where
  fd : ℤ
  port : ℕ
  deriving DecidableEq, Repr

def ReservedSocket.empty : ReservedSocket := ⟨-1, 0⟩

def ReservedSocket.valid (socket : ReservedSocket) : Bool := socket.fd ≠ -1

/-- One try: a random number and the results of `socket`, of the two `setsockopt`
calls and of `bind`. -/
structure PortTry where
  random : ℕ
  socket : ℤ
  reuseAddr : ℤ
  reusePort : ℤ
  bind : ℤ
  deriving DecidableEq, Repr

/-- `uniform_int_distribution` over a range of ports. -/
def uniformPort (minPort maxPort random : ℕ) : ℕ := minPort + random % (maxPort - minPort + 1)

def checkCall (descr : String) (ret : ℤ) : Except Exception Unit :=
  if ret < 0 then .error (.connectionError descr) else .ok ()

/-- The body of the loop. A failed `bind` closes the socket. -/
def tryPort (minPort maxPort : ℕ) (t : PortTry) : Except Exception (Option ReservedSocket) := do
  checkCall "creating socket" t.socket
  checkCall "Allow multiple sockets to bind to the same local address/port pair" t.reuseAddr
  checkCall "Specifically allow multiple sockets to SHARE the exact same port" t.reusePort
  pure (if t.bind = 0 then some ⟨t.socket, uniformPort minPort maxPort t.random⟩ else none)

/-- The loop from the try number `i` on. -/
def tryPorts (minPort maxPort : ℕ) (world : ℕ → PortTry) :
    ℕ → ℕ → Except Exception ReservedSocket
  | _, 0 => .ok .empty
  | i, tries + 1 => do
      match ← tryPort minPort maxPort (world i) with
      | some socket => pure socket
      | none => tryPorts minPort maxPort world (i + 1) tries

def tcpv4BindRandomPort (minPort maxPort : ℕ) (world : ℕ → PortTry) (tries : ℕ) :
    Except Exception ReservedSocket :=
  if minPort > maxPort then .ok .empty else tryPorts minPort maxPort world 0 tries

/-- The answer of `getsockname`. -/
structure SocketName where
  ret : ℤ
  addr : IPv4Addr
  deriving DecidableEq, Repr

def tcpv4AddrFromSocket (name : SocketName) : Except Exception IPv4Addr := do
  checkCall "getting socket name" name.ret
  pure name.addr

theorem uniformPort_mem {minPort maxPort : ℕ} (h : minPort ≤ maxPort) (random : ℕ) :
    minPort ≤ uniformPort minPort maxPort random ∧
      uniformPort minPort maxPort random ≤ maxPort := by
  have hlt : random % (maxPort - minPort + 1) < maxPort - minPort + 1 :=
    Nat.mod_lt random (Nat.succ_pos _)
  rw [uniformPort]
  omega

theorem checkCall_eq_ok {descr : String} {ret : ℤ} {u : Unit} :
    checkCall descr ret = .ok u ↔ 0 ≤ ret := by
  rw [checkCall]
  split_ifs with h
  · simp [h]
  · simpa using h

theorem bind_eq_ok {ε α β : Type} {m : Except ε α} {f : α → Except ε β} {b : β} :
    (m >>= f) = .ok b ↔ ∃ a, m = .ok a ∧ f a = .ok b := by
  cases m with
  | error e => exact ⟨nofun, fun ⟨a, ha, _⟩ => nomatch ha⟩
  | ok a => exact ⟨fun h => ⟨a, rfl, h⟩, fun ⟨a', ha', h⟩ => Except.ok.inj ha' ▸ h⟩

theorem tryPort_eq_some {minPort maxPort : ℕ} (hle : minPort ≤ maxPort) {t : PortTry}
    {socket : ReservedSocket} (h : tryPort minPort maxPort t = .ok (some socket)) :
    0 ≤ socket.fd ∧ minPort ≤ socket.port ∧ socket.port ≤ maxPort := by
  obtain ⟨_, hsocket, h⟩ := bind_eq_ok.mp h
  obtain ⟨-, -, h⟩ := bind_eq_ok.mp h
  obtain ⟨-, -, h⟩ := bind_eq_ok.mp h
  replace h : (if t.bind = 0 then
      some (⟨t.socket, uniformPort minPort maxPort t.random⟩ : ReservedSocket)
    else none) = some socket := Except.ok.inj h
  split_ifs at h with hbind
  obtain rfl := Option.some.inj h
  exact ⟨checkCall_eq_ok.mp hsocket, uniformPort_mem hle t.random⟩

/-- A valid reservation has its port in the range. -/
theorem tcpv4BindRandomPort_valid {minPort maxPort tries : ℕ} {world : ℕ → PortTry}
    {socket : ReservedSocket} (h : tcpv4BindRandomPort minPort maxPort world tries = .ok socket)
    (hvalid : socket.valid = true) :
    0 ≤ socket.fd ∧ minPort ≤ socket.port ∧ socket.port ≤ maxPort := by
  have hempty : ReservedSocket.empty ≠ socket := by
    rintro rfl
    exact absurd hvalid (by decide)
  unfold tcpv4BindRandomPort at h
  split_ifs at h with hlt
  · exact absurd (Except.ok.inj h) hempty
  · generalize hi : 0 = i at h
    clear hi
    induction tries generalizing i with
    | zero => exact absurd (Except.ok.inj h) hempty
    | succ tries ih =>
        obtain ⟨bound, htry, h⟩ := bind_eq_ok.mp h
        cases bound with
        | none => exact ih (i + 1) h
        | some bound =>
            obtain rfl : bound = socket := Except.ok.inj h
            exact tryPort_eq_some (Nat.le_of_not_gt hlt) htry

/-- A call before `bind` fails, which throws. -/
def PortTry.Throws (t : PortTry) : Prop := t.socket < 0 ∨ t.reuseAddr < 0 ∨ t.reusePort < 0

theorem checkCall_bind_eq_error {descr : String} {ret : ℤ} {α : Type}
    {f : Unit → Except Exception α} :
    (∃ e, (checkCall descr ret >>= f) = .error e) ↔ ret < 0 ∨ ∃ e, f () = .error e := by
  rw [checkCall]
  split_ifs with h
  · exact iff_of_true ⟨.connectionError descr, rfl⟩ (.inl h)
  · exact (or_iff_right h).symm

theorem tryPort_eq_error {minPort maxPort : ℕ} {t : PortTry} :
    (∃ e, tryPort minPort maxPort t = .error e) ↔ t.Throws := by
  unfold tryPort
  rw [checkCall_bind_eq_error, checkCall_bind_eq_error, checkCall_bind_eq_error, PortTry.Throws]
  simp [pure, Except.pure]

theorem tryPort_eq_none {minPort maxPort : ℕ} {t : PortTry} :
    tryPort minPort maxPort t = .ok none ↔ ¬t.Throws ∧ t.bind ≠ 0 := by
  unfold tryPort
  simp only [bind_eq_ok, checkCall_eq_ok, pure, Except.pure, Except.ok.injEq]
  unfold PortTry.Throws
  push Not
  split_ifs with hbind <;> simp [hbind]

/-- The reservation throws if and only if a try does before one of them binds. -/
theorem tryPorts_eq_error {minPort maxPort : ℕ} {world : ℕ → PortTry} {i n : ℕ} :
    (∃ e, tryPorts minPort maxPort world i n = .error e) ↔
      ∃ k < n, (world (i + k)).Throws ∧
        ∀ j < k, ¬(world (i + j)).Throws ∧ (world (i + j)).bind ≠ 0 := by
  induction n generalizing i with
  | zero => simp [tryPorts]
  | succ n ih =>
      unfold tryPorts
      cases htry : tryPort minPort maxPort (world i) with
      | error e =>
          have hthrows := tryPort_eq_error.mp ⟨e, htry⟩
          exact iff_of_true ⟨e, rfl⟩ ⟨0, Nat.succ_pos n, hthrows, by simp⟩
      | ok bound =>
          have hnot : ¬(world i).Throws := fun hthrows => by
            obtain ⟨e, he⟩ := tryPort_eq_error.mpr hthrows
            rw [htry] at he
            cases he
          cases bound with
          | some socket =>
              refine iff_of_false ?_ ?_
              · rintro ⟨e, he⟩
                cases he
              · rintro ⟨k, -, hthrows, hbefore⟩
                cases k with
                | zero => exact hnot hthrows
                | succ k =>
                    have hnone : tryPort minPort maxPort (world (i + 0)) = .ok none :=
                      tryPort_eq_none.mpr (hbefore 0 (Nat.succ_pos k))
                    rw [add_zero, htry] at hnone
                    cases hnone
          | none =>
              change (∃ e, tryPorts minPort maxPort world (i + 1) n = .error e) ↔ _
              rw [ih]
              constructor
              · rintro ⟨k, hk, hthrows, hbefore⟩
                refine ⟨k + 1, Nat.succ_lt_succ hk, ?_, fun j hj => ?_⟩
                · rwa [← add_assoc, add_right_comm]
                · cases j with
                  | zero => exact tryPort_eq_none.mp htry
                  | succ j =>
                      rw [← add_assoc, add_right_comm]
                      exact hbefore j (Nat.lt_of_succ_lt_succ hj)
              · rintro ⟨k, hk, hthrows, hbefore⟩
                cases k with
                | zero => exact absurd hthrows hnot
                | succ k =>
                    refine ⟨k, Nat.lt_of_succ_lt_succ hk, ?_, fun j hj => ?_⟩
                    · rwa [← add_assoc, add_right_comm] at hthrows
                    · have := hbefore (j + 1) (Nat.succ_lt_succ hj)
                      rwa [← add_assoc, add_right_comm] at this

theorem tcpv4BindRandomPort_eq_error {minPort maxPort tries : ℕ} {world : ℕ → PortTry}
    (h : minPort ≤ maxPort) :
    (∃ e, tcpv4BindRandomPort minPort maxPort world tries = .error e) ↔
      ∃ k < tries, (world k).Throws ∧ ∀ j < k, ¬(world j).Throws ∧ (world j).bind ≠ 0 := by
  rw [tcpv4BindRandomPort, if_neg (Nat.not_lt.mpr h), tryPorts_eq_error]
  simp only [zero_add]

end Net

end DistStorage
