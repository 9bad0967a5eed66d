import DistStorage.Net.RandomPort
import DistStorage.Net.TcpV4
import DistStorage.Peer.Signing
import DistStorage.Transition.Run

/-!
# The node resolver

`NodeResolver` reserves a port, signs the parameters of a hole punch and sends
them in a signaling call, and reports a result when the call is done. Its
methods run in a work serializer, one at a time. The completion of a call is
queued there and handled later, so other methods may run in between.

`sign_message` is a parameter: it returns a message or throws. An exception
leaves a method with the resolver as it is. The service config of a result, the
dummy address and the cancellation of a call, which then completes with some
status, are left out.
-/

namespace DistStorage

namespace Grpc

open Cpp Net Peer Proto Transition

/-- `HolePunchParameters` with all its fields. -/
structure FullHolePunchParameters extends HolePunchParameters where
  startTimeMs : ℕ
  deriving DecidableEq, Repr

def FullHolePunchParameters.unset : FullHolePunchParameters where
  src := .notSet
  dst := .notSet
  connectSecStart := 0
  connectSecMax := 0
  connectSecScale := 0
  connectCount := 0
  startTimeMs := 0

/-- The `oneof` of `MessageData`, over registrations of type `R`. -/
inductive Payload (R : Type)
  | minionRegister (register : R)
  | holePunch (params : FullHolePunchParameters)
  | listen (addr : IPAddr)

inductive SendStatus
  | ok
  | failed (errorMessage : String)
  deriving DecidableEq, Repr

structure NegotiatedHolePunchArg where
  reservedFd : ℤ
  params : FullHolePunchParameters
  deriving DecidableEq, Repr

/-- The addresses of a `Resolver::Result`: an error, or the dummy address with its
argument. -/
inductive ResolverResult
  | resourceExhausted (what : String)
  | unavailable (what : String)
  | addresses (arg : NegotiatedHolePunchArg)
  deriving DecidableEq, Repr

/-- A signaling call: the number of its context and its request, and what the
request was made for. -/
structure SignalingCall where
  context : ℕ
  request : SignedMessage
  socket : ReservedSocket
  params : FullHolePunchParameters
  deriving DecidableEq, Repr

/-- `resolving_` is set, or a result is reported. -/
inductive ResolverNote
  | attempt
  | reported (result : ResolverResult)
  deriving DecidableEq, Repr

/-- Contexts are numbered as they are created, and `contexts` is the next number.
The log records what happened and is never read by the code. -/
structure NodeResolver where
  resolving : Bool
  currentPortReservation : Option ReservedSocket
  holePunchContext : Option ℕ
  contexts : ℕ
  holePunchReq : SignedMessage
  inFlight : List SignalingCall
  queued : List (SignalingCall × SendStatus)
  log : List ResolverNote

/-- What a method meets: the tries of the reservation that `StartLocked` makes, of
the one that `StartHolePunching` may make, and the store. -/
structure Surroundings (K S : Type) where
  ports : ℕ → PortTry
  portsAgain : ℕ → PortTry
  authStore : TrustStore K S

/-- `sign_message` of the store. -/
abbrev SignMessage (K S R : Type) :=
  SignRequest (Payload R) → StoreAction K S SignedMessage

namespace NodeResolver

variable {K S R : Type}

def new : NodeResolver where
  resolving := false
  currentPortReservation := none
  holePunchContext := none
  contexts := 0
  holePunchReq := default
  inFlight := []
  queued := []
  log := []

def reportResult (s : NodeResolver) (result : ResolverResult) : NodeResolver :=
  { s with log := s.log ++ [.reported result] }

/-- The parameters that are signed: no destination yet, and the reserved port. -/
def holePunchParameters (port : ℕ) : FullHolePunchParameters where
  dst := .ipv4 ⟨[0, 0, 0, 0], 0⟩
  src := .ipv4 ⟨[0, 0, 0, 0], port⟩
  startTimeMs := 1234
  connectCount := 4
  connectSecStart := 5
  connectSecMax := 6
  connectSecScale := 5 / 2

/-- The call of `sign_message` for a reserved port. -/
def signRequest (nodeId : Bytes) (port : ℕ) : SignRequest (Payload R) where
  messageData :=
    { recipientId := []
      m := some (.holePunch (holePunchParameters port))
      hasRecipientCert := false }
  recipientId := nodeId
  addCert := false

section Methods

variable (sign : SignMessage K S R) (nodeId : Bytes)

/-- The part of `StartHolePunching` that signs and sends. -/
def sendHolePunch (s : NodeResolver) (context : ℕ) (socket : ReservedSocket)
    (store : TrustStore K S) : NodeResolver :=
  match sign (signRequest nodeId socket.port) store with
  | .returned msg _ =>
      { s with
        holePunchReq := msg
        inFlight := s.inFlight ++ [⟨context, msg, socket, holePunchParameters socket.port⟩] }
  | .thrown _ _ | .undefined => s

def startHolePunching (s : NodeResolver) (w : Surroundings K S) : NodeResolver :=
  let context := s.contexts
  let s := { s with holePunchContext := some context, contexts := s.contexts + 1 }
  match s.currentPortReservation.filter ReservedSocket.valid with
  | some socket => s.sendHolePunch sign nodeId context socket w.authStore
  | none =>
      match tcpv4BindRandomPort 12345 23456 w.portsAgain 32 with
      | .error _ => s
      | .ok socket =>
          let s := { s with currentPortReservation := some socket }
          if socket.valid then s.sendHolePunch sign nodeId context socket w.authStore
          else
            { s with resolving := false }.reportResult
              (.resourceExhausted "No ports available in configured range")

def startLocked (s : NodeResolver) (w : Surroundings K S) : NodeResolver :=
  if s.resolving then s
  else
    let s := { s with resolving := true, log := s.log ++ [.attempt] }
    match tcpv4BindRandomPort 12345 23456 w.ports 32 with
    | .error _ => s
    | .ok socket =>
        if socket.valid then
          { s with currentPortReservation := some socket }.startHolePunching sign nodeId w
        else { s with resolving := false }

/-- `FinishResolution`, which moves the descriptor out of the reservation. -/
def finishResolution (s : NodeResolver) : Option NodeResolver :=
  s.currentPortReservation.map fun socket =>
    { s with resolving := false, currentPortReservation := none }.reportResult
      (.addresses { reservedFd := socket.fd, params := .unset })

def onHolePunchingDone (s : NodeResolver) : SendStatus → Option NodeResolver
  | .ok => s.finishResolution
  | .failed errorMessage =>
      some ({ s with resolving := false, currentPortReservation := none }.reportResult
        (.unavailable ("Hole Punch Signaling Failed: " ++ errorMessage)))

inductive Event (K S : Type)
  | startLocked (w : Surroundings K S)
  | requestReresolutionLocked (w : Surroundings K S)
  | resetBackoffLocked
  | shutdownLocked
  | sendDone (i : ℕ) (status : SendStatus)
  | runSerializer

/-- There is no step where the source reads an empty reservation. -/
def step (s : NodeResolver) : Event K S → Option NodeResolver
  | .startLocked w | .requestReresolutionLocked w => some (s.startLocked sign nodeId w)
  | .resetBackoffLocked => some s
  | .shutdownLocked => some { s with resolving := false }
  | .sendDone i status =>
      s.inFlight[i]?.map fun call =>
        { s with inFlight := s.inFlight.eraseIdx i, queued := s.queued ++ [(call, status)] }
  | .runSerializer =>
      s.queued.head?.bind fun completion =>
        { s with queued := s.queued.tail }.onHolePunchingDone completion.2

end Methods

/-- The calls that are not handled yet. -/
def outstanding (s : NodeResolver) : List SignalingCall := s.inFlight ++ s.queued.map Prod.fst

/-- Whether an attempt is under way after a note; attempts and results alternate. -/
def attemptAfter : Bool → ResolverNote → Option Bool
  | false, .attempt => some true
  | true, .reported _ => some false
  | _, _ => none

/-- Whether an attempt is under way after all notes. -/
def attemptOpen (log : List ResolverNote) : Option Bool := log.foldlM attemptAfter false

/-- Every attempt that has ended has one result, and the one that has not ended
waits for its call. -/
structure Answered (s : NodeResolver) : Prop where
  attemptOpen_eq : attemptOpen s.log = some s.resolving
  underWay : s.resolving = true → s.outstanding.length = 1

/-- The tries reserve a valid socket, and `sign_message` returns for its port. -/
def reserves (sign : SignMessage K S R) (nodeId : Bytes) (w : Surroundings K S) : Bool :=
  match tcpv4BindRandomPort 12345 23456 w.ports 32 with
  | .error _ => false
  | .ok socket =>
      socket.valid && (sign (signRequest nodeId socket.port) w.authStore).returns fun _ _ => true

/-- A call that begins an attempt gets a valid socket and a signed message. -/
def GetsThrough (sign : SignMessage K S R) (nodeId : Bytes) (s : NodeResolver) :
    Event K S → Prop
  | .startLocked w | .requestReresolutionLocked w =>
      s.resolving = false → reserves sign nodeId w = true
  | _ => True

instance (sign : SignMessage K S R) (nodeId : Bytes) (s : NodeResolver) :
    (e : Event K S) → Decidable (GetsThrough sign nodeId s e)
  | .startLocked w | .requestReresolutionLocked w =>
      inferInstanceAs (Decidable (s.resolving = false → reserves sign nodeId w = true))
  | .resetBackoffLocked | .shutdownLocked | .sendDone _ _ | .runSerializer => .isTrue trivial

/-- What holds of a resolver that is not shut down. A call that is not handled yet
is the only one, and its context and its socket are those of the resolver. -/
structure Consistent (s : NodeResolver) : Prop where
  single : s.outstanding.length ≤ 1
  resolving : ∀ call ∈ s.outstanding, s.resolving = true
  context : ∀ call ∈ s.outstanding, s.holePunchContext = some call.context
  reservation : ∀ call ∈ s.outstanding, s.currentPortReservation = some call.socket

/-- An attempt that sends its call. -/
structure Sent (s t : NodeResolver) (call : SignalingCall) : Prop where
  resolving : t.resolving = true
  log : t.log = s.log ++ [.attempt]
  outstanding : t.outstanding = [call]
  context : t.holePunchContext = some call.context
  reservation : t.currentPortReservation = some call.socket

structure Unsent (s t : NodeResolver) : Prop where
  log : t.log = s.log ++ [.attempt]
  outstanding : t.outstanding = []

theorem attemptOpen_append (log : List ResolverNote) (note : ResolverNote) :
    attemptOpen (log ++ [note]) =
      (attemptOpen log).bind fun isOpen => attemptAfter isOpen note := by
  simp [attemptOpen, List.foldlM_append]

section Steps

variable {sign : SignMessage K S R} {nodeId : Bytes} {s t : NodeResolver}

theorem reserves_iff {w : Surroundings K S} : reserves sign nodeId w = true ↔
    ∃ socket msg store, tcpv4BindRandomPort 12345 23456 w.ports 32 = .ok socket ∧
      socket.valid = true ∧
      sign (signRequest nodeId socket.port) w.authStore = .returned msg store := by
  unfold reserves
  cases tcpv4BindRandomPort 12345 23456 w.ports 32 with
  | error e => simp
  | ok socket =>
      cases hsign : sign (signRequest nodeId socket.port) w.authStore <;>
        simp [hsign, Outcome.returns]

theorem startHolePunching_of_valid {socket : ReservedSocket} {w : Surroundings K S}
    (hsocket : s.currentPortReservation = some socket) (hvalid : socket.valid = true) :
    s.startHolePunching sign nodeId w =
      { s with holePunchContext := some s.contexts, contexts := s.contexts + 1 }.sendHolePunch
        sign nodeId s.contexts socket w.authStore := by
  unfold startHolePunching
  simp only [hsocket, Option.filter_some, hvalid, if_true]

theorem startLocked_of_resolving (h : s.resolving = true) (w : Surroundings K S) :
    s.startLocked sign nodeId w = s := by
  rw [startLocked, if_pos h]

theorem startLocked_sent {w : Surroundings K S} (h : s.resolving = false)
    (hidle : s.outstanding = []) (hreserves : reserves sign nodeId w = true) :
    ∃ call, Sent s (s.startLocked sign nodeId w) call := by
  obtain ⟨socket, msg, store, hbind, hvalid, hsign⟩ := reserves_iff.mp hreserves
  obtain ⟨hflight, hqueued⟩ := List.append_eq_nil_iff.mp hidle
  refine ⟨⟨s.contexts, msg, socket, holePunchParameters socket.port⟩, ?_⟩
  unfold startLocked
  rw [h, if_neg Bool.false_ne_true]
  simp only [hbind, hvalid, if_true]
  rw [startHolePunching_of_valid rfl hvalid, sendHolePunch, hsign]
  refine ⟨rfl, rfl, ?_, rfl, rfl⟩
  simp [outstanding, hflight, hqueued]

theorem startLocked_unsent {w : Surroundings K S} (h : s.resolving = false)
    (hidle : s.outstanding = []) (hreserves : ¬reserves sign nodeId w = true) :
    Unsent s (s.startLocked sign nodeId w) := by
  unfold startLocked
  rw [h, if_neg Bool.false_ne_true]
  cases hbind : tcpv4BindRandomPort 12345 23456 w.ports 32 with
  | error e => exact ⟨rfl, hidle⟩
  | ok socket =>
      cases hvalid : socket.valid with
      | false =>
          simp only [hvalid, Bool.false_eq_true, if_false]
          exact ⟨rfl, hidle⟩
      | true =>
          simp only [hvalid, if_true]
          rw [startHolePunching_of_valid rfl hvalid, sendHolePunch]
          cases hsign : sign (signRequest nodeId socket.port) w.authStore with
          | returned msg store =>
              exact absurd (reserves_iff.mpr ⟨socket, msg, store, hbind, hvalid, hsign⟩) hreserves
          | thrown e store => exact ⟨rfl, hidle⟩
          | undefined => exact ⟨rfl, hidle⟩

theorem consistent_new : Consistent new := by
  have hnone : ∀ call, call ∉ new.outstanding := fun call => List.not_mem_nil
  exact ⟨Nat.zero_le 1, fun call hcall => absurd hcall (hnone call),
    fun call hcall => absurd hcall (hnone call), fun call hcall => absurd hcall (hnone call)⟩

theorem Consistent.of_idle (h : s.outstanding = []) : Consistent s := by
  have hnone : ∀ call, call ∉ s.outstanding := by
    intro call hcall
    rw [h] at hcall
    cases hcall
  exact ⟨by simp [h], fun c hc => absurd hc (hnone c), fun c hc => absurd hc (hnone c),
    fun c hc => absurd hc (hnone c)⟩

theorem Sent.consistent {call : SignalingCall} (h : Sent s t call) : Consistent t := by
  have hcall : ∀ c ∈ t.outstanding, c = call := by
    intro c hc
    rw [h.outstanding] at hc
    exact List.mem_singleton.mp hc
  refine ⟨by simp [h.outstanding], fun _ _ => h.resolving, ?_, ?_⟩
  · intro c hc
    rw [hcall c hc]
    exact h.context
  · intro c hc
    rw [hcall c hc]
    exact h.reservation

theorem Consistent.idle (h : Consistent s) (hresolving : s.resolving = false) :
    s.outstanding = [] := by
  rw [List.eq_nil_iff_forall_not_mem]
  intro call hcall
  rw [h.resolving call hcall] at hresolving
  cases hresolving

theorem Consistent.sendDone (h : Consistent s) {i : ℕ} {status : SendStatus}
    (hstep : s.step sign nodeId (.sendDone i status) = some t) :
    t.outstanding = s.outstanding ∧ t.resolving = s.resolving ∧ t.log = s.log ∧
      t.holePunchContext = s.holePunchContext ∧
      t.currentPortReservation = s.currentPortReservation := by
  obtain ⟨call, hcall, rfl⟩ := Option.map_eq_some_iff.mp hstep
  have hmem : call ∈ s.inFlight := List.mem_of_getElem? hcall
  have hsingle := h.single
  rw [outstanding, List.length_append, List.length_map] at hsingle
  have hpos : 0 < s.inFlight.length := List.length_pos_of_mem hmem
  obtain ⟨only, honly⟩ := List.length_eq_one_iff.mp (show s.inFlight.length = 1 by omega)
  have hqueued : s.queued = [] := List.length_eq_zero_iff.mp (by omega)
  rw [honly] at hcall
  have hi : i = 0 := by
    have hlt := (List.getElem?_eq_some_iff.mp hcall).1
    rw [List.length_singleton] at hlt
    omega
  subst hi
  obtain rfl : only = call := Option.some.inj hcall
  refine ⟨?_, rfl, rfl, rfl, rfl⟩
  simp [outstanding, honly, hqueued]

variable (sign nodeId) in
theorem Consistent.runSerializer (h : Consistent s) {call : SignalingCall} {status : SendStatus}
    {rest : List (SignalingCall × SendStatus)} (hqueued : s.queued = (call, status) :: rest) :
    ∃ t result, s.step sign nodeId .runSerializer = some t ∧ t.resolving = false ∧
      t.log = s.log ++ [.reported result] ∧ t.outstanding = [] ∧
      (status = .ok →
        result = .addresses { reservedFd := call.socket.fd, params := .unset }) := by
  have hmem : call ∈ s.outstanding := by
    rw [outstanding, hqueued]
    simp
  have hsingle := h.single
  rw [outstanding, hqueued, List.map_cons, List.length_append, List.length_cons] at hsingle
  have hidle : s.inFlight ++ rest.map Prod.fst = [] := by
    rw [← List.length_eq_zero_iff, List.length_append]
    omega
  have hstep : s.step sign nodeId .runSerializer =
      { s with queued := rest }.onHolePunchingDone status := by
    rw [step, hqueued]
    rfl
  rw [hstep]
  cases status with
  | ok =>
      rw [onHolePunchingDone, finishResolution]
      simp only [h.reservation call hmem, Option.map_some]
      exact ⟨_, _, rfl, rfl, rfl, hidle, fun _ => rfl⟩
  | failed errorMessage => exact ⟨_, _, rfl, rfl, rfl, hidle, nofun⟩

theorem Consistent.step (h : Consistent s) {e : Event K S} (he : e ≠ .shutdownLocked)
    (hstep : s.step sign nodeId e = some t) : Consistent t := by
  have hstart : ∀ w : Surroundings K S, Consistent (s.startLocked sign nodeId w) := by
    intro w
    cases hresolving : s.resolving with
    | true => rwa [startLocked_of_resolving hresolving]
    | false =>
        have hidle := h.idle hresolving
        by_cases hreserves : reserves sign nodeId w = true
        · obtain ⟨call, hsent⟩ := startLocked_sent hresolving hidle hreserves
          exact hsent.consistent
        · exact .of_idle (startLocked_unsent hresolving hidle hreserves).outstanding
  cases e with
  | startLocked w =>
      obtain rfl := Option.some.inj hstep
      exact hstart w
  | requestReresolutionLocked w =>
      obtain rfl := Option.some.inj hstep
      exact hstart w
  | resetBackoffLocked =>
      obtain rfl := Option.some.inj hstep
      exact h
  | shutdownLocked => exact absurd rfl he
  | sendDone i status =>
      obtain ⟨hout, hresolving, -, hcontext, hreservation⟩ := h.sendDone hstep
      refine ⟨?_, ?_, ?_, ?_⟩ <;> rw [hout]
      · exact h.single
      · rw [hresolving]
        exact h.resolving
      · rw [hcontext]
        exact h.context
      · rw [hreservation]
        exact h.reservation
  | runSerializer =>
      obtain ⟨⟨call, status⟩, hhead, -⟩ := Option.bind_eq_some_iff.mp hstep
      obtain ⟨rest, hqueued⟩ : ∃ rest, s.queued = (call, status) :: rest :=
        ⟨s.queued.tail, (List.cons_head?_tail hhead).symm⟩
      obtain ⟨t', result, hstep', -, -, hidle, -⟩ :=
        h.runSerializer sign nodeId hqueued
      obtain rfl := Option.some.inj (hstep.symm.trans hstep')
      exact .of_idle hidle

theorem answered_new : Answered new := ⟨rfl, nofun⟩

/-- A step keeps the attempts answered exactly if a call that begins one gets a
valid socket and a signed message. -/
theorem answered_step_iff (h : Consistent s) (hs : Answered s) {e : Event K S}
    (he : e ≠ .shutdownLocked) (hstep : s.step sign nodeId e = some t) :
    Answered t ↔ GetsThrough sign nodeId s e := by
  have hstart : ∀ w : Surroundings K S, Answered (s.startLocked sign nodeId w) ↔
      (s.resolving = false → reserves sign nodeId w = true) := by
    intro w
    cases hresolving : s.resolving with
    | true =>
        rw [startLocked_of_resolving hresolving]
        exact iff_of_true hs nofun
    | false =>
        have hidle := h.idle hresolving
        have hopen : attemptOpen (s.log ++ [.attempt]) = some true := by
          rw [attemptOpen_append, hs.attemptOpen_eq, hresolving]
          rfl
        constructor
        · intro hanswered _
          by_contra hreserves
          have hunsent := startLocked_unsent hresolving hidle hreserves
          have hunder := hanswered.attemptOpen_eq
          rw [hunsent.log, hopen] at hunder
          have hlength := hanswered.underWay (Option.some.inj hunder).symm
          rw [hunsent.outstanding] at hlength
          cases hlength
        · intro hreserves
          obtain ⟨call, hsent⟩ := startLocked_sent hresolving hidle (hreserves rfl)
          refine ⟨?_, fun _ => ?_⟩
          · rw [hsent.log, hopen, hsent.resolving]
          · rw [hsent.outstanding, List.length_singleton]
  cases e with
  | startLocked w =>
      obtain rfl := Option.some.inj hstep
      exact hstart w
  | requestReresolutionLocked w =>
      obtain rfl := Option.some.inj hstep
      exact hstart w
  | resetBackoffLocked =>
      obtain rfl := Option.some.inj hstep
      exact iff_of_true hs trivial
  | shutdownLocked => exact absurd rfl he
  | sendDone i status =>
      obtain ⟨hout, hresolving, hlog, -, -⟩ := h.sendDone hstep
      refine iff_of_true ⟨?_, ?_⟩ trivial
      · rw [hlog, hresolving]
        exact hs.attemptOpen_eq
      · rw [hout, hresolving]
        exact hs.underWay
  | runSerializer =>
      obtain ⟨⟨call, status⟩, hhead, -⟩ := Option.bind_eq_some_iff.mp hstep
      obtain ⟨rest, hqueued⟩ : ∃ rest, s.queued = (call, status) :: rest :=
        ⟨s.queued.tail, (List.cons_head?_tail hhead).symm⟩
      obtain ⟨t', result, hstep', hresolving, hlog, -, -⟩ :=
        h.runSerializer sign nodeId hqueued
      obtain rfl := Option.some.inj (hstep.symm.trans hstep')
      have hunder : s.resolving = true := h.resolving call (by rw [outstanding, hqueued]; simp)
      refine iff_of_true ⟨?_, fun htrue => ?_⟩ trivial
      · rw [hlog, attemptOpen_append, hs.attemptOpen_eq, hunder, hresolving]
        rfl
      · rw [hresolving] at htrue
        cases htrue

theorem consistent_of_run {es : List (Event K S)} (hes : ∀ e ∈ es, e ≠ .shutdownLocked)
    (hrun : run (step sign nodeId) new es = some s) : Consistent s :=
  run_invariant_of_allSteps (P := fun _ e => e ≠ .shutdownLocked)
    (fun _ _ _ hs he hstep => hs.step he hstep) consistent_new
    (allSteps_of_forall_mem (fun _ e he => hes e he) _) hrun

/-- The calls of a resolver that is not shut down do not overlap, keep their
context and find their reservation. Its attempts are answered in every state
exactly if every call that begins one gets a valid socket and a signed message. -/
theorem answered_iff_getsThrough (sign : SignMessage K S R) (nodeId : Bytes)
    (es : List (Event K S)) (hes : ∀ e ∈ es, e ≠ .shutdownLocked) (s : NodeResolver)
    (hrun : run (step sign nodeId) new es = some s) :
    (s.inFlight.length ≤ 1 ∧ (∀ call ∈ s.inFlight, s.holePunchContext = some call.context) ∧
      ∀ call status rest, s.queued = (call, status) :: rest →
        s.currentPortReservation = some call.socket ∧
        ∃ t result, s.step sign nodeId .runSerializer = some t ∧ t.resolving = false ∧
          t.log = s.log ++ [.reported result]) ∧
    ((∀ pre t, pre <+: es → run (step sign nodeId) new pre = some t → Answered t) ↔
      AllSteps (step sign nodeId) (GetsThrough sign nodeId) new es) := by
  have hs := consistent_of_run hes hrun
  refine ⟨⟨?_, fun call hcall => hs.context call (List.mem_append_left _ hcall), ?_⟩, ?_⟩
  · have hsingle := hs.single
    rw [outstanding, List.length_append] at hsingle
    omega
  · intro call status rest hqueued
    obtain ⟨t, result, hstep, hresolving, hlog, -, -⟩ :=
      hs.runSerializer sign nodeId hqueued
    refine ⟨hs.reservation call ?_, t, result, hstep, hresolving, hlog⟩
    rw [outstanding, hqueued]
    simp
  · have hconsistent : ∀ s e t, e ≠ Event.shutdownLocked → Consistent s →
        step sign nodeId s e = some t → Consistent t := fun _ _ _ he hs hstep => hs.step he hstep
    have hanswered : ∀ s e t, e ≠ Event.shutdownLocked → Consistent s → Answered s →
        step sign nodeId s e = some t → (Answered t ↔ GetsThrough sign nodeId s e) :=
      fun _ _ _ he hs hanswered hstep => answered_step_iff hs hanswered he hstep
    exact (allSteps_iff_invariant_of_forall_mem hconsistent hanswered hes consistent_new
      answered_new hrun).symm

end Steps

/-- The store's own `sign_message` never returns, so no attempt gets through. -/
theorem not_reserves_signMessage (env : SigningEnv S K (Payload R)) (nodeId : Bytes)
    (w : Surroundings K S) : ¬reserves (TrustStore.signMessage env) nodeId w = true := by
  rw [reserves_iff]
  rintro ⟨socket, msg, store, -, -, hsign⟩
  exact TrustStore.signMessage_ne_returned env _ _ _ _ hsign

def sampleSign : SignMessage UInt8 UInt8 Empty := fun r store =>
  .returned
    { senderId := store.selfId, signature := [1], senderCert := [], data := r.recipientId,
      ttl := 4 } store

def samplePorts (bind : ℤ) : Surroundings UInt8 UInt8 where
  ports := fun _ => ⟨7, 5, 0, 0, bind⟩
  portsAgain := fun _ => ⟨7, 5, 0, 0, bind⟩
  authStore := .configured [1] [] none

theorem answered_iff_getsThrough_sample :
    ∃ s, run (step sampleSign [2]) new [.startLocked (samplePorts 0), .resetBackoffLocked,
        .requestReresolutionLocked (samplePorts (-1)), .sendDone 0 .ok, .runSerializer,
        .startLocked (samplePorts 0)] = some s ∧
      s.inFlight.length ≤ 1 ∧ Answered s := by
  obtain ⟨s, hs⟩ : ∃ s, run (step sampleSign [2]) new [.startLocked (samplePorts 0),
      .resetBackoffLocked, .requestReresolutionLocked (samplePorts (-1)), .sendDone 0 .ok,
      .runSerializer, .startLocked (samplePorts 0)] = some s := ⟨_, rfl⟩
  have hrun := answered_iff_getsThrough sampleSign [2] _ (by simp) s hs
  exact ⟨s, hs, hrun.1.1, hrun.2.mpr (by decide +kernel) _ s List.prefix_rfl hs⟩

/-- No port can be bound: the attempt ends and no result is ever reported. -/
theorem failed_reservation_not_answered :
    ∃ s, run (step sampleSign [2]) new [.startLocked (samplePorts (-1))] = some s ∧
      s.resolving = false ∧ s.inFlight = [] ∧ s.queued = [] ∧ s.log = [.attempt] ∧
      ¬Answered s := by
  refine ⟨_, rfl, rfl, rfl, rfl, rfl, ?_⟩
  intro h
  exact absurd h.attemptOpen_eq (by decide +kernel)

end NodeResolver

end Grpc

end DistStorage
