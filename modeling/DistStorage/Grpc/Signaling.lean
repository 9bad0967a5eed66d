import DistStorage.Grpc.HolePunchPath
import DistStorage.Grpc.Resolver

/-!
# The signaling of a hole punch

The initiator's resolver sends the parameters of a hole punch, the responder's
`MessageSendHandler` authenticates and completes them and punches with its own
socket, and the completion of the call gives the initiator's engine the argument
for its side of the punch.

The signature check and the coding of payloads are parameters. The responder's punch is
the whole function of the engine, so that it may do something undefined; it never does,
and it never succeeds.
-/

namespace DistStorage

namespace Grpc

open Cpp HolePunch Net Peer Proto Transition

/-- What the responder's authentication calls: the signature check and the parser
of `MessageData`. -/
structure SignalingEnv (K R : Type) where
  digestVerify : SSLVerifier K → Bytes → Bytes → ℤ
  parse : Bytes → Option (FullMessageData (Payload R))

def SignalingEnv.authEnv {K R : Type} (env : SignalingEnv K R) : AuthEnv (SSLVerifier K) where
  digestVerify := env.digestVerify
  parseMessageData := fun text => (env.parse text).map FullMessageData.toMessageData

inductive SendMessageStatus
  | ok
  | rejected
  | destNotFound
  | failed
  deriving DecidableEq, Repr

/-- The responder's side: its store, the tries of its reservation, the names of its
sockets, and the answers to the calls of its punch. -/
structure Responder (K S : Type) where
  authStore : TrustStore K S
  ports : ℕ → PortTry
  socketName : ℤ → SocketName
  answers : ℕ → Answer

/-- `RunSignaledIncomingHolePunch`, with no cancel flag, up to its outcome: the callback
keeps it, and it was an error before. An endpoint owns its socket or not. -/
def signaledOutcome (answers : ℕ → Answer) (reservedFd : ℤ) (params : HolePunchParameters) :
    Option (Option Bool) :=
  match performHolePunchAndHandshake params keepCompletion
      (.received answers (fun _ => false) reservedFd) with
  | .returned _ t =>
      match t.completions.getLast? with
      | some (.endpoint owned) => some (some owned)
      | _ => some none
  | .thrown _ _ | .undefined => none

/-- The status of the response, and what the engine was asked to punch with. -/
structure SendReply where
  status : SendMessageStatus
  punched : Option (ℤ × FullHolePunchParameters)
  deriving DecidableEq, Repr

section Responder

variable {K S R : Type}

/-- The part of `handle_request` with the parameters of the request. The port
reservation and the punch may throw out of it. -/
def Responder.punch (host : Responder K S) (received : FullHolePunchParameters) :
    Option SendReply :=
  match received.dst with
  | .notSet | .ipv6 _ => some ⟨.failed, none⟩
  | .ipv4 _ =>
      match tcpv4BindRandomPort 12345 23456 host.ports 32 with
      | .error _ => none
      | .ok reservation =>
          if !reservation.valid then some ⟨.failed, none⟩
          else
            match tcpv4AddrFromSocket (host.socketName reservation.fd) with
            | .error _ => some ⟨.failed, none⟩
            | .ok addr =>
                let params := { received with src := .ipv4 addr }
                (signaledOutcome host.answers reservation.fd params.toHolePunchParameters).map
                  fun outcome =>
                    { status := if outcome.isSome then .ok else .failed
                      punched := some (reservation.fd, params) }

/-- `MessageSendHandler::handle_request`. The signature check may throw out of it. -/
def Responder.handleRequest (env : SignalingEnv K R) (host : Responder K S)
    (request : SignedMessage) : Option SendReply :=
  match authenticateSignedMessageData env.authEnv host.authStore.messageStore request with
  | none => none
  | some .unknownSender | some .badSignature => some ⟨.rejected, none⟩
  | some .badPayload => some ⟨.failed, none⟩
  | some (.ok _) =>
      match (env.parse request.data).bind FullMessageData.m with
      | some (.holePunch received) => host.punch received
      | _ => some ⟨.rejected, none⟩

/-- No punch of the engine gets an endpoint, whatever the calls answer. -/
theorem signaledOutcome_eq (answers : ℕ → Answer) {reservedFd : ℤ} (hfd : 0 ≤ reservedFd)
    (params : HolePunchParameters) : signaledOutcome answers reservedFd params = some none := by
  obtain ⟨e, t, hpunch⟩ := tcpv4HolePunch_thrown answers (fun _ => false) params hfd
  have hlast : (Machine.reset .fd { t with
      completions := t.completions ++ [.failed e] }).completions.getLast? = some (.failed e) := by
    rw [Machine.reset_completions]
    exact List.getLast?_concat
  rw [signaledOutcome, perform_of_thrown rfl hpunch]
  simp only [hlast]

end Responder

/-- What `HolePunchEventEngine::Connect` punches with. -/
def connect (arg : NegotiatedHolePunchArg) : Option (ℤ × FullHolePunchParameters) :=
  if arg.reservedFd = -1 then none else some (arg.reservedFd, arg.params)

/-- The two sides punch toward each other: the initiator with its reserved socket
and the parameters it sent, the responder from its own address toward the
initiator's source. -/
structure SidesMatch (call : SignalingCall) (arg : NegotiatedHolePunchArg) (own : IPv4Addr)
    (punched : FullHolePunchParameters) : Prop where
  reserved : arg.reservedFd = call.socket.fd
  params : arg.params = call.params
  dst : punched.dst = call.params.src
  src : punched.src = .ipv4 own

structure SignalingCall.Signed (call : SignalingCall) : Prop where
  port : 12345 ≤ call.socket.port
  params : call.params = NodeResolver.holePunchParameters call.socket.port

section Exchange

variable {K S R K' S' : Type} {sign : SignMessage K S R} {nodeId : Bytes} {s t : NodeResolver}

open NodeResolver

theorem signed_of_mem_startLocked {w : Surroundings K S} {call : SignalingCall}
    (hcall : call ∈ (s.startLocked sign nodeId w).outstanding) :
    call ∈ s.outstanding ∨ call.Signed := by
  unfold startLocked at hcall
  split_ifs at hcall with hresolving
  · exact .inl hcall
  · cases hbind : tcpv4BindRandomPort 12345 23456 w.ports 32 with
    | error e =>
        rw [hbind] at hcall
        exact .inl hcall
    | ok socket =>
        simp only [hbind] at hcall
        split_ifs at hcall with hvalid
        · rw [startHolePunching_of_valid rfl hvalid, sendHolePunch] at hcall
          cases hsign : sign (signRequest nodeId socket.port) w.authStore with
          | returned msg store =>
              simp only [hsign, outstanding, List.mem_append, List.mem_singleton] at hcall
              rcases hcall with (hcall | rfl) | hcall
              · exact .inl (List.mem_append_left _ hcall)
              · exact .inr ⟨(tcpv4BindRandomPort_valid hbind hvalid).2.1, rfl⟩
              · exact .inl (List.mem_append_right _ hcall)
          | thrown e store =>
              rw [hsign] at hcall
              exact .inl hcall
          | undefined =>
              rw [hsign] at hcall
              exact .inl hcall
        · exact .inl hcall

theorem outstanding_onHolePunchingDone {status : SendStatus}
    (h : s.onHolePunchingDone status = some t) : t.outstanding = s.outstanding := by
  cases status with
  | ok =>
      obtain ⟨socket, -, rfl⟩ := Option.map_eq_some_iff.mp h
      rfl
  | failed errorMessage =>
      obtain rfl := Option.some.inj h
      rfl

theorem signed_step (hs : ∀ call ∈ s.outstanding, call.Signed) {e : Event K S}
    (hstep : s.step sign nodeId e = some t) : ∀ call ∈ t.outstanding, call.Signed := by
  intro call hcall
  cases e with
  | startLocked w =>
      obtain rfl := Option.some.inj hstep
      exact (signed_of_mem_startLocked hcall).elim (hs call) id
  | requestReresolutionLocked w =>
      obtain rfl := Option.some.inj hstep
      exact (signed_of_mem_startLocked hcall).elim (hs call) id
  | resetBackoffLocked =>
      obtain rfl := Option.some.inj hstep
      exact hs call hcall
  | shutdownLocked =>
      obtain rfl := Option.some.inj hstep
      exact hs call hcall
  | sendDone i status =>
      obtain ⟨done, hdone, rfl⟩ := Option.map_eq_some_iff.mp hstep
      refine hs call ?_
      rw [outstanding, List.map_append, List.mem_append, List.mem_append] at hcall
      rcases hcall with hcall | hcall | hcall
      · exact List.mem_append_left _ (List.mem_of_mem_eraseIdx hcall)
      · exact List.mem_append_right _ hcall
      · obtain rfl := List.mem_singleton.mp hcall
        exact List.mem_append_left _ (List.mem_of_getElem? hdone)
  | runSerializer =>
      obtain ⟨completion, -, hdone⟩ := Option.bind_eq_some_iff.mp hstep
      rw [outstanding_onHolePunchingDone hdone] at hcall
      refine hs call ?_
      rcases List.mem_append.mp hcall with hcall | hcall
      · exact List.mem_append_left _ hcall
      · obtain ⟨c, hc, rfl⟩ := List.mem_map.mp hcall
        exact List.mem_append_right _ (List.mem_map_of_mem (List.mem_of_mem_tail hc))

theorem handleRequest_punched {env : SignalingEnv K' R} {host : Responder K' S'}
    {request : SignedMessage} {reply : SendReply} {fd : ℤ} {punched : FullHolePunchParameters}
    (hreply : host.handleRequest env request = some reply)
    (hpunched : reply.punched = some (fd, punched)) :
    ∃ received own, (env.parse request.data).bind FullMessageData.m = some (.holePunch received) ∧
      tcpv4AddrFromSocket (host.socketName fd) = .ok own ∧
      punched = { received with src := .ipv4 own } := by
  have hnone : ∀ status, (⟨status, none⟩ : SendReply) ≠ reply := by
    rintro status rfl
    cases hpunched
  unfold Responder.handleRequest at hreply
  split at hreply
  · cases hreply
  · exact absurd (Option.some.inj hreply) (hnone _)
  · exact absurd (Option.some.inj hreply) (hnone _)
  · exact absurd (Option.some.inj hreply) (hnone _)
  · split at hreply
    · next received hreceived =>
        unfold Responder.punch at hreply
        split at hreply
        · exact absurd (Option.some.inj hreply) (hnone _)
        · exact absurd (Option.some.inj hreply) (hnone _)
        · split at hreply
          · cases hreply
          · split_ifs at hreply with hvalid
            · exact absurd (Option.some.inj hreply) (hnone _)
            · split at hreply
              · exact absurd (Option.some.inj hreply) (hnone _)
              · next own hown =>
                  obtain ⟨outcome, -, rfl⟩ := Option.map_eq_some_iff.mp hreply
                  obtain ⟨rfl, rfl⟩ := Prod.mk.inj (Option.some.inj hpunched)
                  exact ⟨received, own, hreceived, hown, rfl⟩
    · exact absurd (Option.some.inj hreply) (hnone _)

/-- In an exchange that the responder takes up with the parameters that were sent,
the initiator gets its socket without the parameters, and the responder punches
from its own address toward the placeholder that it received, which is not the
initiator's source. The sides never match. -/
theorem sides_never_match (sign : SignMessage K S R) (nodeId : Bytes) (es : List (Event K S))
    (s t : NodeResolver) (hrun : run (step sign nodeId) new es = some s) (call : SignalingCall)
    (rest : List (SignalingCall × SendStatus)) (hqueued : s.queued = (call, .ok) :: rest)
    (hstep : s.step sign nodeId .runSerializer = some t) (env : SignalingEnv K' R)
    (host : Responder K' S')
    (hcarried : (env.parse call.request.data).bind FullMessageData.m =
      some (.holePunch call.params))
    (reply : SendReply) (hreply : host.handleRequest env call.request = some reply) (fd : ℤ)
    (punched : FullHolePunchParameters) (hpunched : reply.punched = some (fd, punched)) :
    ∃ arg own, t.log = s.log ++ [.reported (.addresses arg)] ∧
      tcpv4AddrFromSocket (host.socketName fd) = .ok own ∧
      ((∀ e ∈ es, e ≠ .shutdownLocked) → arg.reservedFd = call.socket.fd) ∧
      punched.src = .ipv4 own ∧ arg.params ≠ call.params ∧ punched.dst ≠ call.params.src ∧
      ¬SidesMatch call arg own punched := by
  have hsigned : ∀ call ∈ s.outstanding, call.Signed :=
    run_invariant (fun _ _ _ hs hstep => signed_step hs hstep)
      (fun _ h => absurd h List.not_mem_nil) hrun
  have hcall := hsigned call (by rw [outstanding, hqueued]; simp)
  obtain ⟨received, own, hreceived, hown, rfl⟩ := handleRequest_punched hreply hpunched
  obtain rfl : call.params = received := by
    rw [hcarried] at hreceived
    exact Payload.holePunch.inj (Option.some.inj hreceived)
  have hparams : FullHolePunchParameters.unset ≠ call.params := by
    rw [hcall.params]
    intro h
    have htime : 0 = 1234 := congrArg FullHolePunchParameters.startTimeMs h
    cases htime
  have hdst : call.params.dst ≠ call.params.src := by
    have hport := hcall.port
    rw [hcall.params]
    intro h
    have hzero : 0 = call.socket.port := congrArg IPv4Addr.port (IPAddr.ipv4.inj h)
    omega
  have hdone : { s with queued := rest }.finishResolution = some t := by
    rw [← hstep, step, hqueued]
    rfl
  obtain ⟨socket, hsocket, rfl⟩ := Option.map_eq_some_iff.mp hdone
  refine ⟨⟨socket.fd, .unset⟩, own, rfl, hown, fun hes => ?_, rfl, hparams, hdst,
    fun h => hparams h.params⟩
  have hreservation := (consistent_of_run hes hrun).reservation call
    (by rw [outstanding, hqueued]; simp)
  obtain rfl : socket = call.socket := Option.some.inj (hsocket.symm.trans hreservation)
  rfl

end Exchange

/-- The initiator's punch with unset parameters fails at once, for want of a
source. -/
theorem tcpv4HolePunch_unset (m : Machine) :
    ∃ m', tcpv4HolePunch FullHolePunchParameters.unset.toHolePunchParameters m =
      .thrown (.connectionError "hole punch parameters require IPv4 src") m' := by
  have hsrc : getHolePunchIpv4Src FullHolePunchParameters.unset.toHolePunchParameters m =
      .thrown (.connectionError "hole punch parameters require IPv4 src") m :=
    getHolePunchIpv4Src_thrown (fun ⟨src, h⟩ => nomatch (h : IPAddr.notSet = .ipv4 src)) m
  exact ⟨_, Action.finallyDo_of_thrown (Action.bind_of_thrown (Action.bind_of_thrown hsrc))⟩

section Sample

open NodeResolver

def sampleEnv : SignalingEnv UInt8 Empty where
  digestVerify := fun _ _ signature => if signature = [1] then 1 else 0
  parse := fun text =>
    if text = [2] then
      some { recipientId := [2], m := some (.holePunch (holePunchParameters 12352)),
             hasRecipientCert := false }
    else none

def sampleResponder : Responder UInt8 UInt8 where
  authStore := (TrustStore.configured [2] [] none).emplacePeer [1] ⟨[], ⟨7⟩⟩
  ports := fun _ => ⟨100, 6, 0, 0, 0⟩
  socketName := fun _ => ⟨0, ⟨[0, 0, 0, 0], 12445⟩⟩
  answers := sampleAnswers 1

def sampleEvents : List (Event UInt8 UInt8) := [.startLocked (samplePorts 0), .sendDone 0 .ok]

def sampleCall : SignalingCall where
  context := 0
  request := { senderId := [1], signature := [1], senderCert := [], data := [2], ttl := 4 }
  socket := ⟨5, 12352⟩
  params := holePunchParameters 12352

def samplePunched : FullHolePunchParameters :=
  { holePunchParameters 12352 with src := .ipv4 ⟨[0, 0, 0, 0], 12445⟩ }

theorem sides_never_match_sample :
    ∃ s t arg own, run (step sampleSign [2]) new sampleEvents = some s ∧
      s.queued = [(sampleCall, .ok)] ∧ s.step sampleSign [2] .runSerializer = some t ∧
      sampleResponder.handleRequest sampleEnv sampleCall.request =
        some ⟨.failed, some (6, samplePunched)⟩ ∧
      ¬SidesMatch sampleCall arg own samplePunched := by
  obtain ⟨arg, own, -, -, -, -, -, -, hnot⟩ := sides_never_match sampleSign [2] sampleEvents _ _
    rfl sampleCall [] rfl rfl sampleEnv sampleResponder rfl ⟨.failed, some (6, samplePunched)⟩ rfl 6
    samplePunched rfl
  exact ⟨_, _, arg, own, rfl, rfl, rfl, rfl, hnot⟩

/-- The initiator's engine gets unset parameters, and the responder punches toward
port zero. -/
theorem punch_parameters_lost :
    ∃ s t, run (step sampleSign [2]) new sampleEvents = some s ∧
      s.queued = [(sampleCall, .ok)] ∧ s.step sampleSign [2] .runSerializer = some t ∧
      t.log = [.attempt, .reported (.addresses ⟨5, .unset⟩)] ∧
      connect ⟨5, .unset⟩ = some (5, .unset) ∧
      sampleResponder.handleRequest sampleEnv sampleCall.request =
        some ⟨.failed, some (6, samplePunched)⟩ ∧
      samplePunched.dst = .ipv4 ⟨[0, 0, 0, 0], 0⟩ ∧
      ¬SidesMatch sampleCall ⟨5, .unset⟩ ⟨[0, 0, 0, 0], 12445⟩ samplePunched := by
  refine ⟨_, _, rfl, rfl, rfl, rfl, rfl, rfl, rfl, fun h => ?_⟩
  have htime : 0 = 1234 := congrArg FullHolePunchParameters.startTimeMs h.params
  cases htime

end Sample

end Grpc

end DistStorage
