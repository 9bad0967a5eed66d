import DistStorage.Grpc.Signaling
import DistStorage.Message.StreamServer

/-!
# The two ways of a signed message

A signed message comes to the server by a `Send` call or on a stream. Both ways
authenticate it alike; after that `handle_request` looks at the payload alone, and
the stream at the recipient. `endsInStatus_iff` says which messages end in a status,
and `keptOut_iff` which messages for other nodes are not executed here. The stream
has neither the ports nor the engine, so that it never reserves or punches.
-/

namespace DistStorage

namespace Grpc

open Message Net Peer Proto

variable {K S R : Type}

section Definitions

/-- The sender is known, and OpenSSL's code for the signature is neither of the two
that the verifier tells apart. -/
def Malformed {κ : Type*} (env : AuthEnv κ) (store : AuthStore κ) (msg : SignedMessage) : Prop :=
  ∃ verifier, store.peers.lookup msg.senderId = some verifier ∧
    env.digestVerify verifier msg.data msg.signature ≠ 1 ∧
      env.digestVerify verifier msg.data msg.signature ≠ 0

/-- The payload has hole-punch parameters with an IPv4 destination. -/
def AsksForPunch (env : SignalingEnv K R) (msg : SignedMessage) : Prop :=
  ∃ received dst, (env.parse msg.data).bind FullMessageData.m = some (.holePunch received) ∧
    received.dst = .ipv4 dst

/-- A call of the reservation other than `bind` fails before a `bind` succeeds. -/
def ReservationThrows (ports : ℕ → PortTry) : Prop :=
  ∃ k < 32, (ports k).Throws ∧ ∀ j < k, ¬(ports j).Throws ∧ (ports j).bind ≠ 0

/-- The message is authenticated with a result, and both ways end in a status. -/
structure EndsInStatus (env : SignalingEnv K R) (host : Responder K S) (msg : SignedMessage) :
    Prop where
  authenticated : ∃ result,
    authenticateSignedMessageData env.authEnv host.authStore.messageStore msg = some result
  sent : ∃ reply, host.handleRequest env msg = some reply
  streamed : ∀ (s : Server) (x : ℕ), (s.sessions x).request = msg →
    ∃ result, s.handleIncomingMessage env.authEnv host.authStore.messageStore x = some result

/-- The parameters with which `handle_request` comes to its reservation. -/
def Responder.reserves (env : SignalingEnv K R) (host : Responder K S) (request : SignedMessage) :
    Option FullHolePunchParameters :=
  match authenticateSignedMessageData env.authEnv host.authStore.messageStore request with
  | some (.ok _) =>
      match (env.parse request.data).bind FullMessageData.m with
      | some (.holePunch received) =>
          match received.dst with
          | .ipv4 _ => some received
          | _ => none
      | _ => none
  | _ => none

/-- The signed recipient is another node. -/
def Foreign {κ : Type*} (store : AuthStore κ) (data : MessageData) : Prop :=
  data.recipientId ≠ [] ∧ data.recipientId ≠ store.selfId

/-- The message is not executed here: `Send` reserves no port and does not punch, and
the stream does not deliver it. -/
structure KeptOut (env : SignalingEnv K R) (host : Responder K S) (msg : SignedMessage) :
    Prop where
  reserves_eq : host.reserves env msg = none
  punched_eq : ∀ reply, host.handleRequest env msg = some reply → reply.punched = none
  not_delivered : ∀ (s t : Server) (data : MessageData) (action : RecipientDispatchAction),
    authenticateSignedMessageData env.authEnv host.authStore.messageStore msg =
        some (.ok data) →
      s.dispatchSignedMessageRecipient env.authEnv host.authStore.messageStore msg data =
          some (t, action) →
        action ≠ .deliverLocal

end Definitions

section Authentication

variable {κ : Type*} {env : AuthEnv κ} {store : AuthStore κ} {msg : SignedMessage}

theorem verify_eq_none {verifier : κ} {data signature : Bytes} :
    env.verify verifier data signature = none ↔
      env.digestVerify verifier data signature ≠ 1 ∧
        env.digestVerify verifier data signature ≠ 0 := by
  unfold AuthEnv.verify
  split <;> simp_all

theorem authenticate_eq_none :
    authenticateSignedMessageData env store msg = none ↔ Malformed env store msg := by
  unfold authenticateSignedMessageData Malformed AuthStore.validateMessage AuthStore.has
  cases store.peers.lookup msg.senderId with
  | none => simp
  | some verifier => simp [verify_eq_none]

theorem not_malformed_of_verifies (h : Verifies env store msg) : ¬Malformed env store msg := by
  rintro ⟨verifier, hverifier, hne, -⟩
  obtain ⟨verifier', hverifier', hone⟩ := h
  obtain rfl := Option.some.inj (hverifier.symm.trans hverifier')
  exact hne hone

theorem dispatch_of_verifies (h : Verifies env store msg) (s : Server) (data : MessageData) :
    ∃ r, s.dispatchSignedMessageRecipient env store msg data = some r := by
  have hroute : ∃ r, s.routeToRecipient env store data.recipientId msg = some r := by
    unfold Server.routeToRecipient
    rw [h.has, AuthStore.validateMessage_eq_true.mpr h]
    exact ⟨_, rfl⟩
  obtain ⟨r, hr⟩ := hroute
  unfold Server.dispatchSignedMessageRecipient
  split_ifs
  · exact ⟨_, rfl⟩
  · exact ⟨_, rfl⟩
  · exact ⟨_, by rw [hr]; rfl⟩

theorem handleIncomingMessage_eq_none {s : Server} {x : ℕ} :
    s.handleIncomingMessage env store x = none ↔
      Malformed env store (s.sessions x).request := by
  rw [← authenticate_eq_none]
  unfold Server.handleIncomingMessage
  dsimp only
  cases hauth : authenticateSignedMessageData env store (s.sessions x).request with
  | none => simp
  | some result =>
      cases result with
      | ok data =>
          obtain ⟨hverifies, -⟩ := authenticate_eq_ok.mp hauth
          simp only [Option.bind_some, Option.map_eq_none_iff, reduceCtorEq, iff_false]
          intro hnone
          obtain ⟨r, hr⟩ := dispatch_of_verifies hverifies _ data
          rw [hnone] at hr
          cases hr
      | unknownSender => simp
      | badSignature => simp
      | badPayload => simp

/-- The stream delivers a message here only if it is not meant for another node. -/
theorem dispatch_foreign {s t : Server} {data : MessageData} {action : RecipientDispatchAction}
    (hforeign : Foreign store data)
    (h : s.dispatchSignedMessageRecipient env store msg data = some (t, action)) :
    action ≠ .deliverLocal := by
  have hself : ¬store.isSelf data.recipientId = true := by
    simp [AuthStore.isSelf, hforeign.2]
  rw [Server.dispatchSignedMessageRecipient, if_neg hforeign.1, if_neg hself] at h
  obtain ⟨⟨u, routed⟩, -, heq⟩ := Option.map_eq_some_iff.mp h
  obtain rfl := (Prod.mk.inj heq).2
  cases routed <;> simp

end Authentication

section Send

variable {env : SignalingEnv K R} {host : Responder K S} {msg : SignedMessage}

theorem exists_reserves_iff :
    (∃ received, host.reserves env msg = some received) ↔
      Verifies env.authEnv host.authStore.messageStore msg ∧ AsksForPunch env msg := by
  unfold Responder.reserves AsksForPunch
  constructor
  · rintro ⟨received, h⟩
    split at h
    · next data hauth =>
        split at h
        · next received' hm =>
            split at h
            · next dst hdst =>
                exact ⟨(authenticate_eq_ok.mp hauth).1, received', dst, hm, hdst⟩
            · cases h
        · cases h
    · cases h
  · rintro ⟨hverifies, received, dst, hm, hdst⟩
    obtain ⟨full, hfull, -⟩ := Option.bind_eq_some_iff.mp hm
    have hparse : env.authEnv.parseMessageData msg.data = some full.toMessageData := by
      change (env.parse msg.data).map _ = _
      rw [hfull]
      rfl
    rw [authenticate_eq_ok.mpr ⟨hverifies, hparse⟩]
    simp only [hm, hdst]
    exact ⟨received, rfl⟩

theorem handleRequest_of_reserves {received : FullHolePunchParameters}
    (h : host.reserves env msg = some received) :
    host.handleRequest env msg = host.punch received ∧ ∃ dst, received.dst = .ipv4 dst := by
  unfold Responder.reserves at h
  split at h
  · next data hauth =>
      split at h
      · next received' hm =>
          split at h
          · next dst hdst =>
              obtain rfl := Option.some.inj h
              refine ⟨?_, dst, hdst⟩
              rw [Responder.handleRequest, hauth]
              simp only [hm]
          · cases h
      · cases h
  · cases h

/-- Where it does not reserve, the ports do not matter, it does not punch, and it throws
only on a malformed signature. -/
theorem handleRequest_of_not_reserves (h : host.reserves env msg = none) :
    (∀ ports, { host with ports := ports }.handleRequest env msg = host.handleRequest env msg) ∧
      (∀ reply, host.handleRequest env msg = some reply → reply.punched = none) ∧
        (host.handleRequest env msg = none ↔
          Malformed env.authEnv host.authStore.messageStore msg) := by
  rw [← authenticate_eq_none]
  unfold Responder.reserves at h
  unfold Responder.handleRequest
  dsimp only
  cases hauth : authenticateSignedMessageData env.authEnv host.authStore.messageStore msg with
  | none => simp
  | some result =>
      cases result with
      | unknownSender => simp
      | badSignature => simp
      | badPayload => simp
      | ok data =>
          rw [hauth] at h
          cases hm : (env.parse msg.data).bind FullMessageData.m with
          | none => simp
          | some payload =>
              cases payload with
              | minionRegister register => simp
              | listen addr => simp
              | holePunch received =>
                  simp only [hm] at h
                  cases hdst : received.dst with
                  | notSet => simp [Responder.punch, hdst]
                  | ipv6 dst => simp [Responder.punch, hdst]
                  | ipv4 dst =>
                      rw [hdst] at h
                      cases h

theorem punch_eq_none {received : FullHolePunchParameters} {dst : IPv4Addr}
    (h : received.dst = .ipv4 dst) :
    host.punch received = none ↔ ReservationThrows host.ports := by
  rw [ReservationThrows, ← tcpv4BindRandomPort_eq_error (by decide : 12345 ≤ 23456)]
  unfold Responder.punch
  rw [h]
  cases hbind : tcpv4BindRandomPort 12345 23456 host.ports 32 with
  | error e => simp
  | ok reservation =>
      simp only [reduceCtorEq, exists_false, iff_false]
      by_cases hvalid : reservation.valid = true
      · rw [hvalid, Bool.not_true, if_neg Bool.false_ne_true]
        split
        · simp
        · rw [signaledOutcome_eq host.answers (tcpv4BindRandomPort_valid hbind hvalid).1]
          simp
      · rw [Bool.not_eq_true] at hvalid
        rw [hvalid, Bool.not_false, if_pos rfl]
        simp

/-- `handle_request` throws on a malformed signature, or when the reservation does. -/
theorem handleRequest_eq_none :
    host.handleRequest env msg = none ↔
      Malformed env.authEnv host.authStore.messageStore msg ∨
        Verifies env.authEnv host.authStore.messageStore msg ∧ AsksForPunch env msg ∧
          ReservationThrows host.ports := by
  cases hreserves : host.reserves env msg with
  | none =>
      have hnot : ¬∃ received, host.reserves env msg = some received := by simp [hreserves]
      rw [exists_reserves_iff] at hnot
      rw [(handleRequest_of_not_reserves hreserves).2.2, or_iff_left]
      exact fun h => hnot ⟨h.1, h.2.1⟩
  | some received =>
      obtain ⟨hpunch, dst, hdst⟩ := handleRequest_of_reserves hreserves
      obtain ⟨hverifies, hasks⟩ := exists_reserves_iff.mp ⟨received, hreserves⟩
      rw [hpunch, punch_eq_none hdst, or_iff_right (not_malformed_of_verifies hverifies)]
      exact ⟨fun h => ⟨hverifies, hasks, h⟩, fun h => h.2.2⟩

end Send

/-- A message ends in a status on both ways unless its sender is known and OpenSSL finds
its signature malformed, or it verifies and asks for a punch for which the reservation
throws. -/
theorem endsInStatus_iff (env : SignalingEnv K R) (host : Responder K S) (msg : SignedMessage) :
    EndsInStatus env host msg ↔
      ¬Malformed env.authEnv host.authStore.messageStore msg ∧
        ¬(Verifies env.authEnv host.authStore.messageStore msg ∧ AsksForPunch env msg ∧
          ReservationThrows host.ports) := by
  constructor
  · intro h
    obtain ⟨result, hresult⟩ := h.authenticated
    obtain ⟨reply, hreply⟩ := h.sent
    constructor
    · intro hmalformed
      rw [authenticate_eq_none.mpr hmalformed] at hresult
      cases hresult
    · intro hthrows
      rw [handleRequest_eq_none.mpr (.inr hthrows)] at hreply
      cases hreply
  · rintro ⟨hmalformed, hthrows⟩
    refine ⟨?_, ?_, fun s x hrequest => ?_⟩
    · exact Option.ne_none_iff_exists'.mp fun hnone => hmalformed (authenticate_eq_none.mp hnone)
    · exact Option.ne_none_iff_exists'.mp fun hnone =>
        (handleRequest_eq_none.mp hnone).elim hmalformed hthrows
    · refine Option.ne_none_iff_exists'.mp fun hnone => hmalformed ?_
      rw [← hrequest]
      exact handleIncomingMessage_eq_none.mp hnone

/-- A message with a signature that OpenSSL calls malformed, and a verified message for
whose punch no socket can be made. -/
theorem message_throws :
    (∃ env : SignalingEnv UInt8 Empty,
      authenticateSignedMessageData env.authEnv sampleResponder.authStore.messageStore
          sampleCall.request = none ∧
        ¬EndsInStatus env sampleResponder sampleCall.request) ∧
      ¬EndsInStatus sampleEnv { sampleResponder with ports := fun _ => ⟨0, -1, 0, 0, 0⟩ }
        sampleCall.request := by
  constructor
  · refine ⟨{ sampleEnv with digestVerify := fun _ _ _ => -1 }, rfl, fun h => ?_⟩
    obtain ⟨result, hresult⟩ := h.authenticated
    cases hresult
  · intro h
    obtain ⟨reply, hreply⟩ := h.sent
    cases hreply

/-- An authenticated message for another node is not executed here unless it asks for a
punch. -/
theorem keptOut_iff (env : SignalingEnv K R) (host : Responder K S) (msg : SignedMessage)
    (data : MessageData)
    (hauth : authenticateSignedMessageData env.authEnv host.authStore.messageStore msg =
      some (.ok data)) :
    (Foreign host.authStore.messageStore data → KeptOut env host msg) ↔
      ¬(Foreign host.authStore.messageStore data ∧ AsksForPunch env msg) := by
  obtain ⟨hverifies, -⟩ := authenticate_eq_ok.mp hauth
  constructor
  · rintro h ⟨hforeign, hasks⟩
    obtain ⟨received, hreceived⟩ := exists_reserves_iff.mpr ⟨hverifies, hasks⟩
    rw [(h hforeign).reserves_eq] at hreceived
    cases hreceived
  · intro h hforeign
    have hreserves : host.reserves env msg = none := by
      by_contra hsome
      exact h ⟨hforeign, (exists_reserves_iff.mp (Option.ne_none_iff_exists'.mp hsome)).2⟩
    refine ⟨hreserves, (handleRequest_of_not_reserves hreserves).2.1, ?_⟩
    intro s t data' action hauth' hdispatch
    obtain rfl : data = data' := by
      rw [hauth] at hauth'
      exact SignedPayloadAuthResult.ok.inj (Option.some.inj hauth')
    exact dispatch_foreign hforeign hdispatch

/-- The responder of the sample under another name. -/
def otherResponder : Responder UInt8 UInt8 :=
  { sampleResponder with authStore := { sampleResponder.authStore with selfId := [3] } }

/-- A payload for the node of the name given that registers nothing. -/
def listenEnv : SignalingEnv UInt8 Empty :=
  { sampleEnv with
    parse := fun _ => some ⟨⟨[2]⟩, some (.listen .notSet), false⟩ }

theorem keptOut_iff_sample : KeptOut listenEnv otherResponder sampleCall.request := by
  refine (keptOut_iff listenEnv otherResponder sampleCall.request ⟨[2]⟩ rfl).mpr ?_
    ⟨by decide, by decide⟩
  rintro ⟨-, received, dst, hm, -⟩
  cases hm

/-- A message for the node `[2]` has the node `[3]` reserve a port and punch. -/
theorem foreign_punched :
    authenticateSignedMessageData sampleEnv.authEnv otherResponder.authStore.messageStore
        sampleCall.request = some (.ok ⟨[2]⟩) ∧
      Foreign otherResponder.authStore.messageStore ⟨[2]⟩ ∧
      otherResponder.handleRequest sampleEnv sampleCall.request =
        some ⟨.failed, some (6, samplePunched)⟩ ∧
      ¬KeptOut sampleEnv otherResponder sampleCall.request := by
  refine ⟨rfl, ⟨by decide, by decide⟩, rfl, fun h => ?_⟩
  have hpunched := h.punched_eq ⟨.failed, some (6, samplePunched)⟩ rfl
  cases hpunched

end Grpc

end DistStorage
