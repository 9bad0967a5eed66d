import DistStorage.Proto.Message

/-!
# Known peers and message authentication

`AuthStore` keeps a verifier for each known peer. The signature check and the
payload parser are outside the repository: `AuthEnv` gives the code of
`EVP_DigestVerify` for a verifier, the signed data and the signature, and the
parser of `MessageData`. A code other than one and zero throws, which is `none`
below.
-/

namespace DistStorage

namespace Peer

open Proto

/-- The external functions of authentication over verifiers of type `κ`. -/
structure AuthEnv (κ : Type*) where
  digestVerify : κ → Bytes → Bytes → ℤ
  parseMessageData : Bytes → Option MessageData

/-- The part of the store that message checks read. -/
structure AuthStore (κ : Type*) where
  selfId : Bytes
  peers : AList fun _ : Bytes => κ

/-- The outcome of `authenticate_signed_message_data`, with the parsed payload. -/
inductive SignedPayloadAuthResult
  | ok (data : MessageData)
  | unknownSender
  | badSignature
  | badPayload
  deriving DecidableEq, Repr

def AuthStore.isSelf {κ : Type*} (store : AuthStore κ) (peerId : Bytes) : Bool :=
  store.selfId ≠ [] && peerId = store.selfId

def AuthStore.has {κ : Type*} (store : AuthStore κ) (id : Bytes) : Bool :=
  (store.peers.lookup id).isSome

def AuthEnv.verify {κ : Type*} (env : AuthEnv κ) (verifier : κ) (data signature : Bytes) :
    Option Bool :=
  match env.digestVerify verifier data signature with
  | 1 => some true
  | 0 => some false
  | _ => none

def AuthStore.validateMessage {κ : Type*} (env : AuthEnv κ) (store : AuthStore κ)
    (msg : SignedMessage) : Option Bool :=
  match store.peers.lookup msg.senderId with
  | none => some false
  | some verifier => env.verify verifier msg.data msg.signature

def authenticateSignedMessageData {κ : Type*} (env : AuthEnv κ) (store : AuthStore κ)
    (msg : SignedMessage) : Option SignedPayloadAuthResult :=
  if !store.has msg.senderId then some .unknownSender
  else (store.validateMessage env msg).map fun valid =>
    if !valid then .badSignature
    else
      match env.parseMessageData msg.data with
      | none => .badPayload
      | some data => .ok data

/-- The sender of the message is a known peer whose verifier accepts it. -/
def Verifies {κ : Type*} (env : AuthEnv κ) (store : AuthStore κ) (msg : SignedMessage) : Prop :=
  ∃ verifier, store.peers.lookup msg.senderId = some verifier ∧
    env.digestVerify verifier msg.data msg.signature = 1

theorem AuthEnv.verify_eq_true {κ : Type*} {env : AuthEnv κ} {verifier : κ}
    {data signature : Bytes} :
    env.verify verifier data signature = some true ↔
      env.digestVerify verifier data signature = 1 := by
  unfold AuthEnv.verify
  split <;> simp_all

theorem AuthStore.validateMessage_eq_true {κ : Type*} {env : AuthEnv κ} {store : AuthStore κ}
    {msg : SignedMessage} :
    store.validateMessage env msg = some true ↔ Verifies env store msg := by
  unfold AuthStore.validateMessage Verifies
  cases store.peers.lookup msg.senderId with
  | none => simp
  | some verifier => simp [AuthEnv.verify_eq_true]

instance {κ : Type*} (env : AuthEnv κ) (store : AuthStore κ) (msg : SignedMessage) :
    Decidable (Verifies env store msg) :=
  decidable_of_iff _ AuthStore.validateMessage_eq_true

theorem Verifies.has {κ : Type*} {env : AuthEnv κ} {store : AuthStore κ} {msg : SignedMessage}
    (h : Verifies env store msg) : store.has msg.senderId = true := by
  obtain ⟨verifier, hlookup, -⟩ := h
  simp [AuthStore.has, hlookup]

theorem authenticate_eq_ok {κ : Type*} {env : AuthEnv κ} {store : AuthStore κ}
    {msg : SignedMessage} {data : MessageData} :
    authenticateSignedMessageData env store msg = some (.ok data) ↔
      Verifies env store msg ∧ env.parseMessageData msg.data = some data := by
  rw [← AuthStore.validateMessage_eq_true]
  unfold authenticateSignedMessageData
  cases hhas : store.has msg.senderId with
  | false =>
      have hnone : store.peers.lookup msg.senderId = none := by
        simpa [AuthStore.has] using hhas
      simp [AuthStore.validateMessage, hnone]
  | true =>
      rcases hvalid : store.validateMessage env msg with - | - | -
      · simp
      · simp
      · cases env.parseMessageData msg.data <;> simp

def Authentic {κ : Type*} (env : AuthEnv κ) (store : AuthStore κ) (msg : SignedMessage) :
    Bool :=
  match authenticateSignedMessageData env store msg with
  | some (.ok _) => true
  | _ => false

end Peer

end DistStorage
