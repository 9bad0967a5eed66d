import DistStorage.Peer.Trust

/-!
# Signing messages

`sign_message` fills in the recipient, serializes the payload and has the
signer of the store put the signature into a buffer of its size. The signature
scheme and the coding of the payload are outside the repository; `SigningEnv`
gives them with what signing and authentication rely on. `EVP_DigestSign` takes
the length argument as the capacity of the buffer.
-/

namespace DistStorage

namespace Peer

open Cpp Proto

/-- `MessageData` with all its fields, over payloads of type `M`. -/
structure FullMessageData (M : Type) extends MessageData where
  m : Option M
  hasRecipientCert : Bool
  deriving DecidableEq, Repr

/-- A correct signature scheme with private keys of type `S` and public keys of
type `K`, and the coding of payloads. -/
structure SigningEnv (S K M : Type) where
  publicKey : S → K
  signature : S → Bytes → Bytes
  digestVerify : SSLVerifier K → Bytes → Bytes → ℤ
  serialize : FullMessageData M → Option Bytes
  parse : Bytes → Option (FullMessageData M)
  signature_ne_nil : ∀ key data, signature key data ≠ []
  digestVerify_signature : ∀ key data,
    digestVerify ⟨publicKey key⟩ data (signature key data) = 1
  parse_of_serialize : ∀ data text, serialize data = some text → parse text = some data

structure SignRequest (M : Type) where
  messageData : FullMessageData M
  recipientId : Bytes
  addCert : Bool
  deriving DecidableEq, Repr

variable {S K M : Type}

/-- `EVP_DigestSign`, which fails when the signature exceeds the capacity. -/
def SigningEnv.digestSign (env : SigningEnv S K M) (key : S) (data : Bytes) (capacity : ℕ) :
    Option Bytes :=
  if (env.signature key data).length ≤ capacity then some (env.signature key data) else none

def SigningEnv.authEnv (env : SigningEnv S K M) : AuthEnv (SSLVerifier K) where
  digestVerify := env.digestVerify
  parseMessageData := fun text => (env.parse text).map FullMessageData.toMessageData

/-- `SSLSigner::sign`, which gives its length variable the value zero. -/
def SSLSigner.sign (env : SigningEnv S K M) (signer : SSLSigner S) (data : Bytes) :
    StoreAction K S Bytes := do
  let outLen := 0
  let signature ← TrustStore.sslCall "signer - signing digest"
    (env.digestSign signer.key data outLen)
  Action.require (signature.length = signer.sigLen)
    (.sslError "EVP_DigestSign: returned invalid signature size")
  pure signature

def fillMessageData (env : SigningEnv S K M) (msg : SignedMessage) (data : FullMessageData M)
    (signer : SSLSigner S) : StoreAction K S SignedMessage := do
  let text ← Action.orThrow (.invalidArgument "Serializing MessageData failed")
    (env.serialize data)
  let signature ← signer.sign env text
  pure { msg with data := text, signature := signature }

namespace TrustStore

def has (store : TrustStore K S) (id : Bytes) : Bool :=
  (store.peers.lookup id).isSome

/-- The payload with what `sign_message` fills in. -/
def sendData (store : TrustStore K S) (r : SignRequest M) : FullMessageData M :=
  { r.messageData with
    recipientId := r.recipientId
    hasRecipientCert := store.has r.recipientId }

def signMessage (env : SigningEnv S K M) (r : SignRequest M) : StoreAction K S SignedMessage := do
  let store ← Action.get
  let sendData := store.sendData r
  let msg : SignedMessage :=
    { senderId := store.selfId
      signature := []
      senderCert := if r.addCert then store.selfCert else []
      data := []
      ttl := 4 }
  let signer ← Action.orThrow (.runtimeError "AuthStore: no signing key configured") store.signer
  fillMessageData env msg sendData signer

/-- The call succeeds in the store `a`, and in the store `b` the message
authenticates and carries the payload. -/
def RoundTrip (env : SigningEnv S K M) (a b : TrustStore K S) (r : SignRequest M) : Prop :=
  ∃ msg t, signMessage env r a = .returned msg t ∧
    authenticateSignedMessageData env.authEnv b.messageStore msg =
      some (.ok (a.sendData r).toMessageData) ∧
    env.parse msg.data = some (a.sendData r)

theorem sign_spec (env : SigningEnv S K M) (signer : SSLSigner S) (data : Bytes)
    (s : TrustStore K S) :
    signer.sign env data s = .thrown (.sslError "signer - signing digest") s := by
  have hnone : env.digestSign signer.key data 0 = none := by
    rw [SigningEnv.digestSign, if_neg]
    intro hlen
    exact env.signature_ne_nil signer.key data (List.length_eq_zero_iff.mp (by omega))
  unfold SSLSigner.sign
  simp only [hnone]
  rfl

theorem signMessage_ne_returned (env : SigningEnv S K M) (r : SignRequest M)
    (a t : TrustStore K S) (msg : SignedMessage) : signMessage env r a ≠ .returned msg t := by
  intro h
  obtain ⟨store, u, -, h⟩ := Action.bind_eq_returned.mp h
  obtain ⟨signer, u', -, h⟩ := Action.bind_eq_returned.mp h
  obtain ⟨text, u'', -, h⟩ := Action.bind_eq_returned.mp h
  obtain ⟨signature, u''', hsign, -⟩ := Action.bind_eq_returned.mp h
  rw [sign_spec] at hsign
  exact absurd hsign (by simp)

/-- A sequence of calls round-trips only if it is empty. -/
theorem roundTrip_iff (env : SigningEnv S K M) (a b : TrustStore K S)
    (requests : List (SignRequest M)) :
    (∀ r ∈ requests, RoundTrip env a b r) ↔ requests = [] := by
  constructor
  · intro h
    apply List.eq_nil_iff_forall_not_mem.mpr
    intro r hr
    obtain ⟨msg, t, hmsg, -⟩ := h r hr
    exact signMessage_ne_returned env r a t msg hmsg
  · rintro rfl
    simp

/-- Signatures that repeat the key and the data; payloads that are coded as they are. -/
def sampleSigningEnv : SigningEnv UInt8 UInt8 Empty where
  publicKey key := key
  signature key data := key :: data
  digestVerify verifier data signature := if signature = verifier.pkey :: data then 1 else 0
  serialize data := some ((if data.hasRecipientCert then 1 else 0) :: data.recipientId)
  parse text := text.head?.map fun flag : UInt8 =>
    { recipientId := text.tail, m := none, hasRecipientCert := flag = 1 }
  signature_ne_nil := by simp
  digestVerify_signature := by simp
  parse_of_serialize := by
    rintro ⟨⟨recipientId⟩, m, hasRecipientCert⟩ text h
    obtain rfl := Option.some.inj h
    obtain rfl : m = none := by
      rcases m with - | e
      · rfl
      · exact e.elim
    cases hasRecipientCert <;> rfl

/-- A store with a signer and a store that knows its key, and one message. -/
theorem signing_throws :
    ∃ (a b : TrustStore UInt8 UInt8) (r : SignRequest Empty) (signer : SSLSigner UInt8)
      (info : PeerInfo UInt8),
      a.selfId = [1] ∧ a.signer = some signer ∧ b.peers.lookup [1] = some info ∧
        info.verifier = ⟨sampleSigningEnv.publicKey signer.key⟩ ∧
        signMessage sampleSigningEnv r a = .thrown (.sslError "signer - signing digest") a ∧
        ¬RoundTrip sampleSigningEnv a b r := by
  refine ⟨configured [1] [] (some ⟨7, 3⟩),
    (configured [2] [] none).emplacePeer [1] ⟨[], ⟨7⟩⟩, ⟨⟨⟨[]⟩, none, false⟩, [2], false⟩, ⟨7, 3⟩,
    ⟨[], ⟨7⟩⟩, rfl, rfl, rfl, rfl, rfl, ?_⟩
  rintro ⟨msg, t, hmsg, -⟩
  exact absurd hmsg (by simp [signMessage_ne_returned])

end TrustStore

end Peer

end DistStorage
