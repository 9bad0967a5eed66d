import DistStorage.Cpp.Action
import DistStorage.Peer.Store
import DistStorage.Transition.Run

/-!
# The certificates of peers and authorities

`AuthStore` takes certificates in two ways: `push_authority` registers the key
of an authority under a given name, and `push` adds a peer whose certificate an
authority signed. What OpenSSL does with a certificate is outside the
repository; `CertEnv` gives its functions over certificates of type `X` and
keys of type `K`.

Each call is an action on the store and ends in a return or an exception. The
time stamps of the entries are left out, because nothing reads them.
-/

namespace DistStorage

namespace Peer

open Cpp Transition

structure SSLVerifier (K : Type) where
  pkey : K
  deriving DecidableEq, Repr

/-- `SSLSigner`, with the size that it asked for when it was made. -/
structure SSLSigner (S : Type) where
  key : S
  sigLen : ℕ
  deriving DecidableEq, Repr

structure PeerInfo (K : Type) where
  cert : Bytes
  verifier : SSLVerifier K
  deriving DecidableEq, Repr

structure AuthorityInfo (K : Type) where
  cert : Bytes
  pubkey : Option K
  deriving DecidableEq, Repr

structure TrustStore (K S : Type) where
  selfId : Bytes
  selfCert : Bytes
  signer : Option (SSLSigner S)
  rootAuthorities : AList fun _ : Bytes => AuthorityInfo K
  peers : AList fun _ : Bytes => PeerInfo K

inductive Exception
  | sslError (descr : String)
  | runtimeError (what : String)
  | invalidArgument (what : String)
  deriving DecidableEq, Repr

/-- The extension `AUTHORITY_KEYID`, whose key identifier is optional. -/
structure AuthorityKeyId where
  keyid : Option Bytes
  deriving DecidableEq, Repr

/-- OpenSSL's functions on certificates and keys. -/
structure CertEnv (X K : Type) where
  d2iX509 : Bytes → Option X
  x509GetPubkey : X → Option K
  authorityKeyIdentifier : X → Option AuthorityKeyId
  x509Verify : X → K → ℤ
  peerIdFromPubkey : K → Except Exception Bytes
  digestVerifyInit : K → Bool

/-- The certificate that a byte string holds. -/
def CertEnv.certificate {X K : Type} (env : CertEnv X K) (der : Bytes) : Option X :=
  if der = [] then none else env.d2iX509 der

abbrev StoreAction (K S α : Type) := Action Exception (TrustStore K S) α

namespace TrustStore

variable {X K S : Type}

/-- The store that was configured, before any certificate was pushed. -/
def configured (selfId selfCert : Bytes) (signer : Option (SSLSigner S)) : TrustStore K S where
  selfId := selfId
  selfCert := selfCert
  signer := signer
  rootAuthorities := ∅
  peers := ∅

def messageStore (store : TrustStore K S) : AuthStore (SSLVerifier K) where
  selfId := store.selfId
  peers :=
    { entries := store.peers.entries.map (.map id fun _ info => info.verifier)
      nodupKeys := by
        rw [List.NodupKeys, List.keys, List.map_map]
        exact store.peers.nodupKeys }

theorem lookup_messageStore (store : TrustStore K S) (id : Bytes) :
    store.messageStore.peers.lookup id = (store.peers.lookup id).map PeerInfo.verifier :=
  List.dlookup_map₂ id

def sslCall {α : Type} (descr : String) : Option α → StoreAction K S α :=
  Action.orThrow (.sslError descr)

/-- `string_to_x509`: a null pointer for the empty string. -/
def stringToX509 (env : CertEnv X K) (der : Bytes) : StoreAction K S (Option X) :=
  if der = [] then pure none
  else do
    let cert ← Action.orThrow (.sslError "d2i_X509 failed") (env.d2iX509 der)
    pure (some cert)

/-- `SSLVerifier::SSLVerifier` with the hash `sha512`. -/
def newVerifier (env : CertEnv X K) (pkey : K) : StoreAction K S (SSLVerifier K) := do
  Action.require (env.digestVerifyInit pkey)
    (.sslError "verifier - initializing verification context")
  pure ⟨pkey⟩

/-- `peer_id_from_pubkey` into a string of its size. -/
def peerIdFromPubkey (env : CertEnv X K) (pubkey : K) : StoreAction K S Bytes :=
  match env.peerIdFromPubkey pubkey with
  | .ok id => pure id
  | .error e => Action.throw e

/-- `root_authorities.insert_or_assign`. -/
def assignAuthority (store : TrustStore K S) (authorityId : Bytes) (info : AuthorityInfo K) :
    TrustStore K S :=
  { store with rootAuthorities := store.rootAuthorities.insert authorityId info }

/-- `peers.emplace`, which keeps the entry that is there. -/
def emplacePeer (store : TrustStore K S) (id : Bytes) (info : PeerInfo K) : TrustStore K S :=
  if (store.peers.lookup id).isSome then store
  else { store with peers := store.peers.insert id info }

def pushAuthority (env : CertEnv X K) (authorityId cert : Bytes) : StoreAction K S Unit := do
  let pointer ← stringToX509 env cert
  let x509 ← sslCall "converting 509 to string" pointer
  let pubkey ← sslCall "getting public key" (env.x509GetPubkey x509)
  Action.modify fun store => store.assignAuthority authorityId ⟨cert, some pubkey⟩

def push (env : CertEnv X K) (cert : Bytes) : StoreAction K S Unit := do
  let pointer ← stringToX509 env cert
  let x509 ← sslCall "converting 509 to string" pointer
  let pubkey ← sslCall "getting public key" (env.x509GetPubkey x509)
  let authorityKeyId ← Action.orThrow
    (.runtimeError "peer cert missing authority key identifier") (env.authorityKeyIdentifier x509)
  let authorityId ← Action.orThrow
    (.runtimeError "peer cert authority key identifier has empty keyid")
    (authorityKeyId.keyid.filter (· ≠ []))
  let store ← Action.get
  let authority ← Action.orThrow (.runtimeError "unknown authority for peer cert")
    (store.rootAuthorities.lookup authorityId)
  let authorityPubkey ← Action.orThrow (.runtimeError "authority has no cached public key")
    authority.pubkey
  Action.require (env.x509Verify x509 authorityPubkey = 1)
    (.runtimeError "peer cert signature verification failed")
  let id ← peerIdFromPubkey env pubkey
  let verifier ← newVerifier env pubkey
  Action.modify fun store => store.emplacePeer id ⟨cert, verifier⟩

/-- A call that brings a certificate. -/
inductive Call
  | push (cert : Bytes)
  | pushAuthority (authorityId cert : Bytes)
  deriving DecidableEq, Repr

def Call.action (env : CertEnv X K) : Call → StoreAction K S Unit
  | .push cert => TrustStore.push env cert
  | .pushAuthority authorityId cert => TrustStore.pushAuthority env authorityId cert

def step (env : CertEnv X K) (store : TrustStore K S) (call : Call) : Option (TrustStore K S) :=
  match call.action env store with
  | .returned _ store => some store
  | .thrown _ store => some store
  | .undefined => none

/-- An authority of the store vouches for the certificate, and `info` is the
entry of its peer under `id`. -/
def Vouched (env : CertEnv X K) (store : TrustStore K S) (cert id : Bytes) (info : PeerInfo K) :
    Prop :=
  ∃ x509 pubkey, env.certificate cert = some x509 ∧ env.x509GetPubkey x509 = some pubkey ∧
    env.peerIdFromPubkey pubkey = .ok id ∧ info = ⟨cert, ⟨pubkey⟩⟩ ∧
    ∃ authorityKeyId authorityId authority authorityPubkey,
      env.authorityKeyIdentifier x509 = some authorityKeyId ∧
      authorityKeyId.keyid = some authorityId ∧
      store.rootAuthorities.lookup authorityId = some authority ∧
      authority.pubkey = some authorityPubkey ∧ env.x509Verify x509 authorityPubkey = 1

theorem stringToX509_bind {α : Type} {env : CertEnv X K} {der : Bytes} {s : TrustStore K S}
    {descr : String} {f : X → StoreAction K S α} {Q : α → TrustStore K S → Prop}
    (h : ∀ x509, env.certificate der = some x509 →
      Action.Triple (· = s) (f x509) Q (fun _ t => t = s)) :
    Action.Triple (· = s) (stringToX509 env der >>= fun pointer => sslCall descr pointer >>= f) Q
      (fun _ t => t = s) := by
  apply Action.Triple.bind (Q := fun pointer t => t = s ∧ pointer = env.certificate der)
  · unfold stringToX509 CertEnv.certificate
    split_ifs with hempty
    · exact Action.Triple.pure none fun t ht => ⟨ht, rfl⟩
    · refine Action.Triple.orThrow_bind (fun t ht => ?_) (fun x509 hx509 => ?_)
      · exact ht
      · exact Action.Triple.pure (some x509) fun t ht => ⟨ht, hx509.symm⟩
  · rintro pointer t ⟨rfl, rfl⟩
    refine Action.Triple.orThrow_bind (P := (· = t)) (fun t ht => ?_) (fun x509 hx509 => ?_) t rfl
    · exact ht
    · exact h x509 hx509

theorem peerIdFromPubkey_spec (env : CertEnv X K) (pubkey : K) (s : TrustStore K S) :
    Action.Triple (· = s) (peerIdFromPubkey env pubkey)
      (fun id t => t = s ∧ env.peerIdFromPubkey pubkey = .ok id) (fun _ t => t = s) := by
  unfold peerIdFromPubkey
  cases env.peerIdFromPubkey pubkey with
  | error e => exact Action.Triple.throw e fun t ht => ht
  | ok id => exact Action.Triple.pure id fun t ht => ⟨ht, rfl⟩

theorem newVerifier_spec (env : CertEnv X K) (pkey : K) (s : TrustStore K S) :
    Action.Triple (· = s) (newVerifier env pkey)
      (fun verifier t => t = s ∧ verifier = ⟨pkey⟩) (fun _ t => t = s) := by
  refine Action.Triple.require_bind (fun t ht => ?_) (fun _ => ?_)
  · exact ht
  exact Action.Triple.pure _ fun t ht => ⟨ht, rfl⟩

/-- What `push_authority` does: it registers the key of the certificate, or
throws and leaves the store as it was. -/
theorem pushAuthority_spec (env : CertEnv X K) (authorityId cert : Bytes)
    (s : TrustStore K S) :
    Action.Triple (· = s) (pushAuthority env authorityId cert)
      (fun _ t => ∃ x509 pubkey, env.certificate cert = some x509 ∧
        env.x509GetPubkey x509 = some pubkey ∧
        t = s.assignAuthority authorityId ⟨cert, some pubkey⟩)
      (fun _ t => t = s) := by
  apply stringToX509_bind
  intro x509 hx509
  refine Action.Triple.orThrow_bind (fun t ht => ?_) (fun pubkey hpubkey => ?_)
  · exact ht
  · apply Action.Triple.modify
    rintro t rfl
    exact ⟨x509, pubkey, hx509, hpubkey, rfl⟩

/-- What `push` does: it adds a peer that an authority vouches for, or throws
and leaves the store as it was. -/
theorem push_spec (env : CertEnv X K) (cert : Bytes) (s : TrustStore K S) :
    Action.Triple (· = s) (push env cert)
      (fun _ t => ∃ id info, Vouched env s cert id info ∧ t = s.emplacePeer id info)
      (fun _ t => t = s) := by
  apply stringToX509_bind
  intro x509 hx509
  refine Action.Triple.orThrow_bind (fun t ht => ?_) (fun pubkey hpubkey => ?_)
  · exact ht
  refine Action.Triple.orThrow_bind (fun t ht => ?_) (fun authorityKeyId hkeyId => ?_)
  · exact ht
  refine Action.Triple.orThrow_bind (fun t ht => ?_) (fun authorityId hauthorityId => ?_)
  · exact ht
  apply Action.Triple.get_bind
  rintro s rfl
  refine Action.Triple.orThrow_bind (fun t ht => ?_) (fun authority hauthority => ?_)
  · exact ht
  refine Action.Triple.orThrow_bind (fun t ht => ?_) (fun authorityPubkey hauthorityPubkey => ?_)
  · exact ht
  refine Action.Triple.require_bind (fun t ht => ?_) (fun hverify => ?_)
  · exact ht
  refine (peerIdFromPubkey_spec env pubkey _).bind fun id => ?_
  rintro t ⟨rfl, hid⟩
  refine ((newVerifier_spec env pubkey t).bind fun verifier => ?_) t rfl
  rintro t ⟨rfl, rfl⟩
  refine ⟨id, ⟨cert, ⟨pubkey⟩⟩, ?_, rfl⟩
  exact ⟨x509, pubkey, hx509, hpubkey, hid, rfl, authorityKeyId, authorityId, authority,
    authorityPubkey, hkeyId, (Option.filter_eq_some_iff.mp hauthorityId).1, hauthority,
    hauthorityPubkey, hverify⟩

theorem eq_of_thrown {env : CertEnv X K} {call : Call} {s t : TrustStore K S} {e : Exception}
    (h : call.action env s = .thrown e t) : t = s := by
  cases call with
  | push cert => exact (push_spec env cert s).thrown rfl h
  | pushAuthority authorityId cert =>
      exact (pushAuthority_spec env authorityId cert s).thrown rfl h

theorem step_cases {env : CertEnv X K} {s t : TrustStore K S} {call : Call}
    (h : step env s call = some t) :
    t = s ∨
      (∃ cert id info, call = .push cert ∧ Vouched env s cert id info ∧
        t = s.emplacePeer id info) ∨
      ∃ authorityId info, t = s.assignAuthority authorityId info := by
  unfold step at h
  split at h
  · rename_i u hu
    obtain rfl := Option.some.inj h
    cases call with
    | push cert =>
        obtain ⟨id, info, hvouched, rfl⟩ := (push_spec env cert s).returned rfl hu
        exact .inr (.inl ⟨cert, id, info, rfl, hvouched, rfl⟩)
    | pushAuthority authorityId cert =>
        obtain ⟨x509, pubkey, -, -, rfl⟩ :=
          (pushAuthority_spec env authorityId cert s).returned rfl hu
        exact .inr (.inr ⟨authorityId, ⟨cert, some pubkey⟩, rfl⟩)
  · rename_i u hu
    obtain rfl := Option.some.inj h
    exact .inl (eq_of_thrown hu)
  · exact absurd h (by simp)

/-- An entry of the store after `emplace` was there, or is the new one. -/
theorem lookup_emplacePeer {s : TrustStore K S} {id id' : Bytes} {info info' : PeerInfo K}
    (h : (s.emplacePeer id info).peers.lookup id' = some info') :
    s.peers.lookup id' = some info' ∨ id' = id ∧ info' = info := by
  unfold emplacePeer at h
  split_ifs at h
  · exact .inl h
  · by_cases hid : id' = id
    · subst hid
      rw [AList.lookup_insert] at h
      exact .inr ⟨rfl, (Option.some.inj h).symm⟩
    · rw [AList.lookup_insert_ne hid] at h
      exact .inl h

theorem lookup_emplacePeer_of_lookup {s : TrustStore K S} {id id' : Bytes}
    {info info' : PeerInfo K} (h : s.peers.lookup id' = some info') :
    (s.emplacePeer id info).peers.lookup id' = some info' := by
  unfold emplacePeer
  split_ifs with hthere
  · exact h
  · have hid : id' ≠ id := by
      rintro rfl
      rw [h] at hthere
      exact hthere rfl
    rw [AList.lookup_insert_ne hid]
    exact h

theorem lookup_step {env : CertEnv X K} {s t : TrustStore K S} {call : Call} {id : Bytes}
    {info : PeerInfo K} (h : step env s call = some t) (hlookup : s.peers.lookup id = some info) :
    t.peers.lookup id = some info := by
  rcases step_cases h with rfl | ⟨cert, id', info', -, -, rfl⟩ | ⟨authorityId, info', rfl⟩
  · exact hlookup
  · exact lookup_emplacePeer_of_lookup hlookup
  · exact hlookup

theorem verifies_run {env : CertEnv X K} {authEnv : AuthEnv (SSLVerifier K)}
    {s t : TrustStore K S} {calls : List Call} {msg : Proto.SignedMessage}
    (hrun : run (step env) s calls = some t)
    (h : s.messageStore.validateMessage authEnv msg = some true) :
    t.messageStore.validateMessage authEnv msg = some true := by
  obtain ⟨verifier, hverifier, haccepts⟩ := AuthStore.validateMessage_eq_true.mp h
  rw [lookup_messageStore] at hverifier
  obtain ⟨info, hinfo, rfl⟩ := Option.map_eq_some_iff.mp hverifier
  have hkept : t.peers.lookup msg.senderId = some info :=
    run_invariant (I := fun u : TrustStore K S => u.peers.lookup msg.senderId = some info)
      (fun _ _ _ hu hstep => lookup_step hstep hu) hinfo hrun
  apply AuthStore.validateMessage_eq_true.mpr
  refine ⟨info.verifier, ?_, haccepts⟩
  rw [lookup_messageStore, hkept]
  rfl

/-- Every entry was vouched for when it was pushed: by the authority registered
then under the name in its certificate. -/
def Grounded (env : CertEnv X K) (s₀ : TrustStore K S) (calls : List Call)
    (s : TrustStore K S) : Prop :=
  ∀ id info, s.peers.lookup id = some info →
    ∃ pre post t, calls = pre ++ .push info.cert :: post ∧ run (step env) s₀ pre = some t ∧
      Vouched env t info.cert id info

theorem grounded_run {env : CertEnv X K} {s₀ s : TrustStore K S} {calls : List Call}
    (hempty : ∀ id, s₀.peers.lookup id = none) (hrun : run (step env) s₀ calls = some s) :
    Grounded env s₀ calls s := by
  induction calls using List.reverseRecOn generalizing s with
  | nil =>
      obtain rfl : s₀ = s := Option.some.inj hrun
      intro id info hinfo
      rw [hempty id] at hinfo
      exact absurd hinfo (by simp)
  | append_singleton calls call ih =>
      rw [run_append, Option.bind_eq_some_iff] at hrun
      obtain ⟨t, ht, hlast⟩ := hrun
      obtain ⟨u, hstep, hu⟩ := run_cons_eq_some.mp hlast
      obtain rfl : u = s := Option.some.inj hu
      have hold : ∀ id info, t.peers.lookup id = some info →
          ∃ pre post t', calls ++ [call] = pre ++ .push info.cert :: post ∧
            run (step env) s₀ pre = some t' ∧ Vouched env t' info.cert id info := by
        intro id info hinfo
        obtain ⟨pre, post, t', rfl, hpre, hvouched⟩ := ih ht id info hinfo
        exact ⟨pre, post ++ [call], t', by simp, hpre, hvouched⟩
      intro id info hinfo
      rcases step_cases hstep with rfl | ⟨cert, id', info', rfl, hvouched, rfl⟩ | ⟨_, _, rfl⟩
      · exact hold id info hinfo
      · rcases lookup_emplacePeer hinfo with hinfo | ⟨rfl, rfl⟩
        · exact hold id info hinfo
        · have hcert : info.cert = cert := by
            obtain ⟨_, _, _, _, _, rfl, _⟩ := hvouched
            rfl
          exact ⟨calls, [], t, by rw [hcert], ht, by rw [hcert]; exact hvouched⟩
      · exact hold id info hinfo

/-- After any calls from a store without certificates every peer was vouched for
when it was pushed, a call that throws changes nothing, and a message that
validates keeps validating. -/
theorem trust_invariant (env : CertEnv X K) (authEnv : AuthEnv (SSLVerifier K))
    (selfId selfCert : Bytes) (signer : Option (SSLSigner S)) {calls : List Call}
    {s : TrustStore K S}
    (hrun : run (step env) (configured selfId selfCert signer) calls = some s) :
    Grounded env (configured selfId selfCert signer) calls s ∧
      (∀ (call : Call) (e : Exception) (t : TrustStore K S), call.action env s = .thrown e t →
        t.rootAuthorities = s.rootAuthorities ∧ t.peers = s.peers) ∧
      ∀ (more : List Call) (t : TrustStore K S) (msg : Proto.SignedMessage),
        run (step env) s more = some t →
          s.messageStore.validateMessage authEnv msg = some true →
            t.messageStore.validateMessage authEnv msg = some true := by
  refine ⟨grounded_run (fun _ => rfl) hrun, ?_, ?_⟩
  · intro call e t ht
    rw [eq_of_thrown ht]
    exact ⟨rfl, rfl⟩
  · intro more t msg hmore h
    exact verifies_run hmore h

/-- Certificates of one byte for the key, followed by the name of the authority. -/
def sampleCertEnv : CertEnv Bytes UInt8 where
  d2iX509 := some
  x509GetPubkey := List.head?
  authorityKeyIdentifier x509 := some ⟨some x509.tail⟩
  x509Verify x509 pubkey := if x509.tail = [pubkey] then 1 else 0
  peerIdFromPubkey pubkey := .ok [pubkey, pubkey]
  digestVerifyInit _ := true

def sampleAuthEnv : AuthEnv (SSLVerifier UInt8) where
  digestVerify verifier data signature := if signature = verifier.pkey :: data then 1 else 0
  parseMessageData data := some ⟨data⟩

theorem trust_invariant_sample :
    ∃ s : TrustStore UInt8 Unit, run (step sampleCertEnv) (configured [] [] none)
        [.pushAuthority [9] [9], .push [5, 9], .push [6, 7]] = some s ∧
      s.peers.lookup [5, 5] = some ⟨[5, 9], ⟨5⟩⟩ ∧
      Grounded sampleCertEnv (configured [] [] none)
        [.pushAuthority [9] [9], .push [5, 9], .push [6, 7]] s :=
  ⟨_, rfl, rfl, (trust_invariant sampleCertEnv sampleAuthEnv [] [] none rfl).1⟩

end TrustStore

end Peer

end DistStorage
