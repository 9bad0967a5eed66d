import DistStorage.Peer.Trust

/-!
# Pushing certificates at the same time

`push` looks up the key of the authority under the lock, verifies the certificate with
it outside the lock, and takes the lock again to add the peer. `push_authority` may come
in between: it replaces the entry of the authority, and the key of the old entry is
freed. The calls on one store are threads here, whose steps are the sections under the
lock and the unlocked steps between them.

A key is an object with an address, owned by the entry of its authority and by the
certificate that a call of `push_authority` still holds. A freed key that is read stops
the run.
-/

namespace DistStorage

namespace Peer

open Cpp Transition

namespace TrustStore

variable {X K S : Type}

/-- What `push` reads in a certificate before it asks the store. -/
structure PeerCert (X K : Type) where
  cert : Bytes
  x509 : X
  pubkey : K
  authorityId : Bytes

structure KeyPointer (K : Type) where
  address : ℕ
  key : K
  deriving DecidableEq, Repr

/-- A value, or an exception where there is none. -/
def valueOr {α : Type} (e : Exception) : Option α → Except Exception α
  | some a => .ok a
  | none => .error e

/-- The certificate of a call and its key. -/
def convertCert (env : CertEnv X K) (cert : Bytes) : Except Exception (X × K) :=
  if cert = [] then .error (.sslError "converting 509 to string")
  else do
    let x509 ← valueOr (.sslError "d2i_X509 failed") (env.d2iX509 cert)
    let pubkey ← valueOr (.sslError "getting public key") (env.x509GetPubkey x509)
    pure (x509, pubkey)

/-- The first, unlocked part of `push`. -/
def readPeerCert (env : CertEnv X K) (cert : Bytes) : Except Exception (PeerCert X K) := do
  let (x509, pubkey) ← convertCert env cert
  let authorityKeyId ← valueOr (.runtimeError "peer cert missing authority key identifier")
    (env.authorityKeyIdentifier x509)
  let authorityId ← valueOr
    (.runtimeError "peer cert authority key identifier has empty keyid")
    (authorityKeyId.keyid.filter (· ≠ []))
  pure ⟨cert, x509, pubkey, authorityId⟩

inductive Phase (X K : Type)
  | push (cert : Bytes)
  | pushRead (peer : PeerCert X K)
  | pushFound (peer : PeerCert X K) (authorityPubkey : Option (KeyPointer K))
  | pushVerified (peer : PeerCert X K)
  | pushNamed (peer : PeerCert X K) (id : Bytes)
  | pushAuthority (authorityId cert : Bytes)
  | authorityRead (authorityId cert : Bytes) (pubkey : KeyPointer K)
  | authorityPushed (pubkey : KeyPointer K)
  | finished (e : Option Exception)

/-- The certificate of the call owns the key at an address. -/
def Phase.holds (address : ℕ) : Phase X K → Bool
  | .authorityRead _ _ pubkey | .authorityPushed pubkey => pubkey.address = address
  | _ => false

/-- The store, the addresses of the keys of its authorities, and the calls. -/
structure Threads (X K S : Type) where
  store : TrustStore K S
  keyAddress : Bytes → ℕ
  nextAddress : ℕ
  threads : List (Phase X K)

inductive ThreadEvent
  | call (c : Call)
  | advance (i : ℕ)
  deriving DecidableEq, Repr

def Call.phase : Call → Phase X K
  | .push cert => .push cert
  | .pushAuthority authorityId cert => .pushAuthority authorityId cert

namespace Threads

def start (selfId selfCert : Bytes) (signer : Option (SSLSigner S)) : Threads X K S where
  store := configured selfId selfCert signer
  keyAddress := fun _ => 0
  nextAddress := 0
  threads := []

/-- The addresses of the keys that belong to an entry. -/
def registered (s : Threads X K S) : List ℕ := s.store.rootAuthorities.keys.map s.keyAddress

def live (s : Threads X K S) (address : ℕ) : Bool :=
  address ∈ s.registered || s.threads.any (Phase.holds address)

def become (s : Threads X K S) (i : ℕ) (phase : Phase X K) : Threads X K S :=
  { s with threads := s.threads.set i phase }

def throw (s : Threads X K S) (i : ℕ) (e : Exception) : Threads X K S :=
  s.become i (.finished (some e))

def advance (env : CertEnv X K) (s : Threads X K S) (i : ℕ) :
    Phase X K → Option (Threads X K S)
  | .push cert =>
      match readPeerCert env cert with
      | .error e => some (s.throw i e)
      | .ok peer => some (s.become i (.pushRead peer))
  -- under the lock
  | .pushRead peer =>
      match s.store.rootAuthorities.lookup peer.authorityId with
      | none => some (s.throw i (.runtimeError "unknown authority for peer cert"))
      | some authority =>
          some (s.become i (.pushFound peer
            (authority.pubkey.map fun key => ⟨s.keyAddress peer.authorityId, key⟩)))
  | .pushFound _ none => some (s.throw i (.runtimeError "authority has no cached public key"))
  | .pushFound peer (some pointer) =>
      if !s.live pointer.address then none
      else if env.x509Verify peer.x509 pointer.key = 1 then some (s.become i (.pushVerified peer))
      else some (s.throw i (.runtimeError "peer cert signature verification failed"))
  | .pushVerified peer =>
      match env.peerIdFromPubkey peer.pubkey with
      | .error e => some (s.throw i e)
      | .ok id => some (s.become i (.pushNamed peer id))
  -- under the lock
  | .pushNamed peer id =>
      if env.digestVerifyInit peer.pubkey then
        some { s.become i (.finished none) with
          store := s.store.emplacePeer id ⟨peer.cert, ⟨peer.pubkey⟩⟩ }
      else some (s.throw i (.sslError "verifier - initializing verification context"))
  | .pushAuthority authorityId cert =>
      match convertCert env cert with
      | .error e => some (s.throw i e)
      | .ok (_, pubkey) =>
          some { s.become i (.authorityRead authorityId cert ⟨s.nextAddress, pubkey⟩) with
            nextAddress := s.nextAddress + 1 }
  -- under the lock
  | .authorityRead authorityId cert pubkey =>
      some { s.become i (.authorityPushed pubkey) with
        store := s.store.assignAuthority authorityId ⟨cert, some pubkey.key⟩
        keyAddress := Function.update s.keyAddress authorityId pubkey.address }
  | .authorityPushed _ => some (s.become i (.finished none))
  | .finished _ => none

def step (env : CertEnv X K) (s : Threads X K S) : ThreadEvent → Option (Threads X K S)
  | .call c => some { s with threads := s.threads ++ [c.phase] }
  | .advance i => s.threads[i]?.bind (s.advance env i)

/-- The certificate verifies under the key that is registered for its authority. -/
def VerifiesNow (env : CertEnv X K) (s : Threads X K S) (peer : PeerCert X K) : Prop :=
  ∃ authority key, s.store.rootAuthorities.lookup peer.authorityId = some authority ∧
    authority.pubkey = some key ∧ env.x509Verify peer.x509 key = 1

/-- A key that a certificate is about to be verified with belongs to an entry, and a
peer that is about to be inserted verifies under the key that is registered. -/
def Safe (env : CertEnv X K) (s : Threads X K S) : ThreadEvent → Prop
  | .call _ => True
  | .advance i =>
      match s.threads[i]? with
      | some (.pushFound _ (some pointer)) =>
          pointer.address ∈ s.registered ∧ s.live pointer.address = true
      | some (.pushNamed peer id) =>
          s.store.peers.lookup id = none → env.digestVerifyInit peer.pubkey = true →
            VerifiesNow env s peer
      | _ => True

/-- A call bears that the key of an authority is replaced: it has not read the old key
without verifying with it, and what it has verified verifies under the new key. -/
def Bears (env : CertEnv X K) (authorityId : Bytes) (key : K) : Phase X K → Prop
  | .pushFound peer (some _) => peer.authorityId ≠ authorityId
  | .pushVerified peer | .pushNamed peer _ =>
      peer.authorityId = authorityId → env.x509Verify peer.x509 key = 1
  | _ => True

/-- No key is replaced that a call does not bear the replacement of. -/
def Undisturbed (env : CertEnv X K) (s : Threads X K S) : ThreadEvent → Prop
  | .call _ => True
  | .advance i =>
      match s.threads[i]? with
      | some (.authorityRead authorityId _ pubkey) =>
          ∀ phase ∈ s.threads, Bears env authorityId pubkey.key phase
      | _ => True

/-- What a call knows is still so. -/
def Current (env : CertEnv X K) (s : Threads X K S) : Phase X K → Prop
  | .pushFound peer (some pointer) =>
      ∃ authority, s.store.rootAuthorities.lookup peer.authorityId = some authority ∧
        authority.pubkey = some pointer.key ∧ s.keyAddress peer.authorityId = pointer.address
  | .pushVerified peer | .pushNamed peer _ => VerifiesNow env s peer
  | _ => True

section Decidable

instance [DecidableEq K] (env : CertEnv X K) (authorityId : Bytes) (key : K) :
    (phase : Phase X K) → Decidable (Bears env authorityId key phase)
  | .pushFound peer (some _) => inferInstanceAs (Decidable (peer.authorityId ≠ authorityId))
  | .pushVerified peer =>
      inferInstanceAs
        (Decidable (peer.authorityId = authorityId → env.x509Verify peer.x509 key = 1))
  | .pushNamed peer _ =>
      inferInstanceAs
        (Decidable (peer.authorityId = authorityId → env.x509Verify peer.x509 key = 1))
  | .push _ | .pushRead _ | .pushFound _ none | .pushAuthority _ _ | .authorityRead _ _ _
  | .authorityPushed _ | .finished _ => .isTrue trivial

end Decidable

section Step

variable {env : CertEnv X K} {s t : Threads X K S}

theorem emplacePeer_rootAuthorities (store : TrustStore K S) (id : Bytes) (info : PeerInfo K) :
    (store.emplacePeer id info).rootAuthorities = store.rootAuthorities := by
  unfold emplacePeer
  split_ifs <;> rfl

theorem current_congr (hroot : t.store.rootAuthorities = s.store.rootAuthorities)
    (haddress : t.keyAddress = s.keyAddress) (phase : Phase X K) :
    Current env t phase ↔ Current env s phase := by
  unfold Current VerifiesNow
  rw [hroot, haddress]

/-- What one step can do: it replaces the key of an authority, or leaves the authorities
as they are and goes on to a phase that knows no more than is so. -/
theorem advance_cases {i : ℕ} {phase : Phase X K} (h : s.advance env i phase = some t) :
    (∃ authorityId cert pubkey, phase = .authorityRead authorityId cert pubkey ∧
      t = { s.become i (.authorityPushed pubkey) with
        store := s.store.assignAuthority authorityId ⟨cert, some pubkey.key⟩
        keyAddress := Function.update s.keyAddress authorityId pubkey.address }) ∨
    ∃ phase', t.threads = s.threads.set i phase' ∧
      t.store.rootAuthorities = s.store.rootAuthorities ∧ t.keyAddress = s.keyAddress ∧
      (Current env s phase → Current env s phase') := by
  have hthrow : ∀ e, some (s.throw i e) = some t → ∃ phase', t.threads = s.threads.set i phase' ∧
      t.store.rootAuthorities = s.store.rootAuthorities ∧ t.keyAddress = s.keyAddress ∧
      (Current env s phase → Current env s phase') := by
    rintro e ⟨⟩
    exact ⟨.finished (some e), rfl, rfl, rfl, fun _ => trivial⟩
  cases phase with
  | push cert =>
      rw [advance] at h
      split at h
      · exact .inr (hthrow _ h)
      · cases h
        exact .inr ⟨_, rfl, rfl, rfl, fun _ => trivial⟩
  | pushRead peer =>
      rw [advance] at h
      split at h
      · exact .inr (hthrow _ h)
      · next authority hlookup =>
          cases h
          refine .inr ⟨_, rfl, rfl, rfl, fun _ => ?_⟩
          cases hpubkey : authority.pubkey with
          | none => trivial
          | some key => exact ⟨authority, hlookup, hpubkey, rfl⟩
  | pushFound peer authorityPubkey =>
      cases authorityPubkey with
      | none => exact .inr (hthrow _ h)
      | some pointer =>
          rw [advance] at h
          split_ifs at h with hlive hverify
          · cases h
            refine .inr ⟨_, rfl, rfl, rfl, ?_⟩
            rintro ⟨authority, hlookup, hpubkey, -⟩
            exact ⟨authority, pointer.key, hlookup, hpubkey, hverify⟩
          · exact .inr (hthrow _ h)
  | pushVerified peer =>
      rw [advance] at h
      split at h
      · exact .inr (hthrow _ h)
      · cases h
        exact .inr ⟨_, rfl, rfl, rfl, id⟩
  | pushNamed peer id =>
      rw [advance] at h
      split_ifs at h with hinit
      · cases h
        exact .inr ⟨_, rfl, emplacePeer_rootAuthorities _ _ _, rfl, fun _ => trivial⟩
      · exact .inr (hthrow _ h)
  | pushAuthority authorityId cert =>
      rw [advance] at h
      split at h
      · exact .inr (hthrow _ h)
      · cases h
        exact .inr ⟨_, rfl, rfl, rfl, fun _ => trivial⟩
  | authorityRead authorityId cert pubkey =>
      cases h
      exact .inl ⟨authorityId, cert, pubkey, rfl, rfl⟩
  | authorityPushed pubkey =>
      cases h
      exact .inr ⟨_, rfl, rfl, rfl, fun _ => trivial⟩
  | finished e => cases h

/-- A call that bears the replacement of a key knows what is so after it. -/
theorem current_assign {authorityId cert : Bytes} {pubkey : KeyPointer K} {i : ℕ}
    {phase : Phase X K} (h : Current env s phase)
    (hbears : Bears env authorityId pubkey.key phase) :
    Current env
      { s.become i (.authorityPushed pubkey) with
        store := s.store.assignAuthority authorityId ⟨cert, some pubkey.key⟩
        keyAddress := Function.update s.keyAddress authorityId pubkey.address } phase := by
  have hverifies : ∀ peer : PeerCert X K, VerifiesNow env s peer →
      (peer.authorityId = authorityId → env.x509Verify peer.x509 pubkey.key = 1) →
      VerifiesNow env
        { s.become i (.authorityPushed pubkey) with
          store := s.store.assignAuthority authorityId ⟨cert, some pubkey.key⟩
          keyAddress := Function.update s.keyAddress authorityId pubkey.address } peer := by
    rintro peer ⟨authority, key, hlookup, hkey, hverify⟩ hnew
    by_cases hid : peer.authorityId = authorityId
    · refine ⟨⟨cert, some pubkey.key⟩, pubkey.key, ?_, rfl, hnew hid⟩
      rw [hid]
      exact AList.lookup_insert _
    · exact ⟨authority, key, (AList.lookup_insert_ne hid).trans hlookup, hkey, hverify⟩
  cases phase with
  | pushFound peer authorityPubkey =>
      cases authorityPubkey with
      | none => trivial
      | some pointer =>
          obtain ⟨authority, hlookup, hkey, haddress⟩ := h
          exact ⟨authority, (AList.lookup_insert_ne hbears).trans hlookup, hkey,
            (Function.update_of_ne hbears _ _).trans haddress⟩
  | pushVerified peer => exact hverifies peer h hbears
  | pushNamed peer id => exact hverifies peer h hbears
  | push | pushRead | pushAuthority | authorityRead | authorityPushed | finished => trivial

theorem current_step {e : ThreadEvent} (hs : ∀ phase ∈ s.threads, Current env s phase)
    (hundisturbed : Undisturbed env s e) (hstep : step env s e = some t) :
    ∀ phase ∈ t.threads, Current env t phase := by
  cases e with
  | call c =>
      cases hstep
      intro phase hphase
      rcases List.mem_append.mp hphase with hphase | hphase
      · exact hs phase hphase
      · obtain rfl := List.mem_singleton.mp hphase
        cases c <;> trivial
  | advance i =>
      obtain ⟨phase, hi, hadvance⟩ := Option.bind_eq_some_iff.mp hstep
      have hphase : phase ∈ s.threads := List.mem_of_getElem? hi
      rcases advance_cases hadvance with
        ⟨authorityId, cert, pubkey, rfl, rfl⟩ | ⟨phase', hthreads, hroot, haddress, hcurrent⟩
      · rw [Undisturbed, hi] at hundisturbed
        intro other hother
        rcases List.mem_or_eq_of_mem_set hother with hother | rfl
        · exact current_assign (hs other hother) (hundisturbed other hother)
        · trivial
      · intro other hother
        rw [current_congr hroot haddress]
        rw [hthreads] at hother
        rcases List.mem_or_eq_of_mem_set hother with hother | rfl
        · exact hs other hother
        · exact hcurrent (hs phase hphase)

theorem safe_of_current (hs : ∀ phase ∈ s.threads, Current env s phase) (e : ThreadEvent) :
    Safe env s e := by
  cases e with
  | call c => trivial
  | advance i =>
      unfold Safe
      dsimp only
      split
      · next peer pointer hi =>
          obtain ⟨authority, hlookup, -, haddress⟩ := hs _ (List.mem_of_getElem? hi)
          have hmem : pointer.address ∈ s.registered := by
            rw [← haddress]
            refine List.mem_map_of_mem ?_
            exact AList.lookup_isSome.mp (by rw [hlookup]; rfl)
          exact ⟨hmem, by rw [live, decide_eq_true hmem, Bool.true_or]⟩
      · next peer id hi => exact fun _ _ => hs _ (List.mem_of_getElem? hi)
      · trivial

end Step

/-- In a run in which no key is replaced before its time, every key that a certificate is
verified with belongs to an entry, and every peer that is inserted verifies under the key
registered then. -/
theorem allSteps_safe (env : CertEnv X K) (selfId selfCert : Bytes)
    (signer : Option (SSLSigner S)) {es : List ThreadEvent}
    (h : AllSteps (step env) (Undisturbed env) (start selfId selfCert signer) es) :
    AllSteps (step env) (Safe env) (start selfId selfCert signer) es := by
  refine AllSteps.imp (I := fun s => ∀ phase ∈ s.threads, Current env s phase) ?_ ?_ ?_ h
  · exact fun s e t hs hundisturbed hstep => current_step hs hundisturbed hstep
  · exact fun s e hs _ => safe_of_current hs e
  · exact fun phase hphase => absurd hphase List.not_mem_nil

section Alone

variable {env : CertEnv X K} {s t : Threads X K S} {i : ℕ}

/-- A result as an action that does not touch the store. -/
def ofExcept {α : Type} : Except Exception α → StoreAction K S α
  | .ok a => pure a
  | .error e => Action.throw e

def insertPeer (env : CertEnv X K) (peer : PeerCert X K) (id : Bytes) : StoreAction K S Unit := do
  let verifier ← newVerifier env peer.pubkey
  Action.modify fun store => store.emplacePeer id ⟨peer.cert, verifier⟩

def namePeer (env : CertEnv X K) (peer : PeerCert X K) : StoreAction K S Unit := do
  let id ← peerIdFromPubkey env peer.pubkey
  insertPeer env peer id

def verifyPeer (env : CertEnv X K) (peer : PeerCert X K) (authorityPubkey : Option K) :
    StoreAction K S Unit := do
  let authorityPubkey ← Action.orThrow (.runtimeError "authority has no cached public key")
    authorityPubkey
  Action.require (env.x509Verify peer.x509 authorityPubkey = 1)
    (.runtimeError "peer cert signature verification failed")
  namePeer env peer

def findPeer (env : CertEnv X K) (peer : PeerCert X K) : StoreAction K S Unit := do
  let store ← Action.get
  let authority ← Action.orThrow (.runtimeError "unknown authority for peer cert")
    (store.rootAuthorities.lookup peer.authorityId)
  verifyPeer env peer authority.pubkey

/-- What is left of a call, done without a break. -/
def rest (env : CertEnv X K) : Phase X K → StoreAction K S Unit
  | .push cert => TrustStore.push env cert
  | .pushRead peer => findPeer env peer
  | .pushFound peer authorityPubkey => verifyPeer env peer (authorityPubkey.map KeyPointer.key)
  | .pushVerified peer => namePeer env peer
  | .pushNamed peer id => insertPeer env peer id
  | .pushAuthority authorityId cert => TrustStore.pushAuthority env authorityId cert
  | .authorityRead authorityId cert pubkey =>
      Action.modify fun store => store.assignAuthority authorityId ⟨cert, some pubkey.key⟩
  | .authorityPushed _ => pure ()
  | .finished none => pure ()
  | .finished (some e) => Action.throw e

theorem push_eq (env : CertEnv X K) (cert : Bytes) (store : TrustStore K S) :
    TrustStore.push env cert store =
      (ofExcept (readPeerCert env cert) >>= findPeer env) store := by
  unfold TrustStore.push stringToX509 readPeerCert convertCert
  split_ifs
  · rfl
  cases env.d2iX509 cert with
  | none => rfl
  | some x509 =>
      change (Action.orThrow _ (env.x509GetPubkey x509) >>= _) store =
        (ofExcept ((valueOr _ (env.x509GetPubkey x509) >>= _) >>= _) >>= _) store
      cases env.x509GetPubkey x509 with
      | none => rfl
      | some pubkey =>
          change (Action.orThrow _ (env.authorityKeyIdentifier x509) >>= _) store =
            (ofExcept (valueOr _ (env.authorityKeyIdentifier x509) >>= _) >>= _) store
          cases env.authorityKeyIdentifier x509 with
          | none => rfl
          | some authorityKeyId =>
              change (Action.orThrow _ (authorityKeyId.keyid.filter (· ≠ [])) >>= _) store =
                (ofExcept (valueOr _ (authorityKeyId.keyid.filter (· ≠ [])) >>= _) >>= _) store
              cases authorityKeyId.keyid.filter (· ≠ []) with
              | none => rfl
              | some authorityId => rfl

theorem pushAuthority_eq (env : CertEnv X K) (authorityId cert : Bytes) (store : TrustStore K S) :
    TrustStore.pushAuthority env authorityId cert store =
      (ofExcept (convertCert env cert) >>= fun read =>
        Action.modify fun store =>
          store.assignAuthority authorityId ⟨cert, some read.2⟩) store := by
  unfold TrustStore.pushAuthority stringToX509 convertCert
  split_ifs
  · rfl
  cases env.d2iX509 cert with
  | none => rfl
  | some x509 =>
      change (Action.orThrow _ (env.x509GetPubkey x509) >>= _) store =
        (ofExcept (valueOr _ (env.x509GetPubkey x509) >>= _) >>= _) store
      cases env.x509GetPubkey x509 <;> rfl

theorem rest_advance {phase : Phase X K} (h : s.advance env i phase = some t) :
    ∃ phase', t.threads = s.threads.set i phase' ∧
      rest env phase s.store = rest env phase' t.store := by
  have hthrow : ∀ e, some (s.throw i e) = some t →
      rest env phase s.store = .thrown e s.store →
      ∃ phase', t.threads = s.threads.set i phase' ∧
        rest env phase s.store = rest env phase' t.store := by
    rintro e ⟨⟩ hrest
    exact ⟨.finished (some e), rfl, hrest⟩
  cases phase with
  | push cert =>
      rw [advance] at h
      have hpush := push_eq env cert s.store
      split at h
      · next e hread =>
          rw [hread] at hpush
          exact hthrow e h hpush
      · next peer hread =>
          cases h
          rw [hread] at hpush
          exact ⟨.pushRead peer, rfl, hpush⟩
  | pushRead peer =>
      rw [advance] at h
      have hfind : rest env (.pushRead peer) s.store =
          (Action.orThrow (.runtimeError "unknown authority for peer cert")
            (s.store.rootAuthorities.lookup peer.authorityId) >>= fun authority =>
              verifyPeer env peer authority.pubkey) s.store := rfl
      split at h
      · next hlookup =>
          rw [hlookup] at hfind
          exact hthrow _ h hfind
      · next authority hlookup =>
          cases h
          rw [hlookup] at hfind
          refine ⟨_, rfl, hfind.trans ?_⟩
          change verifyPeer env peer authority.pubkey s.store =
            verifyPeer env peer ((authority.pubkey.map _).map KeyPointer.key) s.store
          rw [Option.map_map]
          simp only [Function.comp_def, Option.map_id']
  | pushFound peer authorityPubkey =>
      cases authorityPubkey with
      | none => exact hthrow _ h rfl
      | some pointer =>
          rw [advance] at h
          have hverify : rest env (.pushFound peer (some pointer)) s.store =
              (Action.require (env.x509Verify peer.x509 pointer.key = 1)
                (.runtimeError "peer cert signature verification failed") >>= fun _ =>
                  namePeer env peer) s.store := rfl
          rw [Action.require] at hverify
          split_ifs at h hverify
          · cases h
            exact ⟨.pushVerified peer, rfl, hverify⟩
          · exact hthrow _ h hverify
  | pushVerified peer =>
      rw [advance] at h
      have hname : rest env (.pushVerified peer) s.store =
          (peerIdFromPubkey env peer.pubkey >>= insertPeer env peer) s.store := rfl
      rw [peerIdFromPubkey] at hname
      split at h
      · next e hid =>
          rw [hid] at hname
          exact hthrow e h hname
      · next id hid =>
          cases h
          rw [hid] at hname
          exact ⟨.pushNamed peer id, rfl, hname⟩
  | pushNamed peer id =>
      rw [advance] at h
      have hinsert : rest env (.pushNamed peer id) s.store =
          ((Action.require (env.digestVerifyInit peer.pubkey)
              (.sslError "verifier - initializing verification context") >>= fun _ =>
                pure (SSLVerifier.mk peer.pubkey)) >>= fun verifier =>
              Action.modify fun store => store.emplacePeer id ⟨peer.cert, verifier⟩)
                s.store := rfl
      rw [Action.require] at hinsert
      split_ifs at h hinsert
      · cases h
        exact ⟨.finished none, rfl, hinsert⟩
      · exact hthrow _ h hinsert
  | pushAuthority authorityId cert =>
      rw [advance] at h
      have hpush := pushAuthority_eq env authorityId cert s.store
      split at h
      · next e hread =>
          rw [hread] at hpush
          exact hthrow e h hpush
      · next x509 pubkey hread =>
          cases h
          rw [hread] at hpush
          exact ⟨_, rfl, hpush⟩
  | authorityRead authorityId cert pubkey =>
      cases h
      exact ⟨.authorityPushed pubkey, rfl, rfl⟩
  | authorityPushed pubkey =>
      cases h
      exact ⟨.finished none, rfl, rfl⟩
  | finished e => cases h

theorem rest_run {n : ℕ} {phase : Phase X K} (hphase : s.threads[i]? = some phase)
    (hrun : run (step env) s (List.replicate n (.advance i)) = some t) :
    ∃ phase', t.threads[i]? = some phase' ∧
      rest env phase s.store = rest env phase' t.store := by
  induction n generalizing s phase with
  | zero =>
      obtain rfl : s = t := Option.some.inj hrun
      exact ⟨phase, hphase, rfl⟩
  | succ n ih =>
      obtain ⟨u, hstep, hrest⟩ := run_cons_eq_some.mp hrun
      obtain ⟨phase', hphase', hadvance⟩ := Option.bind_eq_some_iff.mp hstep
      obtain rfl := Option.some.inj (hphase.symm.trans hphase')
      obtain ⟨next, hthreads, heq⟩ := rest_advance hadvance
      have hlt : i < s.threads.length := (List.getElem?_eq_some_iff.mp hphase).1
      have hnext : u.threads[i]? = some next := by
        rw [hthreads]
        exact List.getElem?_set_self hlt
      obtain ⟨last, hlast, heq'⟩ := ih hnext hrest
      exact ⟨last, hlast, heq.trans heq'⟩

theorem action_of_run_alone {n : ℕ} {c : Call} {e : Option Exception}
    (hrun : run (step env) s (.call c :: List.replicate n (.advance s.threads.length)) = some t)
    (he : t.threads[s.threads.length]? = some (.finished e)) :
    c.action env s.store = match e with
      | none => .returned () t.store
      | some e => .thrown e t.store := by
  obtain ⟨u, hstep, hrest⟩ := run_cons_eq_some.mp hrun
  cases hstep
  have hphase : (s.threads ++ [(c.phase : Phase X K)])[s.threads.length]? = some c.phase := by simp
  obtain ⟨phase', hphase', heq⟩ := rest_run hphase hrest
  obtain rfl := Option.some.inj (hphase'.symm.trans he)
  have hcall : rest env (c.phase : Phase X K) s.store = c.action env s.store := by
    cases c <;> rfl
  rw [← hcall]
  refine heq.trans ?_
  cases e <;> rfl

end Alone

section Sample

instance {X : Type} (env : CertEnv X UInt8) (s : Threads X UInt8 S) (e : ThreadEvent) :
    Decidable (Undisturbed env s e) := by
  unfold Undisturbed
  split
  · infer_instance
  · split <;> infer_instance

/-- An authority, a peer that it vouches for, and another key for the authority. -/
def sampleThreads : List ThreadEvent :=
  [.call (.pushAuthority [9] [9]), .advance 0, .advance 0, .advance 0, .call (.push [5, 9]),
    .advance 1, .advance 1, .call (.pushAuthority [9] [7]), .advance 2]

theorem allSteps_safe_sample :
    AllSteps (step sampleCertEnv) (Safe sampleCertEnv)
      (start [] [] none : Threads Bytes UInt8 Unit)
      (sampleThreads ++ [.advance 1, .advance 1, .advance 1, .advance 2]) :=
  allSteps_safe sampleCertEnv [] [] none (by decide)

/-- The key that `push` has read is freed before it verifies with it. In the other order
the peer is inserted under a key that is not registered any more. -/
theorem key_replaced :
    (∃ s : Threads Bytes UInt8 Unit,
      run (step sampleCertEnv) (start [] [] none) (sampleThreads ++ [.advance 2, .advance 2]) =
          some s ∧
        s.registered = [1] ∧ s.live 0 = false ∧ step sampleCertEnv s (.advance 1) = none) ∧
      (∃ s : Threads Bytes UInt8 Unit,
        run (step sampleCertEnv) (start [] [] none)
            (sampleThreads ++ [.advance 1, .advance 1, .advance 2, .advance 1]) = some s ∧
          (s.store.peers.lookup [5, 5]).map PeerInfo.cert = some [5, 9] ∧
          (s.store.rootAuthorities.lookup [9]).bind AuthorityInfo.pubkey = some 7 ∧
          sampleCertEnv.x509Verify [5, 9] 7 = 0) ∧
      ¬AllSteps (step sampleCertEnv) (Safe sampleCertEnv)
        (start [] [] none : Threads Bytes UInt8 Unit)
        (sampleThreads ++ [.advance 2, .advance 1]) := by
  refine ⟨⟨_, rfl, rfl, rfl, rfl⟩, ⟨_, rfl, rfl, rfl, rfl⟩, fun h => ?_⟩
  have hlast := (allSteps_append.mp h).2 _ rfl
  have hsafe := (hlast.2 _ rfl).1
  exact absurd hsafe.1 (by decide)

end Sample

end Threads

end TrustStore

end Peer

end DistStorage
