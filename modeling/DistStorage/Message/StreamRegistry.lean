import DistStorage.Message.StreamOrder

/-!
# The router's map of peers

An entry of `by_peer_` is meant to be the stream on which its peer has
authenticated last, for as long as that stream is open. A session knows only the
last of the peers it has registered and unregisters by that key alone, so closing
it may erase the entry of another session or leave entries of its own behind. The
map is right in the runs in which a session that closes has exactly the one entry
that it knows of, and in which no closed session takes a message.
-/

namespace DistStorage

namespace Message

open Proto Peer Transition

/-- A message of the peer has authenticated. -/
def Note.isAdmissionOf (peerId : Bytes) : Note → Bool
  | .authenticated msg true => msg.senderId = peerId
  | _ => false

/-- The session on which a message of the peer has authenticated most recently. -/
def lastAuthenticated (log : List (ℕ × Note)) (peerId : Bytes) : Option ℕ :=
  (log.filter fun entry => entry.2.isAdmissionOf peerId).getLast?.map Prod.fst

/-- The session has been opened and closed again. -/
def Session.closed (y : Session) : Prop :=
  y.streamConnectPhase = .streaming ∧ y.sessionActive = false

theorem lastAuthenticated_append {log es : List (ℕ × Note)} {peerId : Bytes}
    (h : ∀ e ∈ es, e.2.isAdmissionOf peerId = false) :
    lastAuthenticated (log ++ es) peerId = lastAuthenticated log peerId := by
  have hnone : es.filter (fun entry => entry.2.isAdmissionOf peerId) = [] := by
    rw [List.filter_eq_nil_iff]
    intro e he
    simp [h e he]
  unfold lastAuthenticated
  rw [List.filter_append, hnone, List.append_nil]

theorem lastAuthenticated_concat (log : List (ℕ × Note)) (x : ℕ) (msg : SignedMessage)
    (peerId : Bytes) :
    lastAuthenticated (log ++ [(x, .authenticated msg true)]) peerId =
      if msg.senderId = peerId then some x else lastAuthenticated log peerId := by
  unfold lastAuthenticated
  rw [List.filter_append]
  by_cases h : msg.senderId = peerId <;> simp [Note.isAdmissionOf, h]

/-- Notes other than of an authenticated message. -/
def Note.isAdmission : Note → Bool
  | .authenticated _ true => true
  | _ => false

theorem isAdmissionOf_eq_false {n : Note} (h : n.isAdmission = false) (peerId : Bytes) :
    n.isAdmissionOf peerId = false := by
  cases n with
  | authenticated msg valid => cases valid <;> simp_all [Note.isAdmission, Note.isAdmissionOf]
  | _ => rfl

theorem isAdmission_of_isSending {n : Note} (h : n.isSending = true) :
    n.isAdmission = false := by
  cases n <;> simp_all [Note.isSending, Note.isAdmission]

theorem isAdmission_enqueueOutgoing {y : Session} {msg : SignedMessage} {n : Note}
    (hn : n ∈ (y.enqueueOutgoing msg).2) : n.isAdmission = false := by
  rcases enqueueOutgoing_notes hn with rfl | hsending
  · rfl
  · exact isAdmission_of_isSending hsending

/-- A change of a session that is none to the router. -/
structure SameStanding (y y' : Session) : Prop where
  active : y'.sessionActive = y.sessionActive
  registered : y'.registeredPeerId = y.registeredPeerId
  phase : y.streamConnectPhase = .streaming → y'.streamConnectPhase = .streaming

theorem sameStanding_enqueueOutgoing (y : Session) (msg : SignedMessage) :
    SameStanding y (y.enqueueOutgoing msg).1 := by
  cases hwp : y.writePending with
  | true => rw [enqueueOutgoing_of_pending hwp]; exact ⟨rfl, rfl, id⟩
  | false => rw [enqueueOutgoing_of_idle hwp]; exact ⟨rfl, rfl, id⟩

theorem sameStanding_finishIfClosing (y : Session) : SameStanding y y.finishIfClosing.1 := by
  unfold Session.finishIfClosing
  dsimp only
  split <;> exact ⟨rfl, rfl, id⟩

theorem sameStanding_handleWriteCompletion {y : Session} {ok : Bool} {r : Session × List Note}
    (h : y.handleWriteCompletion ok = some r) : SameStanding y r.1 := by
  unfold Session.handleWriteCompletion at h
  split at h
  · obtain rfl := Option.some.inj h
    exact sameStanding_finishIfClosing y
  · split at h
    · cases h
    · obtain rfl := Option.some.inj h
      exact sameStanding_finishIfClosing y
    · obtain rfl := Option.some.inj h
      exact ⟨rfl, rfl, id⟩

theorem sameStanding_closeAfterReads (y : Session) : SameStanding y y.closeAfterReads.1 := by
  unfold Session.closeAfterReads
  dsimp only
  split <;> exact ⟨rfl, rfl, id⟩

structure Orderly (y : Session) : Prop where
  connecting : y.streamConnectPhase ≠ .streaming →
    y.sessionActive = false ∧ y.closingAfterWrites = false ∧ y.registeredPeerId = []
  active : y.sessionActive = true → y.closingAfterWrites = false ∧ y.pending ≠ .finish

theorem Orderly.streaming {y : Session} (h : Orderly y) (hactive : y.sessionActive = true) :
    y.streamConnectPhase = .streaming := by
  by_contra hphase
  simp [(h.connecting hphase).1] at hactive

theorem orderly_closed {y : Session} (hphase : y.streamConnectPhase = .streaming)
    (hactive : y.sessionActive = false) : Orderly y :=
  ⟨fun hne => absurd hphase hne, fun h => by simp [hactive] at h⟩

theorem Orderly.enqueueOutgoing {y : Session} (h : Orderly y)
    (hphase : y.streamConnectPhase = .streaming) (msg : SignedMessage) :
    Orderly (y.enqueueOutgoing msg).1 := by
  cases hwp : y.writePending with
  | true =>
      rw [enqueueOutgoing_of_pending hwp]
      exact ⟨fun hne => absurd hphase hne, h.active⟩
  | false =>
      rw [enqueueOutgoing_of_idle hwp]
      refine ⟨fun hne => absurd hphase hne, fun hactive => ⟨(h.active hactive).1, ?_⟩⟩
      simp [Session.issue]

theorem orderly_create : Orderly Session.create :=
  ⟨fun _ => ⟨rfl, rfl, rfl⟩, fun h => by simp [Session.create] at h⟩

theorem orderly_prime : Orderly Session.prime :=
  ⟨fun _ => ⟨rfl, rfl, rfl⟩, fun h => by
    simp [Session.prime, Session.acceptNext, Session.bind, Session.issue,
      Session.create] at h⟩

theorem Orderly.disturbed {y y' : Session} {notes : List Note} (h : Orderly y)
    (hstep : Disturbed y y' notes) : Orderly y' := by
  cases hstep with
  | idle => exact h
  | forwarded _ msg hactive => exact h.enqueueOutgoing (h.streaming hactive) msg
  | primed => exact orderly_prime

theorem Orderly.handled {authentic : SignedMessage → Bool} {y y' : Session}
    {running : Bool} {notes : List Note} (h : Orderly y)
    (hstep : SessionHandled authentic y running y' notes) : Orderly y' := by
  cases hstep with
  | initial hphase =>
      have hc := h.connecting (by simp [hphase])
      exact ⟨fun _ => hc, h.active⟩
  | connectFailed hphase =>
      have hc := h.connecting (by simp [hphase])
      exact ⟨fun _ => ⟨rfl, hc.2.1, rfl⟩, fun hactive => by simp [Session.deactivated] at hactive⟩
  | connected hphase =>
      have hc := h.connecting (by simp [hphase])
      refine ⟨fun hne => absurd rfl hne, fun _ => ⟨hc.2.1, ?_⟩⟩
      simp [Session.onStreamRpcConnected, Session.read, Session.issue]
  | readClosed hphase =>
      have hstanding := sameStanding_closeAfterReads y.deactivated
      exact orderly_closed (hstanding.phase hphase) hstanding.active
  | rejected hphase => exact orderly_closed hphase rfl
  | taken hphase _ _ _ looped =>
      have hregistered : Orderly { y with registeredPeerId := y.request.senderId } :=
        ⟨fun hne => absurd hphase hne, h.active⟩
      have htake : Orderly (y.take looped).1 := by
        cases looped with
        | false => exact hregistered
        | true => exact hregistered.enqueueOutgoing hphase y.request
      have hphase' : (y.take looped).1.streamConnectPhase = .streaming := by
        cases looped with
        | false => exact hphase
        | true => exact (sameStanding_enqueueOutgoing _ _).phase hphase
      refine ⟨fun hne => absurd hphase' hne, fun hactive => ⟨(htake.active hactive).1, ?_⟩⟩
      simp [Session.readNext, Session.read, Session.issue]
  | writeDone hphase _ r hwrite =>
      have hstanding := sameStanding_handleWriteCompletion hwrite
      refine ⟨fun hne => absurd (hstanding.phase hphase) hne, fun hactive => ?_⟩
      rw [hstanding.active] at hactive
      obtain ⟨hclosing, hpending⟩ := h.active hactive
      unfold Session.handleWriteCompletion at hwrite
      rw [finishIfClosing_of_open hclosing] at hwrite
      split at hwrite
      · obtain rfl := Option.some.inj hwrite
        exact ⟨rfl, hpending⟩
      · split at hwrite
        · cases hwrite
        · obtain rfl := Option.some.inj hwrite
          exact ⟨rfl, hpending⟩
        · obtain rfl := Option.some.inj hwrite
          exact ⟨hclosing, by simp [Session.write, Session.issue]⟩
  | finished hphase => exact orderly_closed hphase rfl

/-- The entry of a peer is the open session that has authenticated it last. -/
structure Registry (s : Server) : Prop where
  owned : ∀ peerId x, s.byPeer.lookup peerId = some x →
    lastAuthenticated s.log peerId = some x ∧ (s.sessions x).sessionActive = true
  last : ∀ peerId x, lastAuthenticated s.log peerId = some x →
    (s.sessions x).sessionActive = true → s.byPeer.lookup peerId = some x
  streamed : ∀ peerId x, lastAuthenticated s.log peerId = some x →
    (s.sessions x).streamConnectPhase = .streaming
  unregistered : ∀ x, (s.sessions x).sessionActive = false →
    (s.sessions x).registeredPeerId = []

/-- The entries that refer to the session are the one that it will unregister. -/
def OwnsItsEntry (s : Server) (x : ℕ) : Prop :=
  ∀ entry ∈ s.byPeer.entries, entry.2 = x ↔
    entry.1 = (s.sessions x).registeredPeerId ∧ (s.sessions x).registeredPeerId ≠ []

instance (s : Server) (x : ℕ) : Decidable (OwnsItsEntry s x) :=
  inferInstanceAs (Decidable (∀ entry ∈ s.byPeer.entries, _ ↔ _))

theorem OwnsItsEntry.lookup {s : Server} {x : ℕ} (h : OwnsItsEntry s x) {peerId : Bytes} {z : ℕ}
    (hz : s.byPeer.lookup peerId = some z) :
    z = x ↔ peerId = (s.sessions x).registeredPeerId ∧ (s.sessions x).registeredPeerId ≠ [] :=
  h ⟨peerId, z⟩ (AList.mem_lookup_iff.mp hz)

section Server

variable {κ : Type*} {env : AuthEnv κ} {store : AuthStore κ}

theorem Registry.frame {s t : Server} (hs : Registry s)
    (hstanding : ∀ x, SameStanding (s.sessions x) (t.sessions x))
    (hlast : ∀ peerId, lastAuthenticated t.log peerId = lastAuthenticated s.log peerId)
    (hbyPeer : t.byPeer = s.byPeer) : Registry t := by
  constructor
  · intro peerId x hx
    rw [hbyPeer] at hx
    rw [hlast, (hstanding x).active]
    exact hs.owned peerId x hx
  · intro peerId x hx hactive
    rw [hlast] at hx
    rw [(hstanding x).active] at hactive
    rw [hbyPeer]
    exact hs.last peerId x hx hactive
  · intro peerId x hx
    rw [hlast] at hx
    exact (hstanding x).phase (hs.streamed peerId x hx)
  · intro x hactive
    rw [(hstanding x).active] at hactive
    rw [(hstanding x).registered]
    exact hs.unregistered x hactive

theorem Registry.act {s : Server} (hs : Registry s) {x : ℕ} {r : Session × List Note}
    (hstanding : SameStanding (s.sessions x) r.1)
    (hnotes : ∀ n ∈ r.2, n.isAdmission = false) : Registry (s.act x r) := by
  refine hs.frame (fun z => ?_) (fun peerId => ?_) rfl
  · by_cases hzx : z = x
    · subst hzx
      simpa using hstanding
    · simp only [act_sessions, Function.update_of_ne hzx]
      exact ⟨rfl, rfl, id⟩
  · rw [act_log]
    refine lastAuthenticated_append fun e he => ?_
    obtain ⟨n, hn, rfl⟩ := List.mem_map.mp he
    exact isAdmissionOf_eq_false (hnotes n hn) peerId

theorem Registry.clone {s : Server} (hs : Registry s) (hfresh : Fresh s) :
    Registry (s.cloneAcceptorForNextRequest true) := by
  have hprime : Registry (s.act s.created (Session.prime, [])) := by
    refine hs.act ?_ fun n hn => absurd hn List.not_mem_nil
    rw [(hfresh s.created le_rfl).1]
    exact ⟨rfl, rfl, fun h => by simp [Session.create] at h⟩
  exact hprime.frame (fun _ => ⟨rfl, rfl, id⟩) (fun _ => rfl) rfl

theorem Registry.connect {s : Server} (hs : Registry s) {x : ℕ} {y : Session}
    (hnone : ∀ peerId, lastAuthenticated s.log peerId ≠ some x)
    (hopen : y.streamConnectPhase = .streaming) (hopen' : y.sessionActive = true) :
    Registry (s.act x (y, [])) := by
  have hlog : (s.act x (y, [])).log = s.log := by simp
  constructor
  · intro peerId z hz
    obtain ⟨hlast, hz'⟩ := hs.owned peerId z hz
    rw [hlog]
    refine ⟨hlast, ?_⟩
    by_cases hzx : z = x
    · subst hzx
      simpa using hopen'
    · simpa [hzx] using hz'
  · intro peerId z hlast hz
    rw [hlog] at hlast
    by_cases hzx : z = x
    · subst hzx
      exact absurd hlast (hnone peerId)
    · exact hs.last peerId z hlast (by simpa [hzx] using hz)
  · intro peerId z hlast
    rw [hlog] at hlast
    by_cases hzx : z = x
    · subst hzx
      simpa using hopen
    · simpa [hzx] using hs.streamed peerId z hlast
  · intro z hz
    by_cases hzx : z = x
    · subst hzx
      simp [hopen'] at hz
    · simpa [hzx] using hs.unregistered z (by simpa [hzx] using hz)

theorem Registry.deactivate_inactive {s : Server} (hs : Registry s) {x : ℕ}
    (hactive : (s.sessions x).sessionActive = false) : Registry (s.deactivate x) := by
  have hregistered := hs.unregistered x hactive
  refine hs.frame (fun z => ?_) (fun peerId => by rw [deactivate_log]) ?_
  · rw [deactivate_sessions]
    by_cases hzx : z = x
    · subst hzx
      rw [Function.update_self]
      exact ⟨hactive.symm, hregistered.symm, id⟩
    · rw [Function.update_of_ne hzx]
      exact ⟨rfl, rfl, id⟩
  · rw [deactivate_byPeer, if_neg (not_not.mpr hregistered)]

theorem Registry.deactivate {s : Server} (hs : Registry s) {x : ℕ} (hown : OwnsItsEntry s x) :
    Registry (s.deactivate x) := by
  have hlookup : ∀ peerId z, (s.deactivate x).byPeer.lookup peerId = some z ↔
      s.byPeer.lookup peerId = some z ∧ z ≠ x := by
    intro peerId z
    rw [deactivate_byPeer]
    by_cases hregistered : (s.sessions x).registeredPeerId = []
    · rw [if_neg (not_not.mpr hregistered)]
      refine ⟨fun hz => ⟨hz, fun hzx => ?_⟩, And.left⟩
      exact ((hown.lookup hz).mp hzx).2 hregistered
    · rw [if_pos hregistered]
      by_cases heq : peerId = (s.sessions x).registeredPeerId
      · rw [heq, AList.lookup_erase]
        refine ⟨fun h => absurd h (by simp), fun h => ?_⟩
        exact absurd ((hown.lookup h.1).mpr ⟨rfl, hregistered⟩) h.2
      · rw [AList.lookup_erase_ne heq]
        refine ⟨fun hz => ⟨hz, fun hzx => heq ?_⟩, And.left⟩
        exact ((hown.lookup hz).mp hzx).1
  have hsession : ∀ z, z ≠ x → (s.deactivate x).sessions z = s.sessions z := by
    intro z hzx
    rw [deactivate_sessions, Function.update_of_ne hzx]
  have hself : (s.deactivate x).sessions x = (s.sessions x).deactivated := by
    rw [deactivate_sessions, Function.update_self]
  constructor
  · intro peerId z hz
    obtain ⟨hz, hzx⟩ := (hlookup peerId z).mp hz
    rw [deactivate_log, hsession z hzx]
    exact hs.owned peerId z hz
  · intro peerId z hlast hz
    rw [deactivate_log] at hlast
    have hzx : z ≠ x := by
      rintro rfl
      simp [hself, Session.deactivated] at hz
    rw [hsession z hzx] at hz
    exact (hlookup peerId z).mpr ⟨hs.last peerId z hlast hz, hzx⟩
  · intro peerId z hlast
    rw [deactivate_log] at hlast
    by_cases hzx : z = x
    · subst hzx
      rw [hself]
      exact hs.streamed peerId z hlast
    · rw [hsession z hzx]
      exact hs.streamed peerId z hlast
  · intro z hz
    by_cases hzx : z = x
    · subst hzx
      rw [hself]
      rfl
    · rw [hsession z hzx] at hz ⊢
      exact hs.unregistered z hz

theorem admit_byPeer (s : Server) (x : ℕ) :
    (s.admitSender x).byPeer = s.byPeer.insert (s.sessions x).request.senderId x := by
  simp [Server.admitSender]

theorem lastAuthenticated_admitSender (s : Server) (x : ℕ) (peerId : Bytes) :
    lastAuthenticated (s.admitSender x).log peerId =
      if (s.sessions x).request.senderId = peerId then some x
      else lastAuthenticated s.log peerId := by
  have hlog : (s.admitSender x).log =
      (s.log ++ [(x, .authenticated (s.sessions x).request true)]) ++
      [(x, .dispatched (s.sessions x).request)] := by
    simp [Server.admitSender]
  rw [hlog, lastAuthenticated_append, lastAuthenticated_concat]
  intro e he
  rw [List.mem_singleton.mp he]
  rfl

theorem Registry.admitSender {s : Server} (hs : Registry s) {x : ℕ}
    (hphase : (s.sessions x).streamConnectPhase = .streaming)
    (hactive : (s.sessions x).sessionActive = true) : Registry (s.admitSender x) := by
  have hstanding : ∀ z,
      ((s.admitSender x).sessions z).sessionActive = (s.sessions z).sessionActive ∧
      ((s.admitSender x).sessions z).streamConnectPhase = (s.sessions z).streamConnectPhase := by
    intro z
    rw [admit_sessions]
    by_cases hzx : z = x
    · subst hzx
      rw [Function.update_self]
      exact ⟨rfl, rfl⟩
    · rw [Function.update_of_ne hzx]
      exact ⟨rfl, rfl⟩
  constructor
  · intro peerId z hz
    rw [admit_byPeer] at hz
    rw [lastAuthenticated_admitSender, (hstanding z).1]
    by_cases heq : (s.sessions x).request.senderId = peerId
    · subst heq
      rw [AList.lookup_insert] at hz
      obtain rfl := Option.some.inj hz
      exact ⟨if_pos rfl, hactive⟩
    · rw [AList.lookup_insert_ne (Ne.symm heq)] at hz
      rw [if_neg heq]
      exact hs.owned peerId z hz
  · intro peerId z hlast hz
    rw [lastAuthenticated_admitSender] at hlast
    rw [(hstanding z).1] at hz
    rw [admit_byPeer]
    by_cases heq : (s.sessions x).request.senderId = peerId
    · subst heq
      rw [if_pos rfl] at hlast
      rw [AList.lookup_insert]
      exact hlast
    · rw [if_neg heq] at hlast
      rw [AList.lookup_insert_ne (Ne.symm heq)]
      exact hs.last peerId z hlast hz
  · intro peerId z hlast
    rw [lastAuthenticated_admitSender] at hlast
    rw [(hstanding z).2]
    by_cases heq : (s.sessions x).request.senderId = peerId
    · rw [if_pos heq] at hlast
      obtain rfl := Option.some.inj hlast
      exact hphase
    · rw [if_neg heq] at hlast
      exact hs.streamed peerId z hlast
  · intro z hz
    have hzx : z ≠ x := by
      rintro rfl
      rw [(hstanding z).1, hactive] at hz
      cases hz
    rw [(hstanding z).1] at hz
    rw [admit_sessions, Function.update_of_ne hzx]
    exact hs.unregistered z hz

theorem Delivery.registry {s t : Server} {x : ℕ} {req : SignedMessage} {data : MessageData}
    (h : Delivery store s x req data t) (hs : Registry s) : Registry t := by
  cases h with
  | deliverLocal =>
      exact hs.act (sameStanding_enqueueOutgoing _ _) fun n hn => isAdmission_enqueueOutgoing hn
  | forwarded =>
      exact hs.act (sameStanding_enqueueOutgoing _ _) fun n hn => isAdmission_enqueueOutgoing hn
  | unknown => exact hs
  | stale z hz hactive => simp [(hs.owned _ z hz).2] at hactive

theorem Handled.registry {s t : Server} {x : ℕ} {running : Bool}
    (h : Handled env store s x running t) (hs : Registry s) (hfresh : Fresh s)
    (hx : x < s.created) (horderly : Orderly (s.sessions x))
    (htakes : (s.sessions x).streamConnectPhase = .streaming → (s.sessions x).pending = .read →
      running = true → Authentic env store (s.sessions x).request = true →
      (s.sessions x).sessionActive = true)
    (hcloses : (s.sessions x).streamConnectPhase = .streaming → (s.sessions x).pending = .read →
      ¬ (running = true ∧ Authentic env store (s.sessions x).request = true) →
      OwnsItsEntry s x) : Registry t := by
  cases h with
  | initial hphase =>
      exact hs.act ⟨rfl, rfl, fun h => by simp [hphase] at h⟩
        fun n hn => absurd hn List.not_mem_nil
  | connectFailed hphase =>
      have hc := horderly.connecting (by simp [hphase])
      exact (hs.deactivate_inactive hc.1).act ⟨rfl, rfl, id⟩
        fun n hn => absurd hn List.not_mem_nil
  | connected hphase =>
      have hc := horderly.connecting (by simp [hphase])
      have hnone : ∀ peerId, lastAuthenticated s.log peerId ≠ some x := by
        intro peerId hlast
        simp [hs.streamed peerId x hlast] at hphase
      have hset : Registry (s.modify x fun y => { y with streamConnectPhase := .streaming }) :=
        hs.act ⟨rfl, rfl, fun _ => rfl⟩ fun n hn => absurd hn List.not_mem_nil
      refine (hset.clone (hfresh.act hx _)).connect ?_ ?_ rfl
      · simpa [Server.cloneAcceptorForNextRequest] using hnone
      · simp [Server.cloneAcceptorForNextRequest, hx.ne, Session.onStreamRpcConnected,
          Session.read, Session.issue]
  | readClosed hphase hpending hrunning =>
      refine (hs.deactivate (hcloses hphase hpending (by simp [hrunning]))).act
        (sameStanding_closeAfterReads _) fun n hn => ?_
      exact isAdmission_of_isSending (closeAfterReads_notes hn)
  | rejected hphase hpending hrunning hauth =>
      have hnoted : Registry (s.note x (.authenticated (s.sessions x).request false)) := by
        refine hs.act ⟨rfl, rfl, id⟩ fun n hn => ?_
        rw [List.mem_singleton.mp hn]
        rfl
      have hown : OwnsItsEntry (s.note x (.authenticated (s.sessions x).request false)) x := by
        unfold OwnsItsEntry
        rw [note_sessions, note_byPeer]
        exact hcloses hphase hpending (by simp [hauth])
      refine (hnoted.deactivate hown).act ⟨rfl, rfl, id⟩ fun n hn => ?_
      exact isAdmission_of_isSending (closeWithStatus_notes hn)
  | taken hphase hpending hrunning data hauth u hdelivery =>
      have hauthentic : Authentic env store (s.sessions x).request = true := by
        simp [Authentic, hauth]
      have hactive := htakes hphase hpending hrunning hauthentic
      exact (hdelivery.registry (hs.admitSender hphase hactive)).act ⟨rfl, rfl, id⟩
        fun n hn => absurd hn List.not_mem_nil
  | writeDone _ _ r hwrite =>
      exact hs.act (sameStanding_handleWriteCompletion hwrite) fun n hn =>
        isAdmission_of_isSending (handleWriteCompletion_notes hwrite hn)
  | finished hphase hpending =>
      have hactive : (s.sessions x).sessionActive = false := by
        by_contra hactive
        exact (horderly.active (by simpa using hactive)).2 hpending
      exact (hs.deactivate_inactive hactive).act ⟨rfl, rfl, id⟩
        fun n hn => absurd hn List.not_mem_nil

/-- The router finds no closed session, so looking up a peer erases nothing. -/
theorem Registry.getChannel {s : Server} (hs : Registry s) (peerId : Bytes) :
    (s.getChannel peerId).1 = s := by
  unfold Server.getChannel
  rcases hz : s.byPeer.lookup peerId with - | z
  · rfl
  · simp [(hs.owned peerId z hz).2]

end Server

section Run

variable {κ : Type*} (env : AuthEnv κ) (store : AuthStore κ)

/-- When a read completes on a session, either its message is taken while the
session is open, or the session closes and has exactly the entry that it will
unregister. -/
def KeepsEntries (s : Server) : Event → Prop
  | .complete x op ok msg =>
      let y := (s.sessions x).deliver op ok msg
      y.streamConnectPhase = .streaming → y.pending = .read →
        if ok = true ∧ Authentic env store y.request = true then y.sessionActive = true
        else OwnsItsEntry s x
  | .getChannel _ => True

instance (s : Server) : (e : Event) → Decidable (KeepsEntries env store s e)
  | .complete x op ok msg =>
      inferInstanceAs (Decidable (
        ((s.sessions x).deliver op ok msg).streamConnectPhase = .streaming →
        ((s.sessions x).deliver op ok msg).pending = .read →
        if ok = true ∧ Authentic env store ((s.sessions x).deliver op ok msg).request = true then
          ((s.sessions x).deliver op ok msg).sessionActive = true
        else OwnsItsEntry s x))
  | .getChannel _ => .isTrue trivial

/-- The registry, with what its steps need of the sessions. -/
structure Registered (s : Server) : Prop extends Registry s where
  fresh : Fresh s
  orderly : ∀ x, Orderly (s.sessions x)

variable {env store}

theorem Registered.step {s t : Server} {e : Event} (hs : Registered s)
    (hkeeps : KeepsEntries env store s e) (h : s.step env store e = some t) :
    Registered t := by
  refine ⟨?_, hs.fresh.step h, fun x => ?_⟩
  · cases e with
    | getChannel peerId =>
        obtain rfl : (s.getChannel peerId).1 = t := Option.some.inj h
        rw [hs.getChannel]
        exact hs.toRegistry
    | complete x op ok msg =>
        obtain ⟨-, hmem, hhandled⟩ := step_complete h
        have hsession : (s.deliver x op ok msg).sessions x = (s.sessions x).deliver op ok msg := by
          simp [Server.deliver]
        have hdelivered : Registry (s.deliver x op ok msg) := by
          refine hs.toRegistry.act ⟨rfl, rfl, id⟩ fun n hn => ?_
          unfold Session.deliverNotes at hn
          split at hn <;> split at hn <;> simp at hn
          · rcases hn with rfl | rfl <;> rfl
          · rw [hn]
            rfl
          · rw [hn]
            rfl
        have horderly : Orderly ((s.deliver x op ok msg).sessions x) := by
          rw [hsession]
          exact ⟨(hs.orderly x).connecting, (hs.orderly x).active⟩
        refine hhandled.registry hdelivered (hs.fresh.deliver hmem ok msg)
          (hs.fresh.lt_of_mem hmem) horderly ?_ ?_ <;> rw [hsession]
        · intro hphase hpending hok hauth
          have hif := hkeeps hphase hpending
          rwa [if_pos ⟨hok, hauth⟩] at hif
        · intro hphase hpending hnot
          have hif := hkeeps hphase hpending
          rw [if_neg hnot] at hif
          unfold OwnsItsEntry
          rw [hsession]
          exact hif
  · rcases step_session hs.fresh h x with
      ⟨op, ok, msg, rfl, -, notes, -, hhandled⟩ | ⟨-, notes, -, hdisturbed⟩
    · have horderly : Orderly ((s.sessions x).deliver op ok msg) :=
        ⟨(hs.orderly x).connecting, (hs.orderly x).active⟩
      exact horderly.handled hhandled
    · exact (hs.orderly x).disturbed hdisturbed

theorem registered_start : Registered Server.start := by
  have hsessions : ∀ x, Server.start.sessions x = Session.prime ∨
      Server.start.sessions x = Session.create := by
    intro x
    unfold Server.start
    dsimp only
    by_cases hx : x = 0
    · subst hx
      exact Or.inl (Function.update_self _ _ _)
    · exact Or.inr (Function.update_of_ne hx _ _)
  refine ⟨⟨fun peerId x hx => ?_, fun peerId x hx => ?_, fun peerId x hx => ?_, fun x _ => ?_⟩,
    fresh_start, fun x => ?_⟩
  · unfold Server.start at hx
    rw [AList.lookup_empty] at hx
    cases hx
  · cases hx
  · cases hx
  · rcases hsessions x with h | h <;> rw [h] <;> rfl
  · rcases hsessions x with h | h <;> rw [h]
    · exact orderly_prime
    · exact orderly_create

/-- When no closed session takes a message and every session that closes has
exactly the entry it will unregister, the entry of each peer is the session that
has authenticated it last, as long as that session is open, and no entry refers to
a closed session. -/
theorem router_entries (env : AuthEnv κ) (store : AuthStore κ) (es : List Event) (s : Server)
    (hrun : run (Server.step env store) Server.start es = some s)
    (hkeeps : AllSteps (Server.step env store) (KeepsEntries env store) Server.start es) :
    (∀ peerId x, lastAuthenticated s.log peerId = some x →
      (s.sessions x).sessionActive = true → s.byPeer.lookup peerId = some x) ∧
    ∀ x, (s.sessions x).closed → ∀ peerId, s.byPeer.lookup peerId ≠ some x := by
  have hs : Registered s :=
    run_invariant_of_allSteps (fun _ _ _ hs he hstep => hs.step he hstep) registered_start
      hkeeps hrun
  refine ⟨hs.last, fun x hclosed peerId hlookup => ?_⟩
  have hactive := (hs.owned peerId x hlookup).2
  rw [hclosed.2] at hactive
  cases hactive

end Run

/-- A session registers its peer and closes, and the peer comes back. -/
theorem router_entries_sample :
    ∃ s, run (Server.step sampleEnv sampleStore) Server.start
        [.complete 0 .request true default, .complete 0 .read true (signedBy [1] [8]),
          .complete 0 .read false default, .complete 1 .request true default,
          .complete 1 .read true (signedBy [1] [8])] = some s ∧
      s.byPeer.lookup [1] = some 1 ∧ ∀ peerId, s.byPeer.lookup peerId ≠ some 0 :=
  have h := router_entries sampleEnv sampleStore
    [.complete 0 .request true default, .complete 0 .read true (signedBy [1] [8]),
      .complete 0 .read false default, .complete 1 .request true default,
      .complete 1 .read true (signedBy [1] [8])] _ rfl (by decide)
  ⟨_, rfl, h.1 [1] 1 (by decide) (by decide), h.2 0 ⟨by decide, by decide⟩⟩

/-- The peer opens a second session and the first one closes: the entry of the
second session, which is open and has authenticated the peer last, is gone. -/
theorem closing_erases_other_entry :
    ∃ s, run (Server.step sampleEnv sampleStore) Server.start
        [.complete 0 .request true default, .complete 0 .read true (signedBy [1] [8]),
          .complete 1 .request true default, .complete 1 .read true (signedBy [1] [8]),
          .complete 0 .read false default] = some s ∧
      lastAuthenticated s.log [1] = some 1 ∧ (s.sessions 1).sessionActive = true ∧
      s.byPeer.lookup [1] = none :=
  ⟨_, rfl, by decide, by decide, by decide⟩

end Message

end DistStorage
