import DistStorage.Message.StreamOrder
import DistStorage.Transition.Chronicle

/-!
# Where the messages of a queue come from

Every note of the log has its grounds in the notes before it: a message is
admitted where it has been read, and accepted either there or at a session that
has admitted a message of the recipient. The link between the two is the router's
map, whose entries all stem from admitted messages.

The request field of a session is read from only after a read has filled it.
Before its first message a session has only its connection and its first read
under way, and nobody can forward to it: it is `Unheard`.
-/

namespace DistStorage

namespace Message

open Proto Peer Transition

theorem mem_history {s : Server} {x : ℕ} {n : Note} : n ∈ s.history x ↔ (x, n) ∈ s.log := by
  unfold Server.history
  rw [List.mem_filterMap]
  constructor
  · rintro ⟨⟨z, n'⟩, hmem, heq⟩
    dsimp only at heq
    split at heq
    · next hz =>
        obtain rfl := Option.some.inj heq
        obtain rfl := hz
        exact hmem
    · cases heq
  · intro hmem
    exact ⟨(x, n), hmem, by simp⟩

structure Unheard (y : Session) : Prop where
  initial : y.streamConnectPhase = .initial → y.outstanding = []
  accepted : y.streamConnectPhase = .accepted →
    y.outstanding = [] ∨ y.outstanding = [.request]
  reading : y.streamConnectPhase = .streaming → y.pending = .read →
    y.outstanding = [.read]
  noWrite : y.pending ≠ .write
  idle : y.writePending = false

theorem unheard_create : Unheard Session.create := by
  constructor <;> simp [Session.create]

theorem unheard_prime : Unheard Session.prime := by
  constructor <;> simp [Session.prime, Session.acceptNext, Session.bind, Session.issue,
    Session.create]

theorem Unheard.handled {authentic : SignedMessage → Bool} {y y' : Session} (h : Unheard y)
    {op : StreamOp} {ok : Bool} {msg : SignedMessage} {notes : List Note}
    (hmem : op ∈ y.outstanding) (hread : ¬ (op = .read ∧ ok = true))
    (hstep : SessionHandled authentic (y.deliver op ok msg) ok y' notes) : Unheard y' := by
  have hreading : y.streamConnectPhase = .streaming → y.pending = .read → op = .read := by
    intro hphase hpending
    rw [h.reading hphase hpending, List.mem_singleton] at hmem
    exact hmem
  cases hstep with
  | initial hphase =>
      have hphase' : y.streamConnectPhase = .initial := hphase
      rw [h.initial hphase'] at hmem
      exact absurd hmem List.not_mem_nil
  | connectFailed hphase =>
      have hphase' : y.streamConnectPhase = .accepted := hphase
      have hnone : y.outstanding.erase op = [] := by
        rcases h.accepted hphase' with hout | hout <;> rw [hout] at hmem ⊢
        · exact absurd hmem List.not_mem_nil
        · rw [List.mem_singleton.mp hmem]
          rfl
      constructor
      · exact fun _ => hnone
      · exact fun _ => Or.inl hnone
      · intro hstreaming
        rw [show y.streamConnectPhase = .streaming from hstreaming] at hphase'
        cases hphase'
      · exact h.noWrite
      · exact h.idle
  | connected hphase =>
      have hphase' : y.streamConnectPhase = .accepted := hphase
      have hnone : y.outstanding.erase op = [] := by
        rcases h.accepted hphase' with hout | hout <;> rw [hout] at hmem ⊢
        · exact absurd hmem List.not_mem_nil
        · rw [List.mem_singleton.mp hmem]
          rfl
      constructor <;>
        simp [Session.onStreamRpcConnected, Session.read, Session.issue, Session.deliver, hnone,
          h.idle]
  | readClosed hphase hpending hrunning =>
      unfold Session.closeAfterReads
      dsimp only
      rw [if_pos]
      · constructor <;>
          simp [Session.finish, Session.issue, Session.deactivated, Session.deliver, h.idle,
            show y.streamConnectPhase = .streaming from hphase]
      · simp [Session.deactivated, Session.deliver, h.idle]
  | rejected hphase hpending hrunning =>
      exact absurd ⟨hreading hphase hpending, hrunning⟩ hread
  | taken hphase hpending hrunning =>
      exact absurd ⟨hreading hphase hpending, hrunning⟩ hread
  | writeDone hphase hpending => exact absurd hpending h.noWrite
  | finished hphase hpending =>
      have hphase' : y.streamConnectPhase = .streaming := hphase
      have hpending' : y.pending = .finish := hpending
      constructor <;>
        simp [Session.deactivated, Session.deliver, h.idle, hphase', hpending']

theorem enqueueOutgoing_request (y : Session) (msg : SignedMessage) :
    (y.enqueueOutgoing msg).1.request = y.request := by
  cases hwp : y.writePending with
  | true => rw [enqueueOutgoing_of_pending hwp]
  | false => rw [enqueueOutgoing_of_idle hwp]; rfl

theorem finishIfClosing_request (y : Session) : y.finishIfClosing.1.request = y.request := by
  unfold Session.finishIfClosing
  dsimp only
  split <;> rfl

theorem SessionHandled.request_eq {authentic : SignedMessage → Bool} {y y' : Session}
    {running : Bool} {notes : List Note} (h : SessionHandled authentic y running y' notes) :
    y'.request = y.request := by
  cases h with
  | initial | connectFailed | connected | rejected | finished => rfl
  | readClosed =>
      unfold Session.closeAfterReads
      dsimp only
      split <;> rfl
  | taken _ _ _ _ looped =>
      cases looped with
      | false => rfl
      | true =>
          exact enqueueOutgoing_request { y with registeredPeerId := y.request.senderId } y.request
  | writeDone _ _ r hwrite =>
      unfold Session.handleWriteCompletion at hwrite
      split at hwrite
      · obtain rfl := Option.some.inj hwrite
        exact finishIfClosing_request y
      · split at hwrite
        · cases hwrite
        · obtain rfl := Option.some.inj hwrite
          exact finishIfClosing_request y
        · obtain rfl := Option.some.inj hwrite
          rfl

theorem Disturbed.request_eq {y y' : Session} {notes : List Note} (h : Disturbed y y' notes) :
    y'.request = y.request := by
  cases h with
  | idle | primed => rfl
  | forwarded _ msg => exact enqueueOutgoing_request y msg

theorem mem_outbound_enqueueOutgoing {y : Session} {msg m : SignedMessage}
    (h : m ∈ (y.enqueueOutgoing msg).1.outbound) :
    m ∈ y.outbound ∨ .accepted m ∈ (y.enqueueOutgoing msg).2 := by
  have hmem : m ∈ y.outbound ++ [msg] := by
    cases hwp : y.writePending with
    | true => rwa [enqueueOutgoing_of_pending hwp] at h
    | false => rwa [enqueueOutgoing_of_idle hwp] at h
  rcases List.mem_append.mp hmem with hold | hnew
  · exact Or.inl hold
  · obtain rfl := List.mem_singleton.mp hnew
    right
    cases hwp : y.writePending with
    | true => simp [enqueueOutgoing_of_pending hwp]
    | false => simp [enqueueOutgoing_of_idle hwp]

theorem finishIfClosing_outbound (y : Session) : y.finishIfClosing.1.outbound = [] := by
  unfold Session.finishIfClosing
  dsimp only
  split <;> rfl

/-- The queue of a session grows only by accepted messages. -/
theorem SessionHandled.mem_outbound {authentic : SignedMessage → Bool} {y y' : Session}
    {running : Bool} {notes : List Note} (h : SessionHandled authentic y running y' notes)
    {m : SignedMessage} (hm : m ∈ y'.outbound) : m ∈ y.outbound ∨ .accepted m ∈ notes := by
  cases h with
  | initial | connectFailed | connected | finished => exact Or.inl hm
  | readClosed =>
      unfold Session.closeAfterReads at hm
      dsimp only at hm
      split at hm <;> exact absurd hm List.not_mem_nil
  | rejected => exact absurd hm List.not_mem_nil
  | taken _ _ _ _ looped =>
      cases looped with
      | false => exact Or.inl hm
      | true =>
          rcases mem_outbound_enqueueOutgoing hm with hold | hnew
          · exact Or.inl hold
          · exact Or.inr (List.mem_cons_of_mem _ (List.mem_cons_of_mem _ hnew))
  | writeDone _ _ r hwrite =>
      left
      unfold Session.handleWriteCompletion at hwrite
      split at hwrite
      · obtain rfl := Option.some.inj hwrite
        rw [finishIfClosing_outbound] at hm
        exact absurd hm List.not_mem_nil
      · split at hwrite
        · cases hwrite
        · obtain rfl := Option.some.inj hwrite
          rw [finishIfClosing_outbound] at hm
          exact absurd hm List.not_mem_nil
        · next hout =>
            obtain rfl := Option.some.inj hwrite
            rw [hout]
            exact List.mem_cons_of_mem _ hm

theorem Disturbed.mem_outbound {y y' : Session} {notes : List Note} (h : Disturbed y y' notes)
    {m : SignedMessage} (hm : m ∈ y'.outbound) : m ∈ y.outbound ∨ .accepted m ∈ notes := by
  cases h with
  | idle => exact Or.inl hm
  | forwarded => exact mem_outbound_enqueueOutgoing hm
  | primed => exact absurd hm List.not_mem_nil

section Ledger

variable {κ : Type*} (env : AuthEnv κ) (store : AuthStore κ)

/-- What the notes before an entry have to contain. An admitted message has been
read by its session. An accepted one that is for the server has been read by the
accepting session itself; one for a peer has been read by some session, and the
accepting session has admitted a message of that peer. -/
def Grounds (pre : List (ℕ × Note)) : ℕ × Note → Prop
  | (x, .authenticated msg true) => (x, .received msg) ∈ pre ∧ Verifies env store msg
  | (x, .accepted msg) =>
      Verifies env store msg ∧ ∃ data, env.parseMessageData msg.data = some data ∧
        ∃ z, (z, .received msg) ∈ pre ∧
          ((data.recipientId = [] ∨ store.isSelf data.recipientId = true) ∧ z = x ∨
            (data.recipientId ≠ [] ∧ store.isSelf data.recipientId = false) ∧
              ∃ msg', (x, .authenticated msg' true) ∈ pre ∧ msg'.senderId = data.recipientId)
  | _ => True

/-- The log has its grounds, and so have the entries of the router. -/
structure Ledger (s : Server) : Prop where
  justified : Justified (Grounds env store) s.log
  registered : ∀ peerId x, s.byPeer.lookup peerId = some x →
    ∃ msg, (x, .authenticated msg true) ∈ s.log ∧ msg.senderId = peerId

variable {env store}

theorem grounds_of_isSending {pre : List (ℕ × Note)} {x : ℕ} {n : Note}
    (h : n.isSending = true) : Grounds env store pre (x, n) := by
  cases n <;> trivial

theorem grounds_of_isArrival {pre : List (ℕ × Note)} {x : ℕ} {n : Note}
    (h : n.isArrival = true) : Grounds env store pre (x, n) := by
  cases n <;> trivial

theorem Ledger.congr {s t : Server} (hs : Ledger env store s) (hlog : t.log = s.log)
    (hbyPeer : t.byPeer = s.byPeer) : Ledger env store t := by
  constructor
  · rw [hlog]
    exact hs.justified
  · rw [hlog, hbyPeer]
    exact hs.registered

theorem Ledger.act {s : Server} (hs : Ledger env store s) {x : ℕ} {r : Session × List Note}
    (h : ∀ n ∈ r.2, ∀ pre, s.log <+: pre → Grounds env store pre (x, n)) :
    Ledger env store (s.act x r) := by
  constructor
  · refine hs.justified.append ?_
    intro e he
    obtain ⟨n, hn, rfl⟩ := List.mem_map.mp he
    exact h n hn
  · intro peerId z hz
    obtain ⟨msg, hmem, hsender⟩ := hs.registered peerId z hz
    exact ⟨msg, List.mem_append_left _ hmem, hsender⟩

theorem Ledger.act_sending {s : Server} (hs : Ledger env store s) {x : ℕ}
    {r : Session × List Note} (h : ∀ n ∈ r.2, n.isSending = true) :
    Ledger env store (s.act x r) :=
  hs.act fun n hn _ _ => grounds_of_isSending (h n hn)

theorem Ledger.modify {s : Server} (hs : Ledger env store s) (x : ℕ) (f : Session → Session) :
    Ledger env store (s.modify x f) :=
  hs.congr (modify_log s x f) rfl

theorem Ledger.clone {s : Server} (hs : Ledger env store s) :
    Ledger env store (s.cloneAcceptorForNextRequest true) :=
  hs.congr (by simp [Server.cloneAcceptorForNextRequest]) rfl

theorem lookup_of_erase {byPeer : AList fun _ : Bytes => ℕ} {peerId peerId' : Bytes} {x : ℕ}
    (h : (byPeer.erase peerId').lookup peerId = some x) :
    peerId ≠ peerId' ∧ byPeer.lookup peerId = some x := by
  by_cases heq : peerId = peerId'
  · rw [heq, AList.lookup_erase] at h
    cases h
  · rw [AList.lookup_erase_ne heq] at h
    exact ⟨heq, h⟩

theorem Ledger.unregisterSession {s : Server} (hs : Ledger env store s) (peerId : Bytes) :
    Ledger env store (s.unregisterSession peerId) :=
  ⟨hs.justified, fun peerId' x hx => hs.registered peerId' x (lookup_of_erase hx).2⟩

theorem Ledger.deactivate {s : Server} (hs : Ledger env store s) (x : ℕ) :
    Ledger env store (s.deactivate x) := by
  unfold Server.deactivate Server.unregisterIfRegistered
  split
  · exact ((hs.modify x _).unregisterSession _).modify x _
  · exact hs.modify x _

theorem Ledger.admitSender {s : Server} (hs : Ledger env store s) {x : ℕ}
    (hread : (x, .received (s.sessions x).request) ∈ s.log)
    (hverifies : Verifies env store (s.sessions x).request) :
    Ledger env store (s.admitSender x) := by
  have hnoted : Ledger env store (s.note x (.authenticated (s.sessions x).request true)) := by
    refine hs.act fun n hn pre hpre => ?_
    obtain rfl := List.mem_singleton.mp hn
    exact ⟨hpre.subset hread, hverifies⟩
  have hregistered : Ledger env store ((s.note x (.authenticated (s.sessions x).request true)
      ).registerSession (s.sessions x).request.senderId x) := by
    refine ⟨hnoted.justified, fun peerId z hz => ?_⟩
    by_cases heq : peerId = (s.sessions x).request.senderId
    · subst heq
      rw [registerSession_byPeer, AList.lookup_insert] at hz
      obtain rfl := Option.some.inj hz
      exact ⟨(s.sessions x).request, by simp, rfl⟩
    · rw [registerSession_byPeer, AList.lookup_insert_ne heq] at hz
      exact hnoted.registered peerId z hz
  refine Ledger.act (hregistered.modify x _) fun n hn _ _ => ?_
  obtain rfl := List.mem_singleton.mp hn
  trivial

theorem admit_log (s : Server) (x : ℕ) :
    (s.admitSender x).log = s.log ++ [(x, .authenticated (s.sessions x).request true),
      (x, .dispatched (s.sessions x).request)] := by
  simp [Server.admitSender]

theorem Delivery.ledger {s t : Server} {x : ℕ} {req : SignedMessage} {data : MessageData}
    (h : Delivery store s x req data t) (hs : Ledger env store s)
    (hread : (x, .received req) ∈ s.log) (hverifies : Verifies env store req)
    (hparse : env.parseMessageData req.data = some data) : Ledger env store t := by
  cases h with
  | deliverLocal hself =>
      refine hs.act fun n hn pre hpre => ?_
      rcases enqueueOutgoing_notes hn with rfl | hsending
      · exact ⟨hverifies, data, hparse, x, hpre.subset hread, Or.inl ⟨hself, rfl⟩⟩
      · exact grounds_of_isSending hsending
  | forwarded hne hself z hz =>
      obtain ⟨msg', hmem, hsender⟩ := hs.registered _ z hz
      refine hs.act fun n hn pre hpre => ?_
      rcases enqueueOutgoing_notes hn with rfl | hsending
      · exact ⟨hverifies, data, hparse, x, hpre.subset hread,
          Or.inr ⟨⟨hne, hself⟩, msg', hpre.subset hmem, hsender⟩⟩
      · exact grounds_of_isSending hsending
  | unknown => exact hs
  | stale => exact hs.unregisterSession _

theorem Handled.ledger {s t : Server} {x : ℕ} {running : Bool}
    (h : Handled env store s x running t) (hs : Ledger env store s)
    (hread : (s.sessions x).streamConnectPhase = .streaming → (s.sessions x).pending = .read →
      running = true → (x, .received (s.sessions x).request) ∈ s.log) :
    Ledger env store t := by
  cases h with
  | initial => exact hs.modify x _
  | connectFailed => exact (hs.deactivate x).modify x _
  | connected => exact (Ledger.clone (hs.modify x _)).modify x _
  | readClosed => exact (hs.deactivate x).act_sending fun n hn => closeAfterReads_notes hn
  | rejected =>
      refine Ledger.act_sending (Ledger.deactivate (hs.act fun n hn _ _ => ?_) x)
        fun n hn => closeWithStatus_notes hn
      obtain rfl := List.mem_singleton.mp hn
      trivial
  | taken hphase hpending hrunning data hauth u hdelivery =>
      obtain ⟨hverifies, hparse⟩ := authenticate_eq_ok.mp hauth
      have hrequest := hread hphase hpending hrunning
      refine (hdelivery.ledger (hs.admitSender hrequest hverifies) ?_ hverifies hparse).modify x _
      rw [admit_log]
      exact List.mem_append_left _ hrequest
  | writeDone _ _ r hwrite => exact hs.act_sending fun n hn => handleWriteCompletion_notes hwrite hn
  | finished => exact (hs.deactivate x).modify x _

theorem Handled.forwarded {s t : Server} {x z : ℕ} {running : Bool}
    (h : Handled env store s x running t) (hzx : z ≠ x) :
    t.sessions z = s.sessions z ∨ z = s.created ∨ ∃ peerId, s.byPeer.lookup peerId = some z := by
  cases h with
  | initial => exact Or.inl (by simp [hzx])
  | connectFailed => exact Or.inl (by simp [Server.onStreamConnectFailed, hzx])
  | connected =>
      by_cases hz : z = s.created
      · exact Or.inr (Or.inl hz)
      · exact Or.inl (by simp [Server.cloneAcceptorForNextRequest, hzx, hz])
  | readClosed => exact Or.inl (by simp [Server.beginShutdownAfterReadClosed, hzx])
  | rejected => exact Or.inl (by simp [Server.shutdownWithStatus, hzx])
  | taken _ _ _ data _ u hdelivery =>
      have hsession : (s.admitSender x).sessions z = s.sessions z := by
        simp [admit_sessions, hzx]
      cases hdelivery with
      | deliverLocal => exact Or.inl (by simp [hzx, hsession])
      | forwarded _ _ w hw =>
          by_cases hzw : z = w
          · subst hzw
            right
            right
            have hbyPeer : (s.admitSender x).byPeer =
                s.byPeer.insert (s.sessions x).request.senderId x := by
              simp [Server.admitSender]
            rw [hbyPeer] at hw
            by_cases heq : data.recipientId = (s.sessions x).request.senderId
            · rw [heq, AList.lookup_insert] at hw
              exact absurd (Option.some.inj hw).symm hzx
            · rw [AList.lookup_insert_ne heq] at hw
              exact ⟨_, hw⟩
          · exact Or.inl (by simp [hzx, hzw, hsession])
      | unknown => exact Or.inl (by simp [hzx, hsession])
      | stale => exact Or.inl (by simp [hzx, hsession])
  | writeDone => exact Or.inl (by simp [hzx])
  | finished => exact Or.inl (by simp [Server.completeAfterStreamFinish, hzx])

theorem step_forwarded {s t : Server} {e : Event} (h : s.step env store e = some t) {x : ℕ}
    (hother : ∀ op ok msg, e ≠ .complete x op ok msg) :
    t.sessions x = s.sessions x ∨ x = s.created ∨ ∃ peerId, s.byPeer.lookup peerId = some x := by
  cases e with
  | getChannel peerId =>
      obtain rfl : (s.getChannel peerId).1 = t := Option.some.inj h
      rcases getChannel_eq s peerId with hsame | hsame <;> rw [hsame] <;> exact Or.inl rfl
  | complete z op ok msg =>
      have hne : x ≠ z := by
        rintro rfl
        exact hother op ok msg rfl
      have hforwarded := (step_complete h).2.2.forwarded hne
      simpa [Server.deliver, hne] using hforwarded

end Ledger

section Run

variable {κ : Type*} (env : AuthEnv κ) (store : AuthStore κ)

/-- The ledger, with what the sessions hold as their requests and queues. -/
structure Trusted (s : Server) : Prop extends Ledger env store s where
  fresh : Fresh s
  unheard : ∀ x, (∀ msg, Note.received msg ∉ s.history x) → Unheard (s.sessions x)
  request : ∀ x msg, Note.received msg ∈ s.history x →
    Note.received (s.sessions x).request ∈ s.history x
  queued : ∀ x, ∀ msg ∈ (s.sessions x).outbound, Note.accepted msg ∈ s.history x

variable {env store}

theorem received_mem_deliverNotes {y : Session} {op : StreamOp} {ok : Bool}
    {msg msg' : SignedMessage} :
    Note.received msg' ∈ y.deliverNotes op ok msg ↔ op = .read ∧ ok = true ∧ msg' = msg := by
  unfold Session.deliverNotes
  by_cases hread : op = .read ∧ ok = true <;> split <;> simp_all

theorem Trusted.request_received {s : Server} (hs : Trusted env store s) {x : ℕ}
    {op : StreamOp} {ok : Bool} (msg : SignedMessage)
    (hmem : op ∈ (s.sessions x).outstanding)
    (hphase : (s.sessions x).streamConnectPhase = .streaming)
    (hpending : (s.sessions x).pending = .read) (hok : ok = true) :
    Note.received ((s.sessions x).deliver op ok msg).request ∈
      (s.deliver x op ok msg).history x := by
  rw [Server.deliver, history_act_self, List.mem_append]
  by_cases hread : op = .read
  · right
    rw [received_mem_deliverNotes]
    exact ⟨hread, hok, by simp [Session.deliver, hread, hok]⟩
  · left
    have hrequest : ((s.sessions x).deliver op ok msg).request = (s.sessions x).request := by
      simp [Session.deliver, hread]
    rw [hrequest]
    by_contra hnot
    have hunheard := hs.unheard x fun msg' hmsg' => hnot (hs.request x msg' hmsg')
    rw [hunheard.reading hphase hpending, List.mem_singleton] at hmem
    exact hread hmem

theorem Trusted.ledger_step {s t : Server} {e : Event} (hs : Trusted env store s)
    (h : s.step env store e = some t) : Ledger env store t := by
  cases e with
  | getChannel peerId =>
      obtain rfl : (s.getChannel peerId).1 = t := Option.some.inj h
      rcases getChannel_eq s peerId with hsame | hsame <;> rw [hsame]
      · exact hs.toLedger
      · exact hs.toLedger.unregisterSession peerId
  | complete x op ok msg =>
      obtain ⟨-, hmem, hhandled⟩ := step_complete h
      have hdelivered : Ledger env store (s.deliver x op ok msg) := by
        refine hs.toLedger.act fun n hn _ _ => grounds_of_isArrival ?_
        unfold Session.deliverNotes at hn
        split at hn <;> split at hn <;> simp at hn
        · rcases hn with rfl | rfl <;> rfl
        · subst hn
          rfl
        · subst hn
          rfl
      refine hhandled.ledger hdelivered fun hphase hpending hok => ?_
      have hrequest : ((s.deliver x op ok msg).sessions x) =
          (s.sessions x).deliver op ok msg := by simp [Server.deliver]
      rw [hrequest] at hphase hpending ⊢
      exact mem_history.mp (hs.request_received msg hmem hphase hpending hok)

theorem Trusted.unheard_step {s t : Server} {e : Event} (hs : Trusted env store s)
    (h : s.step env store e = some t) :
    ∀ x, (∀ msg, Note.received msg ∉ t.history x) → Unheard (t.sessions x) := by
  intro x hnone
  rcases step_session hs.fresh h x with
    ⟨op, ok, msg, rfl, hmem, notes, hhistory, hhandled⟩ | ⟨hother, notes, hhistory, hdisturbed⟩
  · have hnone' : ∀ msg', Note.received msg' ∉ s.history x := fun msg' hmsg' =>
      hnone msg' (by rw [hhistory]; simp [hmsg'])
    refine (hs.unheard x hnone').handled hmem ?_ hhandled
    rintro ⟨rfl, rfl⟩
    refine hnone msg ?_
    rw [hhistory, List.mem_append, List.mem_append]
    exact Or.inl (Or.inr (received_mem_deliverNotes.mpr ⟨rfl, rfl, rfl⟩))
  · have hnone' : ∀ msg', Note.received msg' ∉ s.history x := fun msg' hmsg' =>
      hnone msg' (by rw [hhistory]; simp [hmsg'])
    have hunheard := hs.unheard x hnone'
    -- The router knows only sessions that have read a message.
    have hunknown : ∀ peerId, s.byPeer.lookup peerId ≠ some x := by
      intro peerId hlookup
      obtain ⟨msg, hmsg, -⟩ := hs.registered peerId x hlookup
      obtain ⟨pre, post, hlog, hread, -⟩ := hs.justified.of_mem hmsg
      refine hnone' msg (mem_history.mpr ?_)
      rw [hlog]
      exact List.mem_append_left _ hread
    rcases step_forwarded h hother with hsame | rfl | ⟨peerId, hlookup⟩
    · rwa [hsame]
    · rw [(hs.fresh s.created le_rfl).1] at hdisturbed
      generalize t.sessions s.created = y' at hdisturbed ⊢
      cases hdisturbed with
      | idle => exact unheard_create
      | forwarded _ _ hactive => simp [Session.create] at hactive
      | primed => exact unheard_prime
    · exact absurd hlookup (hunknown peerId)

theorem Trusted.request_step {s t : Server} {e : Event} (hs : Trusted env store s)
    (h : s.step env store e = some t) :
    ∀ x msg, Note.received msg ∈ t.history x →
      Note.received (t.sessions x).request ∈ t.history x := by
  intro x msg' hmsg'
  rcases step_session hs.fresh h x with
    ⟨op, ok, msg, rfl, hmem, notes, hhistory, hhandled⟩ | ⟨-, notes, hhistory, hdisturbed⟩
  · rw [hhistory, List.mem_append, List.mem_append] at hmsg'
    rw [hhandled.request_eq, hhistory, List.mem_append, List.mem_append]
    left
    by_cases hread : op = .read ∧ ok = true
    · right
      rw [received_mem_deliverNotes]
      exact ⟨hread.1, hread.2, by simp [Session.deliver, hread]⟩
    · left
      rcases hmsg' with (hold | hnew) | hnotes
      · rw [show ((s.sessions x).deliver op ok msg).request = (s.sessions x).request by
          simp [Session.deliver, hread]]
        exact hs.request x msg' hold
      · obtain ⟨hr, hok, -⟩ := received_mem_deliverNotes.mp hnew
        exact absurd ⟨hr, hok⟩ hread
      · exact absurd (hhandled.no_arrival hnotes) (by simp [Note.isArrival])
  · rw [hhistory, List.mem_append] at hmsg'
    rw [hdisturbed.request_eq, hhistory, List.mem_append]
    rcases hmsg' with hold | hnotes
    · exact Or.inl (hs.request x msg' hold)
    · exact absurd (hdisturbed.no_arrival hnotes) (by simp [Note.isArrival])

theorem Trusted.queued_step {s t : Server} {e : Event} (hs : Trusted env store s)
    (h : s.step env store e = some t) :
    ∀ x, ∀ msg ∈ (t.sessions x).outbound, Note.accepted msg ∈ t.history x := by
  intro x msg' hmsg'
  rcases step_session hs.fresh h x with
    ⟨op, ok, msg, rfl, hmem, notes, hhistory, hhandled⟩ | ⟨-, notes, hhistory, hdisturbed⟩
  · rw [hhistory, List.mem_append, List.mem_append]
    rcases hhandled.mem_outbound hmsg' with hold | hnew
    · exact Or.inl (Or.inl (hs.queued x msg' hold))
    · exact Or.inr hnew
  · rw [hhistory, List.mem_append]
    rcases hdisturbed.mem_outbound hmsg' with hold | hnew
    · exact Or.inl (hs.queued x msg' hold)
    · exact Or.inr hnew

theorem Trusted.step {s t : Server} {e : Event} (hs : Trusted env store s)
    (h : s.step env store e = some t) : Trusted env store t :=
  ⟨hs.ledger_step h, hs.fresh.step h, hs.unheard_step h, hs.request_step h, hs.queued_step h⟩

theorem trusted_start : Trusted env store Server.start := by
  refine ⟨⟨justified_nil _, fun peerId x hx => ?_⟩, fresh_start, fun x _ => ?_,
    fun x msg hmem => absurd hmem List.not_mem_nil, fun x msg hmem => ?_⟩
  · unfold Server.start at hx
    rw [AList.lookup_empty] at hx
    cases hx
  · unfold Server.start
    dsimp only
    by_cases hx : x = 0
    · subst hx
      simpa using unheard_prime
    · simpa [hx] using unheard_create
  · have hnone : (Server.start.sessions x).outbound = [] := by
      unfold Server.start
      dsimp only
      by_cases hx : x = 0
      · subst hx
        rfl
      · simp [hx, Session.create]
    rw [hnone] at hmem
    exact absurd hmem List.not_mem_nil

theorem trusted_run {es : List Event} {s : Server}
    (hrun : run (Server.step env store) Server.start es = some s) : Trusted env store s :=
  run_invariant (fun _ _ _ hs hstep => hs.step hstep) trusted_start hrun

/-- The queue of a session holds accepted messages only. Every accepted message
has been read from a client before and verifies under its sender's key. If it is for
this server, the session has read it from its own stream; if it is for a peer, the
session had admitted a message of that peer. -/
theorem accepted_message_grounds (env : AuthEnv κ) (store : AuthStore κ) (es : List Event)
    (s : Server) (hrun : run (Server.step env store) Server.start es = some s) :
    (∀ x, ∀ msg ∈ (s.sessions x).outbound, (x, .accepted msg) ∈ s.log) ∧
    ∀ pre post x msg, s.log = pre ++ (x, .accepted msg) :: post →
      Verifies env store msg ∧ ∃ data, env.parseMessageData msg.data = some data ∧
        ∃ z, (z, .received msg) ∈ pre ∧
          ((data.recipientId = [] ∨ store.isSelf data.recipientId = true) ∧ z = x ∨
            (data.recipientId ≠ [] ∧ store.isSelf data.recipientId = false) ∧
              ∃ msg', (x, .authenticated msg' true) ∈ pre ∧
                msg'.senderId = data.recipientId) := by
  have hs : Trusted env store s := trusted_run hrun
  refine ⟨fun x msg hmem => mem_history.mp (hs.queued x msg hmem), ?_⟩
  intro pre post x msg hlog
  exact hs.justified pre _ post hlog

end Run

/-- A message of the peer 1 for the server itself. -/
theorem accepted_message_grounds_sample :
    Verifies sampleEnv sampleStore (signedBy [1] [9]) :=
  ((accepted_message_grounds sampleEnv sampleStore
    [.complete 0 .request true default, .complete 0 .read true (signedBy [1] [9])] _ rfl).2
    [(0, .received (signedBy [1] [9])), (0, .completed .read .read),
      (0, .authenticated (signedBy [1] [9]) true), (0, .dispatched (signedBy [1] [9]))]
    [(0, .written (signedBy [1] [9]))] 0 (signedBy [1] [9]) rfl).1

end Message

end DistStorage
