import DistStorage.Message.StreamTrust

/-!
# Clients that replay messages

The server forwards a message as it is and registers a stream under the sender of
any message that verifies. So a client that has received a message of a peer can
send it on a stream of its own and is then registered as that peer: nothing in a
message ties it to a stream or to a time. What is left is that the server has
written a message of the peer to a stream of that client before.

`opener x` is the client that has opened the stream of the session `x`, named by
the peer id of its key.
-/

namespace DistStorage

namespace Message

open Proto Peer Transition

/-- The message has been written to a stream of the client. -/
def WrittenTo (opener : ℕ → Bytes) (log : List (ℕ × Note)) (client : Bytes)
    (msg : SignedMessage) : Prop :=
  ∃ entry ∈ log, opener entry.1 = client ∧ entry.2 = .written msg

instance (opener : ℕ → Bytes) (log : List (ℕ × Note)) (client : Bytes) (msg : SignedMessage) :
    Decidable (WrittenTo opener log client msg) :=
  inferInstanceAs (Decidable (∃ entry ∈ log, _ ∧ _))

theorem WrittenTo.mono {opener : ℕ → Bytes} {log log' : List (ℕ × Note)} {client : Bytes}
    {msg : SignedMessage} (h : WrittenTo opener log client msg) (hsub : log ⊆ log') :
    WrittenTo opener log' client msg := by
  obtain ⟨entry, hmem, hentry⟩ := h
  exact ⟨entry, hsub hmem, hentry⟩

section Run

variable {κ : Type*} (env : AuthEnv κ) (store : AuthStore κ) (opener : ℕ → Bytes)

/-- A client sends what it has signed itself or has received from the server: a
message that verifies is from the client that opened the stream, or has been
written to a stream of that client before. -/
def SentByClient (s : Server) : Event → Prop
  | .complete x op ok msg =>
      op = .read → ok = true → Verifies env store msg →
        msg.senderId = opener x ∨ WrittenTo opener s.log (opener x) msg
  | .getChannel _ => True

instance (s : Server) : (e : Event) → Decidable (SentByClient env store opener s e)
  | .complete x op ok msg =>
      inferInstanceAs (Decidable (op = .read → ok = true → Verifies env store msg →
        msg.senderId = opener x ∨ WrittenTo opener s.log (opener x) msg))
  | .getChannel _ => .isTrue trivial

/-- Every message read was sent by a client in that way. -/
def ReadGrounds (pre : List (ℕ × Note)) : ℕ × Note → Prop
  | (x, .received msg) =>
      Verifies env store msg → msg.senderId = opener x ∨ WrittenTo opener pre (opener x) msg
  | _ => True

variable {env store opener}

theorem readGrounds_of_no_arrival {pre : List (ℕ × Note)} {x : ℕ} {n : Note}
    (h : n.isArrival = false) : ReadGrounds env store opener pre (x, n) := by
  cases n <;> trivial

theorem Delivery.log {s t : Server} {x : ℕ} {req : SignedMessage} {data : MessageData}
    (h : Delivery store s x req data t) :
    ∃ es, t.log = s.log ++ es ∧ ∀ e ∈ es, e.2.isArrival = false := by
  have hact : ∀ z : ℕ, ∀ e ∈ ((s.sessions z).enqueueOutgoing req).2.map (z, ·),
      e.2.isArrival = false := by
    intro z e he
    obtain ⟨n, hn, rfl⟩ := List.mem_map.mp he
    exact isArrival_enqueueOutgoing hn
  cases h with
  | deliverLocal => exact ⟨_, act_log _ _ _, hact x⟩
  | forwarded _ _ z => exact ⟨_, act_log _ _ _, hact z⟩
  | unknown => exact ⟨[], (List.append_nil _).symm, fun e he => absurd he List.not_mem_nil⟩
  | stale => exact ⟨[], (List.append_nil _).symm, fun e he => absurd he List.not_mem_nil⟩

theorem Handled.log {s t : Server} {x : ℕ} {running : Bool}
    (h : Handled env store s x running t) :
    ∃ es, t.log = s.log ++ es ∧ ∀ e ∈ es, e.2.isArrival = false := by
  have hsame : ∀ {u : Server}, u.log = s.log →
      ∃ es, u.log = s.log ++ es ∧ ∀ e ∈ es, e.2.isArrival = false := fun hlog =>
    ⟨[], by rw [hlog, List.append_nil], fun e he => absurd he List.not_mem_nil⟩
  have hsending : ∀ {notes : List Note}, (∀ n ∈ notes, n.isSending = true) →
      ∀ e ∈ notes.map (x, ·), e.2.isArrival = false := by
    intro notes hnotes e he
    obtain ⟨n, hn, rfl⟩ := List.mem_map.mp he
    exact isArrival_of_isSending (hnotes n hn)
  cases h with
  | initial => exact hsame (by simp)
  | connectFailed => exact hsame (by simp [Server.onStreamConnectFailed])
  | connected => exact hsame (by simp [Server.cloneAcceptorForNextRequest])
  | readClosed =>
      refine ⟨((s.sessions x).deactivated.closeAfterReads).2.map (x, ·), ?_,
        hsending fun n hn => closeAfterReads_notes hn⟩
      simp [Server.beginShutdownAfterReadClosed]
  | rejected =>
      refine ⟨(x, .authenticated (s.sessions x).request false) ::
        ((s.sessions x).deactivated.closeWithStatus .rejected).2.map (x, ·), ?_, ?_⟩
      · simp [Server.shutdownWithStatus]
      · rw [List.forall_mem_cons]
        exact ⟨rfl, hsending fun n hn => closeWithStatus_notes hn⟩
  | taken _ _ _ data _ u hdelivery =>
      obtain ⟨es, hlog, hes⟩ := hdelivery.log
      refine ⟨(x, .authenticated (s.sessions x).request true) ::
        (x, .dispatched (s.sessions x).request) :: es, ?_, ?_⟩
      · rw [modify_log, hlog, admit_log, List.append_assoc]
        rfl
      · rw [List.forall_mem_cons, List.forall_mem_cons]
        exact ⟨rfl, rfl, hes⟩
  | writeDone _ _ r hwrite =>
      exact ⟨_, act_log _ _ _, hsending fun n hn => handleWriteCompletion_notes hwrite hn⟩
  | finished => exact hsame (by simp [Server.completeAfterStreamFinish])

theorem readGrounds_step {s t : Server} {e : Event}
    (hs : Justified (ReadGrounds env store opener) s.log)
    (hsent : SentByClient env store opener s e) (h : s.step env store e = some t) :
    Justified (ReadGrounds env store opener) t.log := by
  cases e with
  | getChannel peerId =>
      obtain rfl : (s.getChannel peerId).1 = t := Option.some.inj h
      rcases getChannel_eq s peerId with hsame | hsame <;> rw [hsame] <;> exact hs
  | complete x op ok msg =>
      obtain ⟨es, hlog, hes⟩ := (step_complete h).2.2.log
      rw [hlog]
      refine Justified.append (hs.append ?_) fun e he pre _ => readGrounds_of_no_arrival (hes e he)
      intro e he pre hpre
      obtain ⟨n, hn, rfl⟩ := List.mem_map.mp he
      cases n with
      | received msg' =>
          obtain ⟨hop, hok, rfl⟩ := received_mem_deliverNotes.mp hn
          intro hverifies
          exact (hsent hop hok hverifies).imp_right fun hwritten => hwritten.mono hpre.subset
      | _ => trivial

/-- An admitted message is from the client of the stream, or the server had written
it to a stream of that client before. -/
theorem admitted_by_client {s : Server} (hs : Ledger env store s)
    (hread : Justified (ReadGrounds env store opener) s.log) {x : ℕ} {msg : SignedMessage}
    {pre post : List (ℕ × Note)} (hlog : s.log = pre ++ (x, .authenticated msg true) :: post) :
    msg.senderId = opener x ∨ WrittenTo opener pre (opener x) msg := by
  obtain ⟨hreceived, hverifies⟩ := hs.justified pre _ post hlog
  obtain ⟨pre', post', rfl⟩ := List.append_of_mem hreceived
  have hgrounds := hread pre' (x, .received msg)
    (post' ++ (x, .authenticated msg true) :: post) (by rw [hlog]; simp)
  exact (hgrounds hverifies).imp_right fun hwritten =>
    hwritten.mono (List.subset_append_left _ _)

/-- When clients only send their own messages and those they have received, the
entry of a peer is a stream of that peer, or of a client to which the server had
written a message of the peer before it was registered. So a message for a peer is
queued only on such streams. -/
theorem registered_stream_opener (env : AuthEnv κ) (store : AuthStore κ) (opener : ℕ → Bytes)
    (es : List Event) (s : Server)
    (hrun : run (Server.step env store) Server.start es = some s)
    (hsent : AllSteps (Server.step env store) (SentByClient env store opener) Server.start es) :
    (∀ peerId x, s.byPeer.lookup peerId = some x →
      ∃ pre post msg, s.log = pre ++ (x, .authenticated msg true) :: post ∧
        msg.senderId = peerId ∧
        (opener x = peerId ∨ WrittenTo opener pre (opener x) msg)) ∧
    ∀ pre post x msg data, s.log = pre ++ (x, .accepted msg) :: post →
      env.parseMessageData msg.data = some data → data.recipientId ≠ [] →
      store.isSelf data.recipientId = false →
      opener x = data.recipientId ∨
        ∃ msg', msg'.senderId = data.recipientId ∧ WrittenTo opener pre (opener x) msg' := by
  have hs : Trusted env store s := trusted_run hrun
  have hread : Justified (ReadGrounds env store opener) s.log :=
    run_invariant_of_allSteps (I := fun s => Justified (ReadGrounds env store opener) s.log)
      (fun _ _ _ hs he hstep => readGrounds_step hs he hstep) (justified_nil _) hsent hrun
  constructor
  · intro peerId x hlookup
    obtain ⟨msg, hmem, hsender⟩ := hs.registered peerId x hlookup
    obtain ⟨pre, post, hlog⟩ := List.append_of_mem hmem
    refine ⟨pre, post, msg, hlog, hsender, ?_⟩
    rw [← hsender]
    exact (admitted_by_client hs.toLedger hread hlog).imp_left Eq.symm
  · intro pre post x msg data hlog hparse hne hself
    obtain ⟨-, data', hparse', z, -, hfor⟩ := hs.justified pre _ post hlog
    obtain rfl : data' = data := Option.some.inj (hparse'.symm.trans hparse)
    rcases hfor with ⟨hlocal, -⟩ | ⟨-, msg', hmem, hsender⟩
    · rcases hlocal with hnil | hself'
      · exact absurd hnil hne
      · simp [hself] at hself'
    · obtain ⟨pre', post', rfl⟩ := List.append_of_mem hmem
      have hlog' : s.log = pre' ++ (x, .authenticated msg' true) ::
          (post' ++ (x, .accepted msg) :: post) := by
        rw [hlog]
        simp
      rcases admitted_by_client hs.toLedger hread hlog' with hopener | hwritten
      · exact Or.inl (hopener.symm.trans hsender)
      · exact Or.inr ⟨msg', hsender, hwritten.mono (List.subset_append_left _ _)⟩

end Run

/-- The clients of the sessions below: the peers 1, 2, 2 and 3. -/
def sampleOpener : ℕ → Bytes
  | 0 => [1]
  | 1 => [2]
  | 2 => [2]
  | _ => [3]

/-- Peer 2 is registered on its first stream, peer 1 sends it a message, and peer 2
sends that message back on its second stream. Then peer 3 sends one for peer 1. -/
def replayRun : List Event :=
  [.complete 0 .request true default, .complete 1 .request true default,
    .complete 1 .read true (signedBy [2] [8]), .complete 0 .read true (signedBy [1] [2]),
    .complete 2 .request true default, .complete 2 .read true (signedBy [1] [2]),
    .complete 3 .request true default, .complete 3 .read true (signedBy [3] [1])]

theorem registered_stream_opener_sample :
    ∃ s, run (Server.step sampleEnv sampleStore) Server.start replayRun = some s ∧
      ∀ peerId x, s.byPeer.lookup peerId = some x →
        ∃ pre post msg, s.log = pre ++ (x, .authenticated msg true) :: post ∧
          msg.senderId = peerId ∧
          (sampleOpener x = peerId ∨ WrittenTo sampleOpener pre (sampleOpener x) msg) :=
  ⟨_, rfl, (registered_stream_opener sampleEnv sampleStore sampleOpener replayRun _ rfl
    (by decide)).1⟩

/-- Peer 1 is then registered on the second stream of peer 2, where the message of
peer 3 for peer 1 is queued. -/
theorem replayed_message_takes_registration :
    AllSteps (Server.step sampleEnv sampleStore)
        (SentByClient sampleEnv sampleStore sampleOpener) Server.start replayRun ∧
      ∃ s, run (Server.step sampleEnv sampleStore) Server.start replayRun = some s ∧
        s.byPeer.lookup [1] = some 2 ∧ sampleOpener 2 ≠ [1] ∧
        signedBy [3] [1] ∈ (s.sessions 2).outbound :=
  ⟨by decide, _, rfl, by decide, by decide, by decide⟩

end Message

end DistStorage
