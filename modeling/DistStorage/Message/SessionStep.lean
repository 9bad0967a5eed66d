import DistStorage.Message.StreamStep

/-!
# A step seen from one session

`SessionHandled` lists what the completion of its own operation does to a
session, and `Disturbed` what the completions of the others do to it: nothing,
its creation, or a message forwarded to it while it is active. Both give the
new session and the notes it adds to its history.
-/

namespace DistStorage

namespace Message

open Proto Peer

/-- What a session undergoes in the steps of the other sessions. -/
inductive Disturbed : Session → Session → List Note → Prop
  | idle (y : Session) : Disturbed y y []
  | forwarded (y : Session) (msg : SignedMessage) (hactive : y.sessionActive = true) :
      Disturbed y (y.enqueueOutgoing msg).1 (y.enqueueOutgoing msg).2
  | primed : Disturbed Session.create Session.prime []

/-- The session part of a taken message: it is registered, and queued here when
it is delivered locally or routed back to its own stream. -/
def Session.take (y : Session) (looped : Bool) : Session × List Note :=
  let y' := { y with registeredPeerId := y.request.senderId }
  if looped then y'.enqueueOutgoing y.request else (y', [])

/-- What a session does with a completion that has been delivered to it. -/
inductive SessionHandled (authentic : SignedMessage → Bool) (y : Session) (running : Bool) :
    Session → List Note → Prop
  | initial (hphase : y.streamConnectPhase = .initial) :
      SessionHandled authentic y running y.acceptNext []
  | connectFailed (hphase : y.streamConnectPhase = .accepted) (hrunning : running = false) :
      SessionHandled authentic y running { y.deactivated with selfRef := false } []
  | connected (hphase : y.streamConnectPhase = .accepted) (hrunning : running = true) :
      SessionHandled authentic y running
        { y with streamConnectPhase := .streaming }.onStreamRpcConnected []
  | readClosed (hphase : y.streamConnectPhase = .streaming) (hpending : y.pending = .read)
      (hrunning : running = false) :
      SessionHandled authentic y running y.deactivated.closeAfterReads.1
        y.deactivated.closeAfterReads.2
  | rejected (hphase : y.streamConnectPhase = .streaming) (hpending : y.pending = .read)
      (hrunning : running = true) (hauth : authentic y.request = false) :
      SessionHandled authentic y running (y.deactivated.closeWithStatus .rejected).1
        (.authenticated y.request false :: (y.deactivated.closeWithStatus .rejected).2)
  | taken (hphase : y.streamConnectPhase = .streaming) (hpending : y.pending = .read)
      (hrunning : running = true) (hauth : authentic y.request = true) (looped : Bool) :
      SessionHandled authentic y running (y.take looped).1.readNext
        (.authenticated y.request true :: .dispatched y.request :: (y.take looped).2)
  | writeDone (hphase : y.streamConnectPhase = .streaming) (hpending : y.pending = .write)
      (r : Session × List Note) (hwrite : y.handleWriteCompletion running = some r) :
      SessionHandled authentic y running r.1 r.2
  | finished (hphase : y.streamConnectPhase = .streaming) (hpending : y.pending = .finish) :
      SessionHandled authentic y running { y.deactivated with selfRef := false } []

theorem isArrival_of_isSending {n : Note} (h : n.isSending = true) : n.isArrival = false := by
  cases n <;> simp_all [Note.isSending, Note.isArrival]

theorem isArrival_enqueueOutgoing {y : Session} {msg : SignedMessage} {n : Note}
    (hn : n ∈ (y.enqueueOutgoing msg).2) : n.isArrival = false := by
  rcases enqueueOutgoing_notes hn with rfl | hsending
  · rfl
  · exact isArrival_of_isSending hsending

theorem SessionHandled.no_arrival {authentic : SignedMessage → Bool} {y y' : Session}
    {running : Bool} {notes : List Note} (h : SessionHandled authentic y running y' notes)
    {n : Note} (hn : n ∈ notes) : n.isArrival = false := by
  cases h with
  | initial | connectFailed | connected | finished => exact absurd hn List.not_mem_nil
  | readClosed => exact isArrival_of_isSending (closeAfterReads_notes hn)
  | rejected =>
      rcases List.mem_cons.mp hn with rfl | hn
      · rfl
      · exact isArrival_of_isSending (closeWithStatus_notes hn)
  | taken _ _ _ _ looped =>
      rcases List.mem_cons.mp hn with rfl | hn
      · rfl
      rcases List.mem_cons.mp hn with rfl | hn
      · rfl
      cases looped with
      | false => exact absurd hn List.not_mem_nil
      | true => exact isArrival_enqueueOutgoing hn
  | writeDone _ _ r hwrite =>
      exact isArrival_of_isSending (handleWriteCompletion_notes hwrite hn)

theorem Disturbed.no_arrival {y y' : Session} {notes : List Note} (h : Disturbed y y' notes)
    {n : Note} (hn : n ∈ notes) : n.isArrival = false := by
  cases h with
  | idle | primed => exact absurd hn List.not_mem_nil
  | forwarded => exact isArrival_enqueueOutgoing hn

/-- Sessions that have not been created are as their constructor leaves them. -/
def Fresh (s : Server) : Prop :=
  ∀ x, s.created ≤ x → s.sessions x = Session.create ∧ s.history x = []

section Step

variable {κ : Type*} {env : AuthEnv κ} {store : AuthStore κ}

theorem Fresh.act {s : Server} (hs : Fresh s) {x : ℕ} (hx : x < s.created)
    (r : Session × List Note) : Fresh (s.act x r) := by
  intro z hz
  have hne : z ≠ x := by
    rintro rfl
    exact absurd hz (not_le.mpr hx)
  rw [act_sessions, Function.update_of_ne hne, history_act_ne s hne]
  exact hs z hz

theorem Fresh.congr {s t : Server} (hs : Fresh s) (hsessions : t.sessions = s.sessions)
    (hcreated : t.created = s.created) (hlog : t.log = s.log) : Fresh t := by
  intro z hz
  rw [hsessions, history_eq_of_log_eq hlog]
  exact hs z (hcreated ▸ hz)

theorem Fresh.lt_created {s : Server} (hs : Fresh s) {x : ℕ}
    (hx : s.sessions x ≠ Session.create) : x < s.created := by
  by_contra hle
  exact hx (hs x (not_lt.mp hle)).1

theorem Fresh.lt_of_active {s : Server} (hs : Fresh s) {x : ℕ}
    (hx : (s.sessions x).sessionActive = true) : x < s.created :=
  hs.lt_created fun h => by simp [h, Session.create] at hx

theorem Fresh.lt_of_mem {s : Server} (hs : Fresh s) {x : ℕ} {op : StreamOp}
    (hx : op ∈ (s.sessions x).outstanding) : x < s.created :=
  hs.lt_created fun h => by simp [h, Session.create] at hx

theorem Fresh.deliver {s : Server} (hs : Fresh s) {x : ℕ} {op : StreamOp}
    (hx : op ∈ (s.sessions x).outstanding) (ok : Bool) (msg : SignedMessage) :
    Fresh (s.deliver x op ok msg) :=
  hs.act (hs.lt_of_mem hx) _

theorem Fresh.deactivate {s : Server} (hs : Fresh s) {x : ℕ} (hx : x < s.created) :
    Fresh (s.deactivate x) := by
  unfold Server.deactivate Server.unregisterIfRegistered
  split
  · exact Fresh.act ((hs.act hx _).congr rfl rfl rfl) hx _
  · exact hs.act hx _

theorem Fresh.admitSender {s : Server} (hs : Fresh s) {x : ℕ} (hx : x < s.created) :
    Fresh (s.admitSender x) :=
  (((hs.act hx _).congr rfl rfl rfl).act hx _).act hx _

theorem admit_sessions (s : Server) (x : ℕ) :
    (s.admitSender x).sessions = Function.update s.sessions x
      { s.sessions x with registeredPeerId := (s.sessions x).request.senderId } := by
  simp [Server.admitSender]

theorem admit_history (s : Server) (x z : ℕ) :
    (s.admitSender x).history z = s.history z ++
      if z = x then [.authenticated (s.sessions x).request true,
        .dispatched (s.sessions x).request] else [] := by
  unfold Server.admitSender Server.note Server.modify
  rw [history_act, history_act, history_eq_of_log_eq (registerSession_log _ _ _), history_act]
  split <;> simp

@[simp] theorem admit_created (s : Server) (x : ℕ) : (s.admitSender x).created = s.created := rfl

/-- A delivery changes one session at most: it queues the message there. -/
theorem Delivery.session {s t : Server} {x : ℕ} {req : SignedMessage} {data : MessageData}
    (h : Delivery store s x req data t) (z : ℕ) :
    (t.sessions z = s.sessions z ∧ t.history z = s.history z) ∨
    (z = x ∨ (s.sessions z).sessionActive = true) ∧
      t.sessions z = ((s.sessions z).enqueueOutgoing req).1 ∧
      t.history z = s.history z ++ ((s.sessions z).enqueueOutgoing req).2 := by
  cases h with
  | deliverLocal =>
      by_cases hzx : z = x
      · subst hzx
        exact Or.inr ⟨Or.inl rfl, by simp, by simp⟩
      · exact Or.inl ⟨by simp [hzx], history_act_ne s hzx _⟩
  | forwarded _ _ w _ hactive =>
      by_cases hzw : z = w
      · subst hzw
        exact Or.inr ⟨Or.inr hactive, by simp, by simp⟩
      · exact Or.inl ⟨by simp [hzw], history_act_ne s hzw _⟩
  | unknown => exact Or.inl ⟨rfl, rfl⟩
  | stale => exact Or.inl ⟨rfl, rfl⟩

theorem Delivery.fresh {s t : Server} {x : ℕ} {req : SignedMessage} {data : MessageData}
    (h : Delivery store s x req data t) (hs : Fresh s) (hx : x < s.created) :
    Fresh t ∧ t.created = s.created := by
  cases h with
  | deliverLocal => exact ⟨hs.act hx _, rfl⟩
  | forwarded _ _ z _ hactive => exact ⟨hs.act (hs.lt_of_active hactive) _, rfl⟩
  | unknown => exact ⟨hs, rfl⟩
  | stale => exact ⟨hs.congr rfl rfl rfl, rfl⟩

theorem Fresh.clone {s : Server} (hs : Fresh s) : Fresh (s.cloneAcceptorForNextRequest true) := by
  intro z hz
  have hlt : s.created < z := hz
  change (s.act s.created (Session.prime, [])).sessions z = _ ∧
    (s.act s.created (Session.prime, [])).history z = _
  rw [act_sessions, Function.update_of_ne hlt.ne', history_act_ne s hlt.ne']
  exact hs z hlt.le

theorem Handled.fresh {s t : Server} {x : ℕ} {running : Bool}
    (h : Handled env store s x running t) (hs : Fresh s) (hx : x < s.created) : Fresh t := by
  cases h with
  | initial => exact hs.act hx _
  | connectFailed =>
      refine (hs.deactivate hx).act ?_ _
      rwa [deactivate_created]
  | connected =>
      refine Fresh.act (Fresh.clone (hs.act hx _)) ?_ _
      exact hx.trans (Nat.lt_succ_self _)
  | readClosed =>
      refine (hs.deactivate hx).act ?_ _
      rwa [deactivate_created]
  | rejected =>
      refine Fresh.act (Fresh.deactivate (hs.act hx _) hx) ?_ _
      rwa [deactivate_created]
  | taken _ _ _ data _ u hdelivery =>
      obtain ⟨hfresh, hcreated⟩ := hdelivery.fresh (hs.admitSender hx) hx
      refine hfresh.act ?_ _
      rw [hcreated]
      exact hx
  | writeDone => exact hs.act hx _
  | finished =>
      refine (hs.deactivate hx).act ?_ _
      rwa [deactivate_created]

theorem Handled.session {s t : Server} {x : ℕ} {running : Bool}
    (h : Handled env store s x running t) (hx : x < s.created) :
    ∃ notes, t.history x = s.history x ++ notes ∧
      SessionHandled (Authentic env store) (s.sessions x) running (t.sessions x) notes := by
  have hdeact : ∀ z, (s.deactivate x).history z = s.history z :=
    history_eq_of_log_eq (deactivate_log s x)
  cases h with
  | initial hphase =>
      refine ⟨[], history_act_self s x _, ?_⟩
      simpa using .initial hphase
  | connectFailed hphase hrunning =>
      refine ⟨[], ?_, ?_⟩
      · exact (history_act_self _ x _).trans (by rw [hdeact])
      · simpa [Server.onStreamConnectFailed] using .connectFailed hphase hrunning
  | connected hphase hrunning =>
      have hne : x ≠ s.created := hx.ne
      refine ⟨[], ?_, ?_⟩
      · refine (history_act_self _ x _).trans ?_
        change (((s.modify x _).act s.created _).history x) ++ _ = _
        rw [history_act_ne _ hne, Server.modify, history_act_self]
        simp
      · simpa [Server.cloneAcceptorForNextRequest, hne] using .connected hphase hrunning
  | readClosed hphase hpending hrunning =>
      refine ⟨(s.sessions x).deactivated.closeAfterReads.2, ?_, ?_⟩
      · simp [Server.beginShutdownAfterReadClosed, hdeact]
      · simpa [Server.beginShutdownAfterReadClosed] using
          .readClosed hphase hpending hrunning
  | rejected hphase hpending hrunning hauth =>
      refine ⟨.authenticated (s.sessions x).request false ::
        ((s.sessions x).deactivated.closeWithStatus .rejected).2, ?_, ?_⟩
      · simp [Server.shutdownWithStatus, history_eq_of_log_eq (deactivate_log _ x),
          Server.note]
      · simpa [Server.shutdownWithStatus] using .rejected hphase hpending hrunning hauth
  | taken hphase hpending hrunning data hauth u hdelivery =>
      have hauth' : Authentic env store (s.sessions x).request = true := by
        simp [Authentic, hauth]
      have hadmit : (s.admitSender x).sessions x =
          { s.sessions x with registeredPeerId := (s.sessions x).request.senderId } := by
        simp [admit_sessions]
      have hhistory := admit_history s x x
      rw [if_pos rfl] at hhistory
      rcases hdelivery.session x with ⟨hsession, hnotes⟩ | ⟨-, hsession, hnotes⟩
      · refine ⟨.authenticated (s.sessions x).request true ::
          .dispatched (s.sessions x).request :: ((s.sessions x).take false).2, ?_, ?_⟩
        · rw [Server.modify, history_act_self, hnotes, hhistory, List.append_nil]
          rfl
        · rw [modify_sessions, Function.update_self, hsession, hadmit]
          exact .taken hphase hpending hrunning hauth' false
      · refine ⟨.authenticated (s.sessions x).request true ::
          .dispatched (s.sessions x).request :: ((s.sessions x).take true).2, ?_, ?_⟩
        · rw [Server.modify, history_act_self, hnotes, hhistory, hadmit, List.append_nil,
            List.append_assoc]
          rfl
        · rw [modify_sessions, Function.update_self, hsession, hadmit]
          exact .taken hphase hpending hrunning hauth' true
  | writeDone hphase hpending r hwrite =>
      refine ⟨r.2, history_act_self s x r, ?_⟩
      simpa using .writeDone hphase hpending r hwrite
  | finished hphase hpending =>
      refine ⟨[], ?_, ?_⟩
      · exact (history_act_self _ x _).trans (by rw [hdeact])
      · simpa [Server.completeAfterStreamFinish] using .finished hphase hpending

theorem Handled.disturbed {s t : Server} {x z : ℕ} {running : Bool}
    (h : Handled env store s x running t) (hs : Fresh s) (hzx : z ≠ x) :
    ∃ notes, t.history z = s.history z ++ notes ∧
      Disturbed (s.sessions z) (t.sessions z) notes := by
  have hidle : ∀ {u : Server}, u.history z = s.history z → u.sessions z = s.sessions z →
      ∃ notes, u.history z = s.history z ++ notes ∧
        Disturbed (s.sessions z) (u.sessions z) notes := by
    intro u hhistory hsession
    exact ⟨[], by rw [hhistory, List.append_nil], by rw [hsession]; exact .idle _⟩
  have hdeact : ∀ u : Server, (u.deactivate x).history z = u.history z := fun u =>
    history_eq_of_log_eq (deactivate_log u x) z
  cases h with
  | initial => exact hidle (history_act_ne s hzx _) (by simp [hzx])
  | connectFailed =>
      exact hidle ((history_act_ne _ hzx _).trans (hdeact s))
        (by simp [Server.onStreamConnectFailed, hzx])
  | connected =>
      by_cases hz : z = s.created
      · subst hz
        obtain ⟨hcreate, hempty⟩ := hs s.created le_rfl
        refine ⟨[], ?_, ?_⟩
        · refine (history_act_ne _ hzx _).trans ?_
          change ((s.modify x _).act s.created _).history s.created = _
          rw [history_act_self, Server.modify, history_act_ne _ hzx]
        · rw [hcreate]
          simpa [Server.cloneAcceptorForNextRequest, hzx] using Disturbed.primed
      · refine hidle ?_ (by simp [Server.cloneAcceptorForNextRequest, hzx, hz])
        refine (history_act_ne _ hzx _).trans ?_
        change ((s.modify x _).act s.created _).history z = _
        rw [history_act_ne _ hz, Server.modify, history_act_ne _ hzx]
  | readClosed =>
      exact hidle ((history_act_ne _ hzx _).trans (hdeact s))
        (by simp [Server.beginShutdownAfterReadClosed, hzx])
  | rejected =>
      exact hidle ((history_act_ne _ hzx _).trans
          ((hdeact _).trans (history_act_ne s hzx _)))
        (by simp [Server.shutdownWithStatus, hzx])
  | taken _ _ _ data _ u hdelivery =>
      have hsession : (s.admitSender x).sessions z = s.sessions z := by
        simp [admit_sessions, hzx]
      have hhistory : (s.admitSender x).history z = s.history z := by
        rw [admit_history, if_neg hzx, List.append_nil]
      have hmodify : (u.modify x Session.readNext).history z = u.history z :=
        history_act_ne u hzx _
      have hmodify' : (u.modify x Session.readNext).sessions z = u.sessions z := by
        simp [hzx]
      rcases hdelivery.session z with ⟨hsame, hsame'⟩ | ⟨hactive, hsame, hsame'⟩
      · exact hidle (hmodify.trans (hsame'.trans hhistory))
          (hmodify'.trans (hsame.trans hsession))
      · rw [hsession] at hactive hsame hsame'
        refine ⟨((s.sessions z).enqueueOutgoing (s.sessions x).request).2, ?_, ?_⟩
        · rw [hmodify, hsame', hhistory]
        · rw [hmodify', hsame]
          exact .forwarded _ _ (hactive.resolve_left hzx)
  | writeDone => exact hidle (history_act_ne s hzx _) (by simp [hzx])
  | finished =>
      exact hidle ((history_act_ne _ hzx _).trans (hdeact s))
        (by simp [Server.completeAfterStreamFinish, hzx])

theorem getChannel_eq (s : Server) (peerId : Bytes) :
    (s.getChannel peerId).1 = s ∨ (s.getChannel peerId).1 = s.unregisterSession peerId := by
  unfold Server.getChannel
  rcases s.byPeer.lookup peerId with - | x
  · exact Or.inl rfl
  · dsimp only
    split
    · exact Or.inr rfl
    · exact Or.inl rfl

/-- A step of the server, seen from a session: its own completion or one of the
others. -/
theorem step_session {s t : Server} {e : Event} (hs : Fresh s)
    (h : s.step env store e = some t) (x : ℕ) :
    (∃ op ok msg, e = .complete x op ok msg ∧ op ∈ (s.sessions x).outstanding ∧
      ∃ notes, t.history x =
          s.history x ++ (s.sessions x).deliverNotes op ok msg ++ notes ∧
        SessionHandled (Authentic env store) ((s.sessions x).deliver op ok msg) ok
          (t.sessions x) notes) ∨
    (∀ op ok msg, e ≠ .complete x op ok msg) ∧
      ∃ notes, t.history x = s.history x ++ notes ∧
        Disturbed (s.sessions x) (t.sessions x) notes := by
  cases e with
  | getChannel peerId =>
      right
      obtain rfl : (s.getChannel peerId).1 = t := Option.some.inj h
      refine ⟨by simp, [], ?_, ?_⟩
      · rcases getChannel_eq s peerId with hsame | hsame
        · rw [hsame, List.append_nil]
        · rw [hsame, List.append_nil]
          rfl
      · rcases getChannel_eq s peerId with hsame | hsame
        · rw [hsame]
          exact .idle _
        · rw [hsame]
          exact .idle _
  | complete z op ok msg =>
      obtain ⟨-, hmem, hhandled⟩ := step_complete h
      have hlt := hs.lt_of_mem hmem
      by_cases hxz : x = z
      · subst hxz
        obtain ⟨notes, hhistory, hsession⟩ := hhandled.session hlt
        refine Or.inl ⟨op, ok, msg, rfl, hmem, notes, ?_, ?_⟩
        · rw [hhistory, Server.deliver, history_act_self]
        · simpa [Server.deliver] using hsession
      · right
        obtain ⟨notes, hhistory, hsession⟩ := hhandled.disturbed (hs.deliver hmem ok msg) hxz
        refine ⟨by simp [Ne.symm hxz], notes, ?_, ?_⟩
        · rw [hhistory, Server.deliver, history_act_ne s hxz]
        · simpa [Server.deliver, hxz] using hsession

theorem Fresh.step {s t : Server} {e : Event} (hs : Fresh s)
    (h : s.step env store e = some t) : Fresh t := by
  cases e with
  | getChannel peerId =>
      obtain rfl : (s.getChannel peerId).1 = t := Option.some.inj h
      rcases getChannel_eq s peerId with hsame | hsame <;> rw [hsame]
      · exact hs
      · exact hs.congr rfl rfl rfl
  | complete x op ok msg =>
      obtain ⟨-, hmem, hhandled⟩ := step_complete h
      exact hhandled.fresh (hs.deliver hmem ok msg) (hs.lt_of_mem hmem)

end Step

theorem fresh_start : Fresh Server.start := by
  intro x hx
  have hne : x ≠ 0 := by
    have : 1 ≤ x := hx
    omega
  exact ⟨by simp [Server.start, hne], rfl⟩

end Message

end DistStorage
