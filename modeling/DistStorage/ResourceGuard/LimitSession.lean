import DistStorage.ResourceGuard.LimitHandler

/-!
# A billing session

The invariant of a handler from its accepted stream on: one operation is
outstanding, the one that `pending_` names, until the handler is destroyed; the
log goes from one note to the next as `Note.Next` allows; and `res_request_` is
the ledger of the messages read.
-/

namespace DistStorage

namespace ResourceGuard

open Message (StreamConnectPhase PendingOp StreamOp)
open Transition

section Ledger

variable {A : Type*} [Zero A] [Add A]

/-- The amounts after a message: an append adds per key, and an overwrite
replaces them all. -/
def applyMessage (amounts : Bytes → Option A) : ResourceRequestUnion A → Bytes → Option A
  | .billAppend billItems => fun k =>
      match billItems.entries.lookup k with
      | none => amounts k
      | some v => some ((amounts k).getD 0 + v)
  | .billOverwrite billItems => fun k => billItems.entries.lookup k
  | _ => amounts

def ledger (messages : List (ResourceRequestUnion A)) : Bytes → Option A :=
  messages.foldl applyMessage fun _ => none

theorem ledger_concat (messages : List (ResourceRequestUnion A)) (m : ResourceRequestUnion A) :
    ledger (messages ++ [m]) = applyMessage (ledger messages) m :=
  List.foldl_append

omit [Zero A] [Add A] in
theorem lookup_eq_none_of_notMem {items : List (Bytes × A)} {k : Bytes}
    (h : k ∉ items.map Prod.fst) : items.lookup k = none := by
  rw [List.lookup_eq_none_iff]
  rintro ⟨l, v⟩ hmem
  rw [bne_iff_ne]
  rintro rfl
  exact h (List.mem_map_of_mem hmem)

theorem find_appendItems {items : List (Bytes × A)} (hnodup : (items.map Prod.fst).Nodup)
    (m : Cpp.OrderedMap Bytes A) (k : Bytes) :
    (LimitHandler.appendItems m items).find k =
      match items.lookup k with
      | none => m.find k
      | some v => some ((m.find k).getD 0 + v) := by
  induction items generalizing m with
  | nil => rfl
  | cons item items ih =>
      obtain ⟨l, v⟩ := item
      obtain ⟨hl, hitems⟩ := List.nodup_cons.mp hnodup
      have hrun := ih hitems (m.insert l ((m.find l).getD 0 + v))
      change (LimitHandler.appendItems (m.insert l ((m.find l).getD 0 + v)) items).find k = _
      rw [hrun, Cpp.OrderedMap.find_insert, List.lookup_cons]
      by_cases hkl : k = l
      · rw [hkl, lookup_eq_none_of_notMem hl, if_pos rfl, beq_self_eq_true]
      · rw [if_neg hkl, beq_false_of_ne hkl]

omit [Zero A] [Add A] in
theorem find_foldl_insert {items : List (Bytes × A)} (hnodup : (items.map Prod.fst).Nodup)
    (m : Cpp.OrderedMap Bytes A) (k : Bytes) :
    (items.foldl (fun m v => m.insert v.1 v.2) m).find k = (items.lookup k).or (m.find k) := by
  induction items generalizing m with
  | nil => rfl
  | cons item items ih =>
      obtain ⟨l, v⟩ := item
      obtain ⟨hl, hitems⟩ := List.nodup_cons.mp hnodup
      rw [List.foldl_cons, ih hitems, Cpp.OrderedMap.find_insert, List.lookup_cons]
      by_cases hkl : k = l
      · rw [hkl, lookup_eq_none_of_notMem hl, if_pos rfl, beq_self_eq_true, Option.none_or,
          Option.some_or]
      · rw [if_neg hkl, beq_false_of_ne hkl]

omit [Zero A] [Add A] in
theorem find_overwriteItems {items : List (Bytes × A)} (hnodup : (items.map Prod.fst).Nodup)
    (k : Bytes) : (LimitHandler.overwriteItems items).find k = items.lookup k := by
  rw [LimitHandler.overwriteItems, find_foldl_insert hnodup, Cpp.OrderedMap.find_empty,
    Option.or_none]

end Ledger

section Log

variable {A : Type*}

def ResourceRequestUnion.isFinish : ResourceRequestUnion A → Bool
  | .resourceFinish _ => true
  | _ => false

/-- The note that may follow another: a message is acknowledged at once, by one
`OK`, unless it finishes the stream, and nothing follows the finish. -/
def Note.Next : Note A → Note A → Prop
  | .issuedRead, .received _ => True
  | .issuedRead, .issuedFinish => True
  | .received m, .issuedWrite result => m.isFinish = false ∧ result = .OK
  | .received m, .issuedFinish => m.isFinish = true
  | .issuedWrite _, .issuedRead => True
  | .issuedWrite _, .issuedFinish => True
  | _, _ => False

/-- The note of the operation that is pending. -/
def pendingNote : PendingOp → Note A
  | .read => .issuedRead
  | .write => .issuedWrite .OK
  | .finish => .issuedFinish

/-- A log from the first read on. -/
structure Talk (log : List (Note A)) (last : Note A) : Prop where
  chain : log.IsChain Note.Next
  first : log.head? = some .issuedRead
  last_eq : log.getLast? = some last

theorem Talk.concat {log : List (Note A)} {a b : Note A} (h : Talk log a) (hab : a.Next b) :
    Talk (log ++ [b]) b where
  chain := by
    refine List.isChain_append.mpr ⟨h.chain, .singleton b, ?_⟩
    intro x hx y hy
    rw [h.last_eq, Option.mem_some_iff] at hx
    rw [List.head?_cons, Option.mem_some_iff] at hy
    rw [← hx, ← hy]
    exact hab
  first := by
    rw [List.head?_append, h.first, Option.some_or]
  last_eq := List.getLast?_concat

theorem talk_singleton : Talk [(.issuedRead : Note A)] .issuedRead :=
  ⟨.singleton _, rfl, rfl⟩

def Note.message : Note A → Option (ResourceRequestUnion A)
  | .received m => some m
  | _ => none

def messagesRead (i : ℕ) (es : List (LimitCompletion A)) : List (ResourceRequestUnion A) :=
  es.filterMap fun e =>
    if e.handler = i ∧ e.operation = .read ∧ e.ok = true then some e.message else none

end Log

section Handler

variable {A : Type*} [Zero A] [Add A]

omit [Zero A] [Add A] in
/-- A handler that waits for a stream, or was destroyed without one. -/
structure Waiting (destroyed : Bool) (h : LimitHandler A) : Prop where
  phase : h.streamConnectPhase = .accepted
  outstanding : h.outstanding = if destroyed then [] else [.request]
  armed : h.selfArmed = !destroyed
  log : h.log = []
  resRequest : ∀ k, h.resRequest.find k = none

/-- A handler from its accepted stream on, with the messages read so far. -/
structure Serving (destroyed : Bool) (messages : List (ResourceRequestUnion A))
    (h : LimitHandler A) : Prop where
  phase : h.streamConnectPhase = .streaming
  outstanding : h.outstanding = if destroyed then [] else [h.pending.op]
  armed : h.selfArmed = !destroyed
  finished : destroyed = true → h.pending = .finish
  talk : Talk h.log (pendingNote h.pending)
  messages_eq : h.log.filterMap Note.message = messages
  ledger_eq : ∀ k, h.resRequest.find k = ledger messages k

omit [Zero A] [Add A] in
theorem waiting_prime : Waiting false (LimitHandler.create.acceptNext : LimitHandler A) :=
  ⟨rfl, rfl, rfl, rfl, fun _ => rfl⟩

theorem Waiting.connect {h : LimitHandler A} (hw : Waiting false h)
    (message : ResourceRequestUnion A) :
    Serving false [] { h.deliver .request true message with
      streamConnectPhase := .streaming }.onStreamRpcConnected where
  phase := rfl
  outstanding := by
    change h.outstanding.erase .request ++ [.read] = [.read]
    rw [hw.outstanding]
    rfl
  armed := hw.armed
  finished := nofun
  talk := by
    change Talk (h.log ++ [] ++ [Note.issuedRead]) .issuedRead
    rw [hw.log]
    exact talk_singleton
  messages_eq := by
    change (h.log ++ [] ++ [Note.issuedRead]).filterMap Note.message = []
    rw [hw.log]
    rfl
  ledger_eq k := hw.resRequest k

theorem serving_finish {h : LimitHandler A} {messages : List (ResourceRequestUnion A)}
    {last : Note A} (hphase : h.streamConnectPhase = .streaming) (hout : h.outstanding = [])
    (harmed : h.selfArmed = true) (htalk : Talk h.log last) (hlast : last.Next .issuedFinish)
    (hmessages : h.log.filterMap Note.message = messages)
    (hledger : ∀ k, h.resRequest.find k = ledger messages k) :
    Serving false messages { h with pending := .finish }.finish where
  phase := hphase
  outstanding := by
    change h.outstanding ++ [.finish] = [.finish]
    rw [hout, List.nil_append]
  armed := harmed
  finished := nofun
  talk := htalk.concat hlast
  messages_eq := by
    change (h.log ++ [Note.issuedFinish]).filterMap Note.message = messages
    rw [List.filterMap_append, hmessages]
    exact List.append_nil messages
  ledger_eq := hledger

theorem serving_write {h : LimitHandler A} {messages : List (ResourceRequestUnion A)}
    {m : ResourceRequestUnion A} (hphase : h.streamConnectPhase = .streaming)
    (hout : h.outstanding = []) (harmed : h.selfArmed = true) (hresponse : h.response = .OK)
    (htalk : Talk h.log (.received m)) (hm : m.isFinish = false)
    (hmessages : h.log.filterMap Note.message = messages)
    (hledger : ∀ k, h.resRequest.find k = ledger messages k) :
    Serving false messages { h with request := .notSet, pending := .write }.write where
  phase := hphase
  outstanding := by
    change h.outstanding ++ [.write] = [.write]
    rw [hout, List.nil_append]
  armed := harmed
  finished := nofun
  talk := by
    change Talk (h.log ++ [Note.issuedWrite h.response]) (.issuedWrite .OK)
    rw [hresponse]
    exact htalk.concat ⟨hm, rfl⟩
  messages_eq := by
    change (h.log ++ [Note.issuedWrite h.response]).filterMap Note.message = messages
    rw [List.filterMap_append, hmessages]
    exact List.append_nil messages
  ledger_eq := hledger

theorem Serving.outstanding_deliver {h : LimitHandler A}
    {messages : List (ResourceRequestUnion A)} (hs : Serving false messages h)
    {pending : PendingOp} (hpending : h.pending = pending) (ok : Bool)
    (message : ResourceRequestUnion A) :
    (h.deliver pending.op ok message).outstanding = [] := by
  change h.outstanding.erase pending.op = []
  rw [hs.outstanding, hpending]
  exact List.erase_cons_head ..

theorem Serving.read_completion {h : LimitHandler A} {messages : List (ResourceRequestUnion A)}
    (hs : Serving false messages h) (hpending : h.pending = .read) (ok : Bool)
    (m : ResourceRequestUnion A) :
    Serving false (messages ++ if ok then [m] else [])
      ((h.deliver .read ok m).handleReadCompletion ok) := by
  have hout := hs.outstanding_deliver hpending ok m
  have htalk := hs.talk
  rw [hpending] at htalk
  cases ok with
  | false =>
      have hlog : (h.deliver .read false m).log = h.log := List.append_nil h.log
      rw [if_neg Bool.false_ne_true, List.append_nil]
      rw [← hlog] at htalk
      exact serving_finish hs.phase hout hs.armed htalk trivial (hlog ▸ hs.messages_eq)
        hs.ledger_eq
  | true =>
      have htalk' : Talk (h.deliver .read true m).log (.received m) := htalk.concat trivial
      have hmessages : (h.deliver .read true m).log.filterMap Note.message = messages ++ [m] := by
        change (h.log ++ [Note.received m]).filterMap Note.message = messages ++ [m]
        rw [List.filterMap_append, hs.messages_eq]
        rfl
      rw [if_pos rfl]
      cases m with
      | notSet =>
          refine serving_write hs.phase hout hs.armed rfl htalk' rfl hmessages fun k => ?_
          rw [ledger_concat]
          exact hs.ledger_eq k
      | resourceRequest =>
          refine serving_write hs.phase hout hs.armed rfl htalk' rfl hmessages fun k => ?_
          rw [ledger_concat]
          exact hs.ledger_eq k
      | billAppend billItems =>
          refine serving_write hs.phase hout hs.armed rfl htalk' rfl hmessages fun k => ?_
          rw [ledger_concat]
          change _ = match billItems.entries.lookup k with
            | none => ledger messages k
            | some v => some ((ledger messages k).getD 0 + v)
          rw [← hs.ledger_eq k]
          exact find_appendItems billItems.nodup h.resRequest k
      | billOverwrite billItems =>
          refine serving_write hs.phase hout hs.armed rfl htalk' rfl hmessages fun k => ?_
          rw [ledger_concat]
          exact find_overwriteItems billItems.nodup k
      | resourceFinish result =>
          refine serving_finish (h := { h.deliver .read true (.resourceFinish result) with
            request := .notSet }) hs.phase hout hs.armed htalk' rfl hmessages fun k => ?_
          rw [ledger_concat]
          exact hs.ledger_eq k

theorem Serving.write_completion {h : LimitHandler A} {messages : List (ResourceRequestUnion A)}
    (hs : Serving false messages h) (hpending : h.pending = .write) (ok : Bool)
    (m : ResourceRequestUnion A) :
    Serving false messages ((h.deliver .write ok m).handleWriteCompletion ok) := by
  have hout := hs.outstanding_deliver hpending ok m
  have hlog : (h.deliver .write ok m).log = h.log := List.append_nil h.log
  have htalk := hs.talk
  rw [hpending, ← hlog] at htalk
  cases ok with
  | false =>
      exact serving_finish hs.phase hout hs.armed htalk trivial (hlog ▸ hs.messages_eq) hs.ledger_eq
  | true =>
      exact {
        phase := hs.phase
        outstanding := by
          change (h.deliver PendingOp.write.op true m).outstanding ++ [.read] = [.read]
          rw [hout, List.nil_append]
        armed := hs.armed
        finished := nofun
        talk := htalk.concat trivial
        messages_eq := by
          change ((h.deliver .write true m).log ++ [Note.issuedRead]).filterMap Note.message =
            messages
          rw [hlog, List.filterMap_append, hs.messages_eq]
          exact List.append_nil messages
        ledger_eq := hs.ledger_eq }

theorem Serving.finish_completion {h : LimitHandler A} {messages : List (ResourceRequestUnion A)}
    (hs : Serving false messages h) (hpending : h.pending = .finish) (ok : Bool)
    (m : ResourceRequestUnion A) :
    Serving true messages { h.deliver .finish ok m with selfArmed := false } := by
  have hout := hs.outstanding_deliver hpending ok m
  have hlog : (h.deliver .finish ok m).log = h.log := List.append_nil h.log
  exact {
    phase := hs.phase
    outstanding := hout
    armed := rfl
    finished := fun _ => hpending
    talk := hlog ▸ hs.talk
    messages_eq := hlog ▸ hs.messages_eq
    ledger_eq := hs.ledger_eq }

end Handler

section Server

variable {A : Type*} [Zero A] [Add A]

def HandlerOk (destroyed : Bool) (messages : List (ResourceRequestUnion A)) (h : LimitHandler A) :
    Prop :=
  Waiting destroyed h ∧ messages = [] ∨ Serving destroyed messages h

def LimitCompletion.received (e : LimitCompletion A) : List (ResourceRequestUnion A) :=
  if e.operation = .read ∧ e.ok = true then [e.message] else []

/-- What the completion of an outstanding operation does: it changes its handler,
which may be given up, and an accepted stream primes the next handler. -/
structure Stepped (s : LimitServer A) (e : LimitCompletion A) (h : LimitHandler A)
    (messages : List (ResourceRequestUnion A)) (h' : LimitHandler A) (gone accepted : Bool) :
    Prop where
  step_eq : s.step e = some
    { handlers := s.handlers.set e.handler h' ++
        if accepted then [LimitHandler.create.acceptNext] else []
      deferred := []
      destroyed := s.destroyed ++ if gone then [e.handler] else [] }
  ok : HandlerOk gone (messages ++ e.received) h'
  accepted_iff : accepted = true ↔ e.operation = .request ∧ e.ok = true
  no_request : StreamOp.request ∉ h'.outstanding
  gone_of_finish : h.streamConnectPhase = .streaming → h.pending = .finish → gone = true

theorem op_ne_request (pending : PendingOp) : pending.op ≠ .request := by
  cases pending <;> exact nofun

theorem Serving.no_request {destroyed : Bool} {messages : List (ResourceRequestUnion A)}
    {h : LimitHandler A} (hs : Serving destroyed messages h) :
    StreamOp.request ∉ h.outstanding := by
  rw [hs.outstanding]
  cases destroyed with
  | true => exact List.not_mem_nil
  | false => simpa using (op_ne_request h.pending).symm

/-- A completion for a handler that is not waiting is handled by its kind. -/
theorem step_of_process {s : LimitServer A} {e : LimitCompletion A} {h : LimitHandler A}
    (hget : s.handlers[e.handler]? = some h) (hnot : e.handler ∉ s.destroyed)
    (hop : e.operation ∈ h.outstanding) :
    s.step e = some (s.process e.handler (h.deliver e.operation e.ok e.message)
      e.ok).runDeferredHandlerDestroys := by
  rw [LimitServer.step, hget, Option.bind_some, if_neg]
  rintro (hmem | hmem)
  · exact hnot hmem
  · exact hmem hop

theorem Waiting.stepped {s : LimitServer A} {e : LimitCompletion A} {h : LimitHandler A}
    (hw : Waiting false h) (hdeferred : s.deferred = [])
    (hget : s.handlers[e.handler]? = some h) (hnot : e.handler ∉ s.destroyed)
    (hop : e.operation ∈ h.outstanding) :
    ∃ h' gone accepted, Stepped s e h [] h' gone accepted := by
  have hrequest : e.operation = .request := by
    rw [hw.outstanding] at hop
    exact List.mem_singleton.mp hop
  have hreceived : e.received = [] := if_neg fun h => by simp [hrequest] at h
  have hstep := step_of_process hget hnot hop
  have hphase : (h.deliver e.operation e.ok e.message).streamConnectPhase = .accepted := hw.phase
  have hprocess : s.process e.handler (h.deliver e.operation e.ok e.message) e.ok =
      s.handleStreamConnect e.handler (h.deliver e.operation e.ok e.message) e.ok := by
    rw [LimitServer.process, if_pos]
    rw [hphase]
    exact nofun
  have hout : (h.deliver e.operation e.ok e.message).outstanding = [] := by
    change h.outstanding.erase e.operation = []
    rw [hw.outstanding, hrequest]
    rfl
  rw [hprocess, LimitServer.handleStreamConnect, hphase] at hstep
  cases hok : e.ok with
  | false =>
      refine ⟨{ h.deliver e.operation e.ok e.message with selfArmed := false }, true, false,
        ?_, .inl ⟨⟨hphase, hout, rfl, ?_, hw.resRequest⟩, ?_⟩, ?_, ?_, ?_⟩
      · rw [hstep, hok]
        have harmed : (h.deliver e.operation false e.message).selfArmed = true := hw.armed
        simp [LimitServer.deferHandlerDestroy, LimitServer.runDeferredHandlerDestroys,
          LimitServer.set, harmed, hdeferred]
      · change h.log ++ _ = []
        rw [hw.log, hrequest]
        rfl
      · rw [hreceived]
        rfl
      · simp [hok]
      · change StreamOp.request ∉ (h.deliver e.operation e.ok e.message).outstanding
        rw [hout]
        exact List.not_mem_nil
      · intro hstreaming
        rw [hw.phase] at hstreaming
        cases hstreaming
  | true =>
      have hserving := hw.connect e.message
      rw [← hrequest, ← hok] at hserving
      refine ⟨_, false, true, ?_, .inr (hreceived.symm ▸ hserving), ?_, hserving.no_request, ?_⟩
      · rw [hstep, hok]
        have hlt : e.handler < s.handlers.length := (List.getElem?_eq_some_iff.mp hget).1
        simp [LimitServer.runDeferredHandlerDestroys, LimitServer.set,
          LimitServer.primeAsyncHandler, hdeferred, List.set_append_left, hlt]
      · simp [hrequest, hok]
      · intro hstreaming
        rw [hw.phase] at hstreaming
        cases hstreaming

theorem Serving.stepped {s : LimitServer A} {e : LimitCompletion A} {h : LimitHandler A}
    {messages : List (ResourceRequestUnion A)} (hs : Serving false messages h)
    (hdeferred : s.deferred = []) (hget : s.handlers[e.handler]? = some h)
    (hnot : e.handler ∉ s.destroyed) (hop : e.operation ∈ h.outstanding) :
    ∃ h' gone accepted, Stepped s e h messages h' gone accepted := by
  have hpending : e.operation = h.pending.op := by
    rw [hs.outstanding] at hop
    exact List.mem_singleton.mp hop
  have hstep := step_of_process hget hnot hop
  have hphase : (h.deliver e.operation e.ok e.message).streamConnectPhase = .streaming := hs.phase
  have hprocess : s.process e.handler (h.deliver e.operation e.ok e.message) e.ok =
      match h.pending with
      | .read => s.set e.handler
          ((h.deliver e.operation e.ok e.message).handleReadCompletion e.ok)
      | .write => s.set e.handler
          ((h.deliver e.operation e.ok e.message).handleWriteCompletion e.ok)
      | .finish => s.deferHandlerDestroy e.handler (h.deliver e.operation e.ok e.message) := by
    rw [LimitServer.process, if_neg (not_not.mpr hphase)]
    rfl
  have hnotAccepted : false = true ↔ e.operation = .request ∧ e.ok = true :=
    iff_of_false Bool.false_ne_true fun h' =>
      op_ne_request h.pending (hpending.symm.trans h'.1)
  rw [hprocess, hpending] at hstep
  cases hp : h.pending with
  | read =>
      rw [hp] at hpending hstep
      have hreceived : e.received = if e.ok then [e.message] else [] := by
        rw [LimitCompletion.received, hpending]
        simp [PendingOp.op]
      have hserving := hs.read_completion hp e.ok e.message
      rw [← hreceived] at hserving
      refine ⟨_, false, false, ?_, .inr hserving, hnotAccepted, hserving.no_request, ?_⟩
      · rw [hstep]
        simp [LimitServer.set, LimitServer.runDeferredHandlerDestroys, hdeferred, PendingOp.op]
      · rw [hp]
        exact nofun
  | write =>
      rw [hp] at hpending hstep
      have hreceived : e.received = [] := if_neg fun h' => by
        rw [hpending] at h'
        exact absurd h'.1 nofun
      have hserving := hs.write_completion hp e.ok e.message
      rw [← List.append_nil messages, ← hreceived] at hserving
      refine ⟨_, false, false, ?_, .inr hserving, hnotAccepted, hserving.no_request, ?_⟩
      · rw [hstep]
        simp [LimitServer.set, LimitServer.runDeferredHandlerDestroys, hdeferred, PendingOp.op]
      · rw [hp]
        exact nofun
  | finish =>
      rw [hp] at hpending hstep
      have hreceived : e.received = [] := if_neg fun h' => by
        rw [hpending] at h'
        exact absurd h'.1 nofun
      have hserving := hs.finish_completion hp e.ok e.message
      rw [← List.append_nil messages, ← hreceived] at hserving
      refine ⟨_, true, false, ?_, .inr hserving, hnotAccepted, hserving.no_request, fun _ _ => rfl⟩
      rw [hstep]
      have harmed : (h.deliver .finish e.ok e.message).selfArmed = true := hs.armed
      simp [LimitServer.deferHandlerDestroy, LimitServer.set,
        LimitServer.runDeferredHandlerDestroys, hdeferred, harmed, PendingOp.op]

/-- What holds of the server after the completions so far. -/
structure Invariant (es : List (LimitCompletion A)) (s : LimitServer A) : Prop where
  deferred : s.deferred = []
  nodup : s.destroyed.Nodup
  lt_of_destroyed : ∀ i ∈ s.destroyed, i < s.handlers.length
  unread : ∀ i, s.handlers.length ≤ i → messagesRead i es = []
  handlers : ∀ i h, s.handlers[i]? = some h →
    HandlerOk (decide (i ∈ s.destroyed)) (messagesRead i es) h

omit [Zero A] [Add A] in
theorem messagesRead_concat (i : ℕ) (es : List (LimitCompletion A)) (e : LimitCompletion A) :
    messagesRead i (es ++ [e]) =
      messagesRead i es ++ if e.handler = i then e.received else [] := by
  rw [messagesRead, List.filterMap_append]
  congr 1
  unfold LimitCompletion.received
  by_cases hi : e.handler = i
  · by_cases hread : e.operation = .read ∧ e.ok = true
    · simp [hi, hread]
    · rw [if_pos hi, if_neg hread, List.filterMap_cons_none]
      · rfl
      · exact if_neg fun h => hread h.2
  · simp [hi]

theorem invariant_start : Invariant [] (LimitServer.start : LimitServer A) where
  deferred := rfl
  nodup := List.nodup_nil
  lt_of_destroyed := fun _ h => absurd h List.not_mem_nil
  unread := fun _ _ => rfl
  handlers := by
    intro i h hget
    have hi : i = 0 := by
      have hlt := (List.getElem?_eq_some_iff.mp hget).1
      exact Nat.lt_one_iff.mp hlt
    subst hi
    obtain rfl := Option.some.inj hget
    exact .inl ⟨waiting_prime, rfl⟩

theorem Invariant.stepped {es : List (LimitCompletion A)} {s : LimitServer A} (hs : Invariant es s)
    {e : LimitCompletion A} {h : LimitHandler A} (hget : s.handlers[e.handler]? = some h)
    (hnot : e.handler ∉ s.destroyed) (hop : e.operation ∈ h.outstanding) :
    ∃ h' gone accepted, Stepped s e h (messagesRead e.handler es) h' gone accepted := by
  have hok := hs.handlers e.handler h hget
  rw [decide_eq_false hnot] at hok
  rcases hok with ⟨hwaiting, hmessages⟩ | hserving
  · rw [hmessages]
    exact hwaiting.stepped hs.deferred hget hnot hop
  · exact hserving.stepped hs.deferred hget hnot hop

theorem exists_of_step {s t : LimitServer A} {e : LimitCompletion A} (h : s.step e = some t) :
    ∃ h, s.handlers[e.handler]? = some h ∧ e.handler ∉ s.destroyed ∧
      e.operation ∈ h.outstanding := by
  obtain ⟨h', hget, hstep⟩ := Option.bind_eq_some_iff.mp h
  split at hstep
  · cases hstep
  · next hout =>
      push Not at hout
      exact ⟨h', hget, hout⟩

theorem Invariant.step {es : List (LimitCompletion A)} {s t : LimitServer A} (hs : Invariant es s)
    {e : LimitCompletion A} (hstep : s.step e = some t) : Invariant (es ++ [e]) t := by
  obtain ⟨h, hget, hnot, hop⟩ := exists_of_step hstep
  obtain ⟨h', gone, accepted, hstepped⟩ := hs.stepped hget hnot hop
  have hlt : e.handler < s.handlers.length := (List.getElem?_eq_some_iff.mp hget).1
  obtain rfl := Option.some.inj (hstep.symm.trans hstepped.step_eq)
  have hle : s.handlers.length ≤ (s.handlers.set e.handler h' ++
      if accepted then [LimitHandler.create.acceptNext] else []).length := by
    rw [List.length_append, List.length_set]
    exact Nat.le_add_right _ _
  have hmem : ∀ i, i ∈ s.destroyed ++ (if gone then [e.handler] else []) ↔
      i ∈ s.destroyed ∨ gone = true ∧ i = e.handler := by
    intro i
    cases gone <;> simp
  refine ⟨rfl, ?_, fun i hi => ?_, fun i hi => ?_, fun i g hg => ?_⟩
  · cases gone with
    | false => simpa using hs.nodup
    | true => simpa using (List.nodup_concat _ _).mpr ⟨hnot, hs.nodup⟩
  · rcases (hmem i).mp hi with hi | ⟨-, rfl⟩
    · exact (hs.lt_of_destroyed i hi).trans_le hle
    · exact hlt.trans_le hle
  · have hne : e.handler ≠ i := (hlt.trans_le (hle.trans hi)).ne
    rw [messagesRead_concat, if_neg hne, List.append_nil]
    exact hs.unread i (hle.trans hi)
  · rw [messagesRead_concat]
    by_cases hold : i < s.handlers.length
    · rw [List.getElem?_append_left (by rwa [List.length_set])] at hg
      by_cases hi : e.handler = i
      · subst hi
        rw [List.getElem?_set_self hlt] at hg
        obtain rfl := Option.some.inj hg
        have hgone :
            decide (e.handler ∈ s.destroyed ++ if gone then [e.handler] else []) = gone := by
          cases gone <;> simp [hnot]
        rw [hgone, if_pos rfl]
        exact hstepped.ok
      · rw [List.getElem?_set_ne hi] at hg
        have hsame : decide (i ∈ s.destroyed ++ if gone then [e.handler] else []) =
            decide (i ∈ s.destroyed) := by
          cases gone <;> simp [Ne.symm hi]
        rw [hsame, if_neg hi, List.append_nil]
        exact hs.handlers i g hg
    · have hne : e.handler ≠ i := (hlt.trans_le (not_lt.mp hold)).ne
      rw [List.getElem?_append_right (by rw [List.length_set]; exact not_lt.mp hold)] at hg
      have hg' : g = LimitHandler.create.acceptNext := by
        cases accepted with
        | false => simp at hg
        | true => exact List.mem_singleton.mp (List.mem_of_getElem? hg)
      have hfresh : decide (i ∈ s.destroyed ++ if gone then [e.handler] else []) = false := by
        rw [decide_eq_false_iff_not, hmem]
        rintro (hi | ⟨-, hi⟩)
        · exact hold (hs.lt_of_destroyed i hi)
        · exact hne hi.symm
      rw [hfresh, if_neg hne, hs.unread i (not_lt.mp hold), hg']
      exact .inl ⟨waiting_prime, rfl⟩

theorem invariant_run {es : List (LimitCompletion A)} {s : LimitServer A}
    (hrun : run LimitServer.step LimitServer.start es = some s) : Invariant es s :=
  run_invariant_of_events (fun _ _ _ _ hs hstep => hs.step hstep) invariant_start hrun

omit [Zero A] [Add A] in
/-- Nothing follows the finish, so it is in a log at most once. -/
theorem Talk.finish_last {log : List (Note A)} {last : Note A} (h : Talk log last)
    {pre post : List (Note A)} (hlog : log = pre ++ .issuedFinish :: post) : post = [] := by
  cases post with
  | nil => rfl
  | cons n post =>
      have hchain := h.chain
      rw [hlog, List.isChain_append] at hchain
      have hnext := (List.isChain_cons_cons.mp hchain.2.1).1
      cases n <;> exact absurd hnext id

/-- In every run, from its accepted stream on, a handler has exactly one
operation outstanding, of the kind that `pending_` names, until it is destroyed;
every completion of that operation is taken, and the one of the finish destroys
the handler, which happens once. Its log goes from each message at once to the
one `OK` that acknowledges it, or from the message that finishes the stream to
the only finish; and `res_request_` is the ledger of the messages read. -/
theorem limitHandler_session (es : List (LimitCompletion A)) (s : LimitServer A)
    (hrun : run LimitServer.step LimitServer.start es = some s) (i : ℕ) (h : LimitHandler A)
    (hget : s.handlers[i]? = some h) (hphase : h.streamConnectPhase = .streaming) :
    s.destroyed.count i ≤ 1 ∧ s.deferred = [] ∧
      (i ∉ s.destroyed → h.outstanding = [h.pending.op] ∧ ∀ ok message,
        ∃ t, s.step ⟨i, h.pending.op, ok, message⟩ = some t ∧
          (h.pending = .finish → t.destroyed.count i = 1)) ∧
      (i ∈ s.destroyed → h.outstanding = [] ∧ h.pending = .finish) ∧
      h.log.IsChain Note.Next ∧ h.log.head? = some .issuedRead ∧
      h.log.getLast? = some (pendingNote h.pending) ∧
      (∀ pre post, h.log = pre ++ .issuedFinish :: post → post = []) ∧
      h.log.filterMap Note.message = messagesRead i es ∧
      ∀ k, h.resRequest.find k = ledger (messagesRead i es) k := by
  have hs := invariant_run hrun
  have hserving : Serving (decide (i ∈ s.destroyed)) (messagesRead i es) h := by
    rcases hs.handlers i h hget with ⟨hwaiting, -⟩ | hserving
    · rw [hwaiting.phase] at hphase
      cases hphase
    · exact hserving
  have hout := hserving.outstanding
  refine ⟨List.nodup_iff_count_le_one.mp hs.nodup i, hs.deferred, fun hnot => ?_, fun hmem => ?_,
    hserving.talk.chain, hserving.talk.first, hserving.talk.last_eq,
    fun _ _ => hserving.talk.finish_last, hserving.messages_eq, hserving.ledger_eq⟩
  · have hout' : h.outstanding = [h.pending.op] := by simpa [hnot] using hout
    refine ⟨hout', fun ok message => ?_⟩
    have hop : h.pending.op ∈ h.outstanding := by
      rw [hout']
      exact List.mem_singleton_self _
    obtain ⟨h', gone, accepted, hstepped⟩ :=
      hs.stepped (e := ⟨i, h.pending.op, ok, message⟩) hget hnot hop
    refine ⟨_, hstepped.step_eq, fun hfinish => ?_⟩
    rw [hstepped.gone_of_finish hphase hfinish]
    simp [List.count_eq_zero_of_not_mem hnot]
  · exact ⟨by simpa [hmem] using hout, hserving.finished (decide_eq_true hmem)⟩

end Server

def billOf (amount : ℤ) : BillItems ℤ := ⟨[([97], amount)], List.nodup_singleton _⟩

/-- Two appends, of which the second is not acknowledged yet. -/
def appendedTwice : List (LimitCompletion ℤ) :=
  [⟨0, .request, true, .notSet⟩, ⟨0, .read, true, .billAppend (billOf 2)⟩,
    ⟨0, .write, true, .notSet⟩, ⟨0, .read, true, .billAppend (billOf 3)⟩]

theorem limitHandler_session_sample :
    ∃ s, run LimitServer.step LimitServer.start appendedTwice = some s ∧
      ∃ h, s.handlers[0]? = some h ∧ h.outstanding = [.write] ∧
        h.resRequest.find [97] = some 5 := by
  refine ⟨_, rfl, _, rfl, ?_⟩
  have hsession := limitHandler_session appendedTwice _ rfl 0 _ rfl rfl
  exact ⟨(hsession.2.2.1 (by decide)).1, hsession.2.2.2.2.2.2.2.2.2 [97]⟩

end ResourceGuard

end DistStorage
