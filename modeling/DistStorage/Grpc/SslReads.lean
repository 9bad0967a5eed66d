import DistStorage.Grpc.SslEndpoint
import DistStorage.Utils.PollBatches

/-!
# Reading from SSL endpoints

`Read` calls `SSL_read` into a fresh slice. Data goes into the buffer of the caller, an
error to `on_read`; when the connection has to wait the slice is given back and a callback
of the poll engine tries again. That callback holds the endpoint by `shared_from_this`,
which throws where the endpoint is not owned by a `shared_ptr`, as is the case for every
endpoint that the engine hands out.

Any number of endpoints share one poll engine here, with any number of reads in progress,
and with the watchers of others. A read is in one place at a time: in `DoRead`, or behind
one callback, which is in the map of the engine or was taken by a poll. So what one read
gets no other one gets, and no slice is lost. Epoll accepts every registration.
-/

namespace DistStorage

namespace Grpc

open Transition Utils Epoll SslEndpoint

namespace SslReads

def kSslReadBufferSize : ℕ := 16 * 1024

/-- An answer of `SSL_read`, with what `SSL_get_error` says when there is no data. -/
inductive ReadOutcome
  | data (bytes : Bytes)
  | wantRead
  | wantWrite
  | fatal
  deriving DecidableEq, Repr

def ReadOutcome.Possible : ReadOutcome → Prop
  | .data bytes => 0 < bytes.length ∧ bytes.length ≤ kSslReadBufferSize
  | _ => True

instance (outcome : ReadOutcome) : Decidable outcome.Possible := by
  cases outcome <;> unfold ReadOutcome.Possible <;> infer_instance

def ReadOutcome.logged (endpoint : ℕ) : ReadOutcome → List (ℕ × Bytes)
  | .data bytes => [(endpoint, bytes)]
  | _ => []

/-- The connection has to wait. -/
def ReadOutcome.Waits (outcome : ReadOutcome) : Prop :=
  outcome = .wantRead ∨ outcome = .wantWrite

/-- Where a read is: before `SSL_read`, past it, behind a callback, past `on_read`, or left
by an exception. -/
inductive ReadPhase
  | reading
  | answered (outcome : ReadOutcome)
  | waiting (read : Bool)
  | finished
  | thrown
  deriving DecidableEq, Repr

/-- A call of `Read`; `given` is the buffer as the caller passed it. -/
structure ReadCall where
  endpoint : ℕ
  given : List Bytes
  buffer : List Bytes
  phase : ReadPhase
  onRead : List Status
  deriving DecidableEq, Repr

/-- An endpoint; `shared` if a `shared_ptr` owns it. -/
structure Endpoint where
  fd : ℤ
  shared : Bool
  alive : Bool
  deriving DecidableEq, Repr

inductive Callback
  | read (call : ℕ)
  | other
  deriving DecidableEq, Repr

/-- The engine with the polls between `epoll_wait` and their locked section, the callbacks
that polls have taken, and the counts of `grpc_slice_malloc` and `grpc_slice_unref`;
`received` is what each `SSL_read` returned, by endpoint. -/
structure Endpoints where
  engine : PollEngine Callback
  polls : List (List Epoll.Event)
  taken : List Callback
  endpoints : List Endpoint
  calls : List ReadCall
  received : List (ℕ × Bytes)
  mallocs : ℕ
  unrefs : ℕ

def new (wakeupFd : ℤ) : Endpoints where
  engine := PollEngine.new wakeupFd
  polls := []
  taken := []
  endpoints := []
  calls := []
  received := []
  mallocs := 0
  unrefs := 0

inductive Event
  | create (fd : ℤ) (shared : Bool)
  | read (endpoint : ℕ) (buffer : List Bytes)
  | sslRead (call : ℕ) (outcome : ReadOutcome)
  | proceed (call : ℕ)
  | push (fd : ℤ) (read write : Bool)
  | wait (events : List Epoll.Event)
  | take (poll : ℕ)
  | start (callback : ℕ)
  | destroy (endpoint : ℕ)

/-- The call is in `DoRead`, or will be again. -/
def ReadCall.Running (c : ReadCall) : Prop :=
  c.phase ≠ .finished ∧ c.phase ≠ .thrown

instance (c : ReadCall) : Decidable c.Running := by
  unfold ReadCall.Running
  infer_instance

def Endpoints.setCall (s : Endpoints) (i : ℕ) (c : ReadCall) : Endpoints :=
  { s with calls := s.calls.set i c }

def answer (s : Endpoints) (i : ℕ) (c : ReadCall) (outcome : ReadOutcome) : Endpoints :=
  { s.setCall i { c with phase := .answered outcome } with
    received := s.received ++ outcome.logged c.endpoint }

/-- The slice that goes into the buffer: a full one as it is, else `TakeSubSlice(0, ret)`,
which must stay inside the slice. -/
def filledSlice (bytes : Bytes) : Option Bytes :=
  if bytes.length < kSslReadBufferSize then
    if 0 + bytes.length ≤ kSslReadBufferSize then some bytes else none
  else some bytes

/-- The part of `DoRead` that waits. -/
def wantsMore (s : Endpoints) (i : ℕ) (c : ReadCall) (e : Endpoint) (read : Bool) : Endpoints :=
  let s := { s with unrefs := s.unrefs + 1 }
  if e.shared then
    { s.setCall i { c with phase := .waiting read } with
      engine := s.engine.push e.fd (.read i) read (!read) true }
  else s.setCall i { c with phase := .thrown }

/-- The part of `DoRead` past the lock. -/
def doReadTail (s : Endpoints) (i : ℕ) (c : ReadCall) (e : Endpoint) :
    ReadOutcome → Option Endpoints
  | .data bytes => (filledSlice bytes).map fun slice =>
      s.setCall i { c with
        buffer := c.buffer ++ [slice], phase := .finished, onRead := c.onRead ++ [.ok] }
  | .wantRead => some (wantsMore s i c e true)
  | .wantWrite => some (wantsMore s i c e false)
  | .fatal =>
      let s : Endpoints := { s with unrefs := s.unrefs + 1 }
      some (s.setCall i { c with phase := .finished, onRead := c.onRead ++ [.internalError] })

/-- The beginning of `DoRead`, up to the lock. -/
def doReadHead (s : Endpoints) (i : ℕ) (c : ReadCall) : Endpoints :=
  let s : Endpoints := { s with mallocs := s.mallocs + 1 }
  s.setCall i { c with phase := .reading }

/-- One step. A descriptor belongs to one living endpoint, and an endpoint goes when no
callback and no caller has it any more. The destructor gives the connection free, and the
member `ssl_` does it again: that fault is recorded by `HolePunch.destroyEndpoint`, and the
step keeps only the `pop` of the destructor, as if the program went on. -/
def step (s : Endpoints) : Event → Option Endpoints
  | .create fd shared =>
      if ∀ e ∈ s.endpoints, e.alive → e.fd ≠ fd then
        some { s with endpoints := s.endpoints ++ [⟨fd, shared, true⟩] }
      else none
  | .read endpoint buffer =>
      (s.endpoints[endpoint]?).bind fun e =>
        if e.alive then
          some { s with
            mallocs := s.mallocs + 1
            calls := s.calls ++ [⟨endpoint, buffer, buffer, .reading, []⟩] }
        else none
  | .sslRead i outcome =>
      (s.calls[i]?).bind fun c =>
        if c.phase = .reading ∧ outcome.Possible then some (answer s i c outcome) else none
  | .proceed i =>
      (s.calls[i]?).bind fun c =>
        (s.endpoints[c.endpoint]?).bind fun e =>
          match c.phase with
          | .answered outcome => doReadTail s i c e outcome
          | _ => none
  | .push fd read write => some { s with engine := s.engine.push fd .other read write true }
  | .wait events =>
      if s.engine.MayReport events then
        some { s with
          engine := { s.engine with interest := s.engine.interest.report events }
          polls := s.polls ++ [events] }
      else none
  | .take poll =>
      (s.polls[poll]?).map fun events =>
        { s with
          engine := (s.engine.pollSection events).1
          polls := s.polls.eraseIdx poll
          taken := s.taken ++ (s.engine.pollSection events).2 }
  | .start callback =>
      (s.taken[callback]?).bind fun
        | .read i =>
            (s.calls[i]?).map fun c =>
              doReadHead { s with taken := s.taken.eraseIdx callback } i c
        | .other => some { s with taken := s.taken.eraseIdx callback }
  | .destroy endpoint =>
      (s.endpoints[endpoint]?).bind fun e =>
        if e.alive ∧ ∀ c ∈ s.calls, c.endpoint = endpoint → ¬c.Running then
          some { s with
            engine := s.engine.pop e.fd
            endpoints := s.endpoints.set endpoint { e with alive := false } }
        else none

/-- What a read promises: until `on_read` is called the buffer is as it was given; then
`on_read` was called once, with OK exactly if a slice with data was added. -/
def ReadCall.Faithful (c : ReadCall) : Prop :=
  match c.phase with
  | .reading | .waiting _ | .thrown => c.onRead = [] ∧ c.buffer = c.given
  | .answered outcome => c.onRead = [] ∧ c.buffer = c.given ∧ outcome.Possible
  | .finished =>
      c.onRead = [.internalError] ∧ c.buffer = c.given ∨
        c.onRead = [.ok] ∧ ∃ slice, (ReadOutcome.data slice).Possible ∧
          c.buffer = c.given ++ [slice]

def ReadCall.data (c : ReadCall) : Option Bytes :=
  match c.phase with
  | .answered (.data bytes) => some bytes
  | _ => (c.buffer.drop c.given.length).head?

/-- The slices that the read has allocated and not given back. -/
def ReadCall.held (c : ReadCall) : ℕ :=
  match c.phase with
  | .reading | .answered _ => 1
  | _ => c.buffer.length - c.given.length

def ReadCall.places (c : ReadCall) : ℕ :=
  match c.phase with
  | .waiting _ => 1
  | _ => 0

namespace Endpoints

def callbacks (s : Endpoints) : List Callback :=
  s.engine.watchers.map Watcher.callback ++ s.taken

def places (s : Endpoints) (i : ℕ) : ℕ := (s.calls[i]?.map ReadCall.places).getD 0

/-- What `SSL_read` returned for an endpoint, in order. -/
def receivedBy (s : Endpoints) (endpoint : ℕ) : List Bytes :=
  s.received.filterMap fun entry => if entry.1 = endpoint then some entry.2 else none

/-- What the reads of an endpoint have got, in the order of the calls. -/
def dataOf (s : Endpoints) (endpoint : ℕ) : List Bytes :=
  s.calls.filterMap fun c => if c.endpoint = endpoint then c.data else none

/-- The watcher of a waiting read. -/
def Watches (s : Endpoints) (w : Watcher Callback) (i : ℕ) : Prop :=
  ∃ c e read, s.calls[i]? = some c ∧ s.endpoints[c.endpoint]? = some e ∧
    c.phase = .waiting read ∧ w.fd = e.fd ∧ w.flags = PollEngine.requestFlags read (!read)

structure Sound (s : Endpoints) : Prop where
  faithful : ∀ c ∈ s.calls, c.Faithful
  owned : ∀ c ∈ s.calls, ∃ e, s.endpoints[c.endpoint]? = some e ∧ (c.Running → e.alive = true)
  watched : ∀ w ∈ s.engine.watchers, ∀ i, w.callback = .read i → s.Watches w i
  once : ∀ i, s.callbacks.count (.read i) = s.places i
  apart : ∀ (j k : ℕ) (d e : Endpoint), s.endpoints[j]? = some d → s.endpoints[k]? = some e →
    d.alive = true → e.alive = true → d.fd = e.fd → j = k
  slices : s.mallocs = s.unrefs + (s.calls.map ReadCall.held).sum
  streams : ∀ k, (s.receivedBy k).Perm (s.dataOf k)

structure InOrder (s : Endpoints) : Prop where
  turned : ∀ (i j : ℕ) (c d : ReadCall), i < j → s.calls[i]? = some c → s.calls[j]? = some d →
    c.endpoint = d.endpoint → ¬c.Running
  streams : ∀ k, s.receivedBy k = s.dataOf k

end Endpoints

/-- A read begins when the other reads of its endpoint are over. -/
def InTurn (s : Endpoints) : Event → Prop
  | .read endpoint _ => ∀ c ∈ s.calls, c.endpoint = endpoint → ¬c.Running
  | _ => True

instance (s : Endpoints) (e : Event) : Decidable (InTurn s e) := by
  cases e <;> unfold InTurn <;> infer_instance

section Lists

variable {α β : Type*} {l : List α} {i : ℕ} {a b : α}

theorem sum_map_set (f : α → ℕ) (h : l[i]? = some a) :
    ((l.set i b).map f).sum + f a = (l.map f).sum + f b := by
  induction l generalizing i with
  | nil => cases h
  | cons d l ih =>
      cases i with
      | zero =>
          obtain rfl : d = a := Option.some.inj h
          simp only [List.set_cons_zero, List.map_cons, List.sum_cons]
          omega
      | succ i =>
          have hrest := ih h
          simp only [List.set_cons_succ, List.map_cons, List.sum_cons] at hrest ⊢
          omega

theorem filterMap_set_of_eq (F : α → Option β) (h : l[i]? = some a) (hF : F b = F a) :
    (l.set i b).filterMap F = l.filterMap F := by
  induction l generalizing i with
  | nil => rfl
  | cons d l ih =>
      cases i with
      | zero =>
          obtain rfl : d = a := Option.some.inj h
          rw [List.set_cons_zero, List.filterMap_cons, List.filterMap_cons, hF]
      | succ i => rw [List.set_cons_succ, List.filterMap_cons, List.filterMap_cons, ih h]

/-- An entry that comes to count goes to the end, up to the order. -/
theorem filterMap_set_perm (F : α → Option β) {y : β} (h : l[i]? = some a) (ha : F a = none)
    (hb : F b = some y) : ((l.set i b).filterMap F).Perm (l.filterMap F ++ [y]) := by
  induction l generalizing i with
  | nil => cases h
  | cons d l ih =>
      cases i with
      | zero =>
          obtain rfl : d = a := Option.some.inj h
          rw [List.set_cons_zero, List.filterMap_cons_some hb, List.filterMap_cons_none ha]
          exact (List.perm_append_singleton y _).symm
      | succ i =>
          rw [List.set_cons_succ]
          cases hd : F d with
          | none =>
              rw [List.filterMap_cons_none hd, List.filterMap_cons_none hd]
              exact ih h
          | some x =>
              rw [List.filterMap_cons_some hd, List.filterMap_cons_some hd]
              exact (ih h).cons x

/-- In a list where nothing behind it counts it is the last one. -/
theorem filterMap_set_last (F : α → Option β) {y : β} (h : l[i]? = some a) (ha : F a = none)
    (hb : F b = some y) (hlast : ∀ j d, i < j → l[j]? = some d → F d = none) :
    (l.set i b).filterMap F = l.filterMap F ++ [y] := by
  induction l generalizing i with
  | nil => cases h
  | cons d l ih =>
      cases i with
      | zero =>
          obtain rfl : d = a := Option.some.inj h
          have hrest : l.filterMap F = [] := by
            rw [List.filterMap_eq_nil_iff]
            intro x hx
            obtain ⟨j, hj⟩ := List.getElem?_of_mem hx
            exact hlast (j + 1) x (Nat.succ_pos j) hj
          rw [List.set_cons_zero, List.filterMap_cons_some hb, List.filterMap_cons_none ha, hrest]
          rfl
      | succ i =>
          have hnext := ih h fun j x hj hx => hlast (j + 1) x (Nat.succ_lt_succ hj) hx
          rw [List.set_cons_succ, List.filterMap_cons, List.filterMap_cons, hnext]
          cases F d <;> rfl

end Lists

structure Moves (s t : Endpoints) (i : ℕ) (c c' : ReadCall) : Prop where
  call : s.calls[i]? = some c
  calls : t.calls = s.calls.set i c'
  endpoints : t.endpoints = s.endpoints
  endpoint : c'.endpoint = c.endpoint
  running : c'.Running → c.Running
  received : t.received = s.received ∧ c'.data = c.data ∨
    c.Running ∧ c.data = none ∧
      ∃ bytes, t.received = s.received ++ [(c.endpoint, bytes)] ∧ c'.data = some bytes

section Moves

variable {s t : Endpoints} {i : ℕ} {c c' : ReadCall}

theorem Moves.lookup (h : Moves s t i c c') {j : ℕ} {d : ReadCall} (hd : t.calls[j]? = some d) :
    ∃ e, s.calls[j]? = some e ∧ d.endpoint = e.endpoint ∧ (d.Running → e.Running) := by
  rw [h.calls, List.getElem?_set] at hd
  split_ifs at hd with hij hlt
  · obtain rfl := Option.some.inj hd
    exact ⟨c, hij ▸ h.call, h.endpoint, h.running⟩
  · exact ⟨d, hd, rfl, id⟩

theorem Moves.lookup_ne (h : Moves s t i c c') {j : ℕ} (hj : j ≠ i) :
    t.calls[j]? = s.calls[j]? := by
  rw [h.calls, List.getElem?_set_ne hj.symm]

theorem Moves.lookup_self (h : Moves s t i c c') : t.calls[i]? = some c' := by
  rw [h.calls, List.getElem?_set_self (List.getElem?_eq_some_iff.mp h.call).1]

theorem Moves.receivedBy (h : Moves s t i c c') (k : ℕ) :
    t.receivedBy k = s.receivedBy k ∧ t.dataOf k = s.dataOf k ∨
      c.Running ∧ c.endpoint = k ∧ c.data = none ∧
        ∃ bytes, t.receivedBy k = s.receivedBy k ++ [bytes] ∧ c'.data = some bytes := by
  have hdata : c'.data = c.data ∨ c.endpoint ≠ k → t.dataOf k = s.dataOf k := by
    intro hsame
    rw [Endpoints.dataOf, h.calls]
    refine filterMap_set_of_eq _ h.call ?_
    rw [h.endpoint]
    rcases hsame with hsame | hother
    · rw [hsame]
    · rw [if_neg hother, if_neg hother]
  rcases h.received with ⟨hreceived, hsame⟩ | ⟨hrunning, hnone, bytes, hreceived, hsome⟩
  · exact .inl ⟨by rw [Endpoints.receivedBy, hreceived]; rfl, hdata (.inl hsame)⟩
  · have happend : t.receivedBy k =
        s.receivedBy k ++ (if c.endpoint = k then [bytes] else []) := by
      rw [Endpoints.receivedBy, hreceived, List.filterMap_append]
      congr 1
      by_cases hk : c.endpoint = k <;> simp [hk]
    by_cases hk : c.endpoint = k
    · rw [if_pos hk] at happend
      exact .inr ⟨hrunning, hk, hnone, bytes, happend, hsome⟩
    · rw [if_neg hk, List.append_nil] at happend
      exact .inl ⟨happend, hdata (.inr hk)⟩

theorem Moves.streams (h : Moves s t i c c') {k : ℕ} (hs : (s.receivedBy k).Perm (s.dataOf k)) :
    (t.receivedBy k).Perm (t.dataOf k) := by
  rcases h.receivedBy k with ⟨hreceived, hdata⟩ | ⟨-, hk, hnone, bytes, hreceived, hsome⟩
  · rwa [hreceived, hdata]
  · rw [hreceived, Endpoints.dataOf, h.calls]
    refine (hs.append_right [bytes]).trans (filterMap_set_perm _ h.call ?_ ?_).symm
    · rw [hnone, ite_self]
    · rw [h.endpoint, if_pos hk, hsome]

theorem Moves.inOrder (h : Moves s t i c c') (hs : s.InOrder) : t.InOrder := by
  refine ⟨fun j k d d' hjk hd hd' hsame => ?_, fun k => ?_⟩
  · obtain ⟨e, he, hend, hrun⟩ := h.lookup hd
    obtain ⟨e', he', hend', -⟩ := h.lookup hd'
    exact fun hrunning =>
      hs.turned j k e e' hjk he he' (hend.symm.trans (hsame.trans hend')) (hrun hrunning)
  · rcases h.receivedBy k with ⟨hreceived, hdata⟩ | ⟨hrunning, hk, hnone, bytes, hreceived, hsome⟩
    · rw [hreceived, hdata, hs.streams]
    · rw [hreceived, Endpoints.dataOf, h.calls, hs.streams]
      refine (filterMap_set_last _ h.call ?_ ?_ fun j d hj hd => ?_).symm
      · rw [hnone, ite_self]
      · rw [h.endpoint, if_pos hk, hsome]
      · rw [if_neg fun hend => hs.turned i j c d hj h.call hd (hk.trans hend.symm) hrunning]

theorem Moves.sound (h : Moves s t i c c') (hs : s.Sound) (hfaithful : c'.Faithful)
    (hwatchers : ∀ w ∈ t.engine.watchers, (w ∈ s.engine.watchers ∧ w.callback ≠ .read i) ∨
      (∀ j, w.callback = .read j → j = i ∧ t.Watches w i))
    (honce : ∀ j, t.callbacks.count (.read j) = if j = i then c'.places else s.places j)
    (hslices : t.mallocs + s.unrefs + c.held = s.mallocs + t.unrefs + c'.held) : t.Sound where
  faithful d hd := by
    rw [h.calls] at hd
    rcases List.mem_or_eq_of_mem_set hd with hd | rfl
    · exact hs.faithful d hd
    · exact hfaithful
  owned d hd := by
    obtain ⟨j, hj⟩ := List.getElem?_of_mem hd
    obtain ⟨e, he, hend, hrun⟩ := h.lookup hj
    obtain ⟨owner, howner, halive⟩ := hs.owned e (List.mem_of_getElem? he)
    rw [hend, h.endpoints]
    exact ⟨owner, howner, fun hd => halive (hrun hd)⟩
  watched w hw j hj := by
    rcases hwatchers w hw with ⟨hold, hne⟩ | hnew
    · obtain ⟨d, e, read, hd, he, hrest⟩ := hs.watched w hold j hj
      have hji : j ≠ i := fun heq => hne (heq ▸ hj)
      exact ⟨d, e, read, (h.lookup_ne hji).trans hd, h.endpoints ▸ he, hrest⟩
    · obtain ⟨rfl, hwatches⟩ := hnew j hj
      exact hwatches
  once j := by
    rw [honce]
    split_ifs with hji
    · rw [Endpoints.places, hji, h.lookup_self]
      rfl
    · rw [Endpoints.places, Endpoints.places, h.lookup_ne hji]
  apart := h.endpoints ▸ hs.apart
  slices := by
    have hsum := sum_map_set ReadCall.held (b := c') h.call
    have hold := hs.slices
    rw [h.calls]
    omega
  streams k := h.streams (hs.streams k)

end Moves

section Steps

variable {s t : Endpoints}

theorem places_of_call {i : ℕ} {c : ReadCall} (h : s.calls[i]? = some c) :
    s.places i = c.places := by
  rw [Endpoints.places, h]
  rfl

theorem filledSlice_of_possible {bytes : Bytes} (h : (ReadOutcome.data bytes).Possible) :
    filledSlice bytes = some bytes := by
  rw [filledSlice, Nat.zero_add, if_pos h.2, ite_self]

/-- A read without a callback has no watcher. -/
theorem Endpoints.Sound.not_watched (hs : s.Sound) {i : ℕ} {c : ReadCall}
    (hcall : s.calls[i]? = some c) (hplaces : c.places = 0) :
    ∀ w ∈ s.engine.watchers, w.callback ≠ .read i := by
  intro w hw hread
  have hcount : s.callbacks.count (.read i) = 0 := by
    rw [hs.once, places_of_call hcall, hplaces]
  rw [List.count_eq_zero] at hcount
  exact hcount (List.mem_append_left _ (List.mem_map.mpr ⟨w, hw, hread⟩))

/-- A read that is moved without the engine. -/
theorem Moves.sound_of_engine {i : ℕ} {c c' : ReadCall} (h : Moves s t i c c') (hs : s.Sound)
    (hengine : t.engine = s.engine) (htaken : t.taken = s.taken) (hplaces : c.places = 0)
    (hplaces' : c'.places = 0) (hfaithful : c'.Faithful)
    (hslices : t.mallocs + s.unrefs + c.held = s.mallocs + t.unrefs + c'.held) : t.Sound := by
  refine h.sound hs hfaithful (fun w hw => .inl ?_) (fun j => ?_) hslices
  · rw [hengine] at hw
    exact ⟨hw, hs.not_watched h.call hplaces w hw⟩
  · rw [Endpoints.callbacks, hengine, htaken, ← Endpoints.callbacks, hs.once]
    split_ifs with hji
    · rw [hji, places_of_call h.call, hplaces, hplaces']
    · rfl

theorem data_of_unread {c : ReadCall} (hphase : ∀ bytes, c.phase ≠ .answered (.data bytes))
    (hbuffer : c.buffer = c.given) : c.data = none := by
  rw [ReadCall.data]
  split
  · next bytes hdata => exact absurd hdata (hphase bytes)
  · rw [hbuffer, List.drop_length]
    rfl

theorem sound_sslRead {i : ℕ} {c : ReadCall} {outcome : ReadOutcome}
    (hcall : s.calls[i]? = some c) (hphase : c.phase = .reading) (hpossible : outcome.Possible)
    (hs : s.Sound) :
    (answer s i c outcome).Sound ∧
      Moves s (answer s i c outcome) i c { c with phase := .answered outcome } := by
  have hfaithful := hs.faithful c (List.mem_of_getElem? hcall)
  rw [ReadCall.Faithful, hphase] at hfaithful
  obtain ⟨hcalls, hbuffer⟩ := hfaithful
  have hnone : c.data = none := data_of_unread (by simp [hphase]) hbuffer
  have hnew : ∀ o, (∀ bytes, o ≠ .data bytes) →
      ({ c with phase := .answered o } : ReadCall).data = none :=
    fun o ho => data_of_unread (fun bytes hdata => ho bytes (ReadPhase.answered.inj hdata)) hbuffer
  have hrunning : c.Running := by simp [ReadCall.Running, hphase]
  have hmoves : Moves s (answer s i c outcome) i c { c with phase := .answered outcome } := by
    refine ⟨hcall, rfl, rfl, rfl, fun _ => hrunning, ?_⟩
    cases outcome with
    | data bytes => exact .inr ⟨hrunning, hnone, bytes, rfl, rfl⟩
    | wantRead | wantWrite | fatal =>
        exact .inl ⟨List.append_nil _, (hnew _ (by simp)).trans hnone.symm⟩
  refine ⟨hmoves.sound_of_engine hs rfl rfl (by simp [ReadCall.places, hphase]) rfl
    ⟨hcalls, hbuffer, hpossible⟩ ?_, hmoves⟩
  simp [answer, Endpoints.setCall, ReadCall.held, hphase]

theorem watchers_push (engine : PollEngine Callback) (fd : ℤ) (callback : Callback)
    (read write : Bool) :
    (engine.push fd callback read write true).watchers =
      engine.watchers ++ [⟨fd, PollEngine.requestFlags read write, callback⟩] := rfl

theorem sound_wantsMore {i : ℕ} {c : ReadCall} {e : Endpoint} {outcome : ReadOutcome}
    {read : Bool} (hcall : s.calls[i]? = some c) (howner : s.endpoints[c.endpoint]? = some e)
    (hphase : c.phase = .answered outcome) (houtcome : ∀ bytes, outcome ≠ .data bytes)
    (hs : s.Sound) :
    (wantsMore s i c e read).Sound ∧ ∃ c', Moves s (wantsMore s i c e read) i c c' := by
  have hfaithful := hs.faithful c (List.mem_of_getElem? hcall)
  rw [ReadCall.Faithful, hphase] at hfaithful
  obtain ⟨hcalls, hbuffer, -⟩ := hfaithful
  have hnone : ∀ phase, (∀ bytes, phase ≠ .answered (.data bytes)) →
      ({ c with phase := phase } : ReadCall).data = none :=
    fun phase hdata => data_of_unread hdata hbuffer
  have hold : c.data = none :=
    data_of_unread (by simpa [hphase] using houtcome) hbuffer
  have hrunning : c.Running := by simp [ReadCall.Running, hphase]
  have hplaces : c.places = 0 := by simp [ReadCall.places, hphase]
  rw [wantsMore]
  split_ifs with hshared
  · have hmoves : Moves s { ({ s with unrefs := s.unrefs + 1 } : Endpoints).setCall i
        { c with phase := .waiting read } with
          engine := s.engine.push e.fd (.read i) read (!read) true } i c
        { c with phase := .waiting read } :=
      ⟨hcall, rfl, rfl, rfl, fun _ => hrunning, .inl ⟨rfl, (hnone _ (by simp)).trans hold.symm⟩⟩
    refine ⟨hmoves.sound hs ⟨hcalls, hbuffer⟩ (fun w hw => ?_) (fun j => ?_) ?_, _, hmoves⟩
    · rw [watchers_push] at hw
      rcases List.mem_append.mp hw with hw | hw
      · exact .inl ⟨hw, hs.not_watched hcall hplaces w hw⟩
      · obtain rfl := List.mem_singleton.mp hw
        refine .inr fun j hj => ⟨(Callback.read.inj hj).symm, ?_⟩
        exact ⟨_, e, read, hmoves.lookup_self, howner, rfl, rfl, rfl⟩
    · rw [Endpoints.callbacks, watchers_push, List.map_append, List.append_assoc,
        List.count_append, List.count_append]
      have hcount := hs.once j
      rw [Endpoints.callbacks, List.count_append] at hcount
      split_ifs with hji
      · rw [hji, places_of_call hcall, hplaces] at hcount
        rw [hji]
        simp only [Endpoints.setCall, List.map_cons, List.map_nil, List.count_singleton_self,
          ReadCall.places]
        omega
      · have hother : List.count (Callback.read j) [Callback.read i] = 0 := by
          simp [Ne.symm hji]
        simp only [Endpoints.setCall, List.map_cons, List.map_nil, hother]
        omega
    · simp only [Endpoints.setCall, ReadCall.held, hphase, hbuffer]
      omega
  · have hmoves : Moves s (({ s with unrefs := s.unrefs + 1 } : Endpoints).setCall i
        { c with phase := .thrown }) i c { c with phase := .thrown } :=
      ⟨hcall, rfl, rfl, rfl, fun _ => hrunning, .inl ⟨rfl, (hnone _ (by simp)).trans hold.symm⟩⟩
    refine ⟨hmoves.sound_of_engine hs rfl rfl hplaces rfl ⟨hcalls, hbuffer⟩ ?_, _, hmoves⟩
    simp only [Endpoints.setCall, ReadCall.held, hphase, hbuffer]
    omega

theorem sound_doReadTail {i : ℕ} {c : ReadCall} {e : Endpoint} {outcome : ReadOutcome}
    (hcall : s.calls[i]? = some c) (howner : s.endpoints[c.endpoint]? = some e)
    (hphase : c.phase = .answered outcome) (htail : doReadTail s i c e outcome = some t)
    (hs : s.Sound) : t.Sound ∧ ∃ c', Moves s t i c c' := by
  have hfaithful := hs.faithful c (List.mem_of_getElem? hcall)
  rw [ReadCall.Faithful, hphase] at hfaithful
  obtain ⟨hcalls, hbuffer, hpossible⟩ := hfaithful
  have hrunning : c.Running := by simp [ReadCall.Running, hphase]
  have hplaces : c.places = 0 := by simp [ReadCall.places, hphase]
  cases outcome with
  | data bytes =>
      rw [doReadTail, filledSlice_of_possible hpossible, Option.map_some,
        Option.some.injEq] at htail
      subst htail
      have hmoves : Moves s (s.setCall i { c with
          buffer := c.buffer ++ [bytes], phase := .finished, onRead := c.onRead ++ [.ok] }) i c
          { c with
            buffer := c.buffer ++ [bytes], phase := .finished, onRead := c.onRead ++ [.ok] } := by
        refine ⟨hcall, rfl, rfl, rfl, fun _ => hrunning, .inl ⟨rfl, ?_⟩⟩
        simp [ReadCall.data, hphase, hbuffer]
      refine ⟨hmoves.sound_of_engine hs rfl rfl hplaces rfl ?_ ?_, _, hmoves⟩
      · exact .inr ⟨by rw [hcalls]; rfl, bytes, hpossible, by rw [hbuffer]⟩
      · simp [Endpoints.setCall, ReadCall.held, hphase, hbuffer]
  | wantRead =>
      obtain rfl := Option.some.inj htail
      exact sound_wantsMore hcall howner hphase (by simp) hs
  | wantWrite =>
      obtain rfl := Option.some.inj htail
      exact sound_wantsMore hcall howner hphase (by simp) hs
  | fatal =>
      obtain rfl := Option.some.inj htail
      have hmoves : Moves s (({ s with unrefs := s.unrefs + 1 } : Endpoints).setCall i
          { c with phase := .finished, onRead := c.onRead ++ [.internalError] }) i c
          { c with phase := .finished, onRead := c.onRead ++ [.internalError] } := by
        refine ⟨hcall, rfl, rfl, rfl, fun _ => hrunning, .inl ⟨rfl, ?_⟩⟩
        simp [ReadCall.data, hphase, hbuffer]
      refine ⟨hmoves.sound_of_engine hs rfl rfl hplaces rfl ?_ ?_, _, hmoves⟩
      · exact .inl ⟨by rw [hcalls]; rfl, hbuffer⟩
      · simp only [Endpoints.setCall, ReadCall.held, hphase, hbuffer]
        omega

theorem taken_perm {k : ℕ} {callback : Callback} (h : s.taken[k]? = some callback) :
    (callback :: s.taken.eraseIdx k).Perm s.taken := by
  obtain ⟨hlt, rfl⟩ := List.getElem?_eq_some_iff.mp h
  exact List.getElem_cons_eraseIdx_perm hlt

theorem sound_start {k i : ℕ} {c : ReadCall} (htaken : s.taken[k]? = some (.read i))
    (hcall : s.calls[i]? = some c) (hs : s.Sound) :
    let t := doReadHead { s with taken := s.taken.eraseIdx k } i c
    t.Sound ∧ Moves s t i c { c with phase := .reading } := by
  have hcount : ∀ j, s.callbacks.count (.read j) =
      (s.engine.watchers.map Watcher.callback).count (.read j) +
        ((if j = i then 1 else 0) + (s.taken.eraseIdx k).count (.read j)) := by
    intro j
    rw [Endpoints.callbacks, List.count_append, ← (taken_perm htaken).count_eq, List.count_cons]
    by_cases hji : j = i
    · subst hji
      simp [Nat.add_comm]
    · have hne : ¬i = j := fun h => hji h.symm
      simp [hji, hne]
  have honce : s.callbacks.count (.read i) = c.places := by rw [hs.once, places_of_call hcall]
  have hone := hcount i
  rw [if_pos rfl, honce] at hone
  obtain ⟨read, hphase⟩ : ∃ read, c.phase = .waiting read := by
    rw [ReadCall.places] at hone
    split at hone
    · next read hread => exact ⟨read, hread⟩
    · omega
  have hplaces : c.places = 1 := by simp [ReadCall.places, hphase]
  have hfaithful := hs.faithful c (List.mem_of_getElem? hcall)
  rw [ReadCall.Faithful, hphase] at hfaithful
  obtain ⟨hcalls, hbuffer⟩ := hfaithful
  have hnone : ∀ phase, (∀ bytes, phase ≠ .answered (.data bytes)) →
      ({ c with phase := phase } : ReadCall).data = none :=
    fun phase hdata => data_of_unread hdata hbuffer
  have hmoves : Moves s (doReadHead { s with taken := s.taken.eraseIdx k } i c) i c
      { c with phase := .reading } := by
    refine ⟨hcall, rfl, rfl, rfl, fun _ => by simp [ReadCall.Running, hphase], .inl ⟨rfl, ?_⟩⟩
    rw [hnone _ (by simp), data_of_unread (by simp [hphase]) hbuffer]
  refine ⟨hmoves.sound hs ⟨hcalls, hbuffer⟩ (fun w hw => .inl ⟨hw, fun hread => ?_⟩)
    (fun j => ?_) ?_, hmoves⟩
  · -- the one callback of the read is the one that was taken
    have hmem : Callback.read i ∈ s.engine.watchers.map Watcher.callback :=
      List.mem_map.mpr ⟨w, hw, hread⟩
    have hpos := List.count_pos_iff.mpr hmem
    omega
  · have hj := hcount j
    rw [hs.once] at hj
    change ((s.engine.watchers.map Watcher.callback) ++ s.taken.eraseIdx k).count (.read j) = _
    rw [List.count_append]
    split_ifs with hji
    · rw [hji, places_of_call hcall, if_pos rfl] at hj
      rw [hji]
      simp only [ReadCall.places]
      omega
    · rw [if_neg hji] at hj
      omega
  · simp only [doReadHead, Endpoints.setCall, ReadCall.held, hphase, hbuffer]
    omega

theorem Endpoints.Sound.stays (hs : s.Sound) (hcalls : t.calls = s.calls)
    (hendpoints : t.endpoints = s.endpoints) (hreceived : t.received = s.received)
    (hmallocs : t.mallocs = s.mallocs) (hunrefs : t.unrefs = s.unrefs)
    (hwatchers : ∀ w ∈ t.engine.watchers, w ∈ s.engine.watchers ∨ w.callback = .other)
    (hcount : ∀ j, t.callbacks.count (.read j) = s.callbacks.count (.read j)) : t.Sound where
  faithful := hcalls ▸ hs.faithful
  owned := by
    rw [hcalls, hendpoints]
    exact hs.owned
  watched w hw i hi := by
    rcases hwatchers w hw with hw | hother
    · rw [Endpoints.Watches, hcalls, hendpoints]
      exact hs.watched w hw i hi
    · rw [hother] at hi
      cases hi
  once j := by
    rw [hcount, hs.once, Endpoints.places, Endpoints.places, hcalls]
  apart := hendpoints ▸ hs.apart
  slices := by rw [hmallocs, hunrefs, hcalls, hs.slices]
  streams k := by
    have hk := hs.streams k
    rwa [Endpoints.receivedBy, Endpoints.dataOf, hreceived, hcalls]

theorem sound_take {events : List Epoll.Event} {polls : List (List Epoll.Event)} (hs : s.Sound) :
    Endpoints.Sound { s with
      engine := (s.engine.pollSection events).1
      polls := polls
      taken := s.taken ++ (s.engine.pollSection events).2 } := by
  have htake := s.engine.watchers_pollSection events
  have hperm := PollEngine.takeCallbacks_perm events s.engine.watchers
  have hstay : (s.engine.pollSection events).1.watchers =
      (PollEngine.takeCallbacks events s.engine.watchers).1 := congrArg Prod.fst htake
  rw [PollEngine.takeCallbacks_fst] at hstay
  rw [← htake] at hperm
  refine hs.stays rfl rfl rfl rfl rfl (fun w hw => .inl ?_) fun j => ?_
  · have hw : w ∈ (s.engine.pollSection events).1.watchers := hw
    rw [hstay] at hw
    exact List.mem_of_mem_filter hw
  · have hcount := hperm.count_eq (Callback.read j)
    simp only [List.count_append, Endpoints.callbacks] at hcount ⊢
    omega

/-- The watchers that a destructor drops are not those of reads. -/
theorem count_pop {endpoint : ℕ} {e : Endpoint} (hs : s.Sound)
    (he : s.endpoints[endpoint]? = some e) (halive : e.alive = true)
    (hidle : ∀ c ∈ s.calls, c.endpoint = endpoint → ¬c.Running) (j : ℕ) :
    ((s.engine.pop e.fd).watchers.map Watcher.callback).count (.read j) =
      (s.engine.watchers.map Watcher.callback).count (.read j) := by
  rw [PollEngine.pop, List.count_eq_countP, List.count_eq_countP, List.countP_map,
    List.countP_map, List.countP_filter]
  refine List.countP_congr fun w hw => ?_
  simp only [Function.comp_apply, beq_iff_eq, Bool.and_eq_true, ne_eq, decide_not,
    Bool.not_eq_true', decide_eq_false_iff_not, and_iff_left_iff_imp]
  intro hread hfd
  obtain ⟨c, d, read, hcall, hd, hphase, hwfd, -⟩ := hs.watched w hw j hread
  have hmem := List.mem_of_getElem? hcall
  have hrunning : c.Running := by simp [ReadCall.Running, hphase]
  obtain ⟨d', hd', halive'⟩ := hs.owned c hmem
  obtain rfl : d = d' := Option.some.inj (hd.symm.trans hd')
  have hsame := hs.apart c.endpoint endpoint d e hd he (halive' hrunning) halive
    (hwfd.symm.trans hfd)
  exact hidle c hmem hsame hrunning

theorem sound_destroy {endpoint : ℕ} {e : Endpoint} (he : s.endpoints[endpoint]? = some e)
    (halive : e.alive = true) (hidle : ∀ c ∈ s.calls, c.endpoint = endpoint → ¬c.Running)
    (hs : s.Sound) :
    Endpoints.Sound { s with
      engine := s.engine.pop e.fd
      endpoints := s.endpoints.set endpoint { e with alive := false } } := by
  have hlt := (List.getElem?_eq_some_iff.mp he).1
  have hother : ∀ k, k ≠ endpoint →
      (s.endpoints.set endpoint { e with alive := false })[k]? = s.endpoints[k]? :=
    fun k hk => List.getElem?_set_ne hk.symm
  have hself : (s.endpoints.set endpoint { e with alive := false })[endpoint]? =
      some { e with alive := false } := List.getElem?_set_self hlt
  refine ⟨hs.faithful, fun c hc => ?_, fun w hw i hi => ?_, fun j => ?_, ?_, hs.slices, hs.streams⟩
  · by_cases hend : c.endpoint = endpoint
    · refine ⟨{ e with alive := false }, ?_, fun hrunning => absurd hrunning (hidle c hc hend)⟩
      rw [hend]
      exact hself
    · obtain ⟨d, hd, hrest⟩ := hs.owned c hc
      exact ⟨d, (hother _ hend).trans hd, hrest⟩
  · obtain ⟨c, d, read, hcall, hd, hphase, hrest⟩ :=
      hs.watched w (List.mem_of_mem_filter hw) i hi
    have hrunning : c.Running := by simp [ReadCall.Running, hphase]
    have hend : c.endpoint ≠ endpoint :=
      fun h => hidle c (List.mem_of_getElem? hcall) h hrunning
    exact ⟨c, d, read, hcall, (hother _ hend).trans hd, hphase, hrest⟩
  · change (_ ++ s.taken).count (.read j) = s.places j
    rw [List.count_append, count_pop hs he halive hidle, ← List.count_append]
    exact hs.once j
  · intro j k d d' hd hd' hdalive hdalive' hfd
    have hold : ∀ (k : ℕ) (d : Endpoint),
        (s.endpoints.set endpoint { e with alive := false })[k]? = some d → d.alive = true →
          s.endpoints[k]? = some d := by
      intro k d hd hdalive
      by_cases hk : k = endpoint
      · rw [hk, hself] at hd
        obtain rfl := Option.some.inj hd
        cases hdalive
      · rwa [hother k hk] at hd
    exact hs.apart j k d d' (hold j d hd hdalive) (hold k d' hd' hdalive') hdalive hdalive' hfd

theorem sound_create {fd : ℤ} {shared : Bool}
    (hnew : ∀ e ∈ s.endpoints, e.alive = true → e.fd ≠ fd) (hs : s.Sound) :
    Endpoints.Sound { s with endpoints := s.endpoints ++ [⟨fd, shared, true⟩] } := by
  have hkeep : ∀ {k : ℕ} {e : Endpoint}, s.endpoints[k]? = some e →
      (s.endpoints ++ [⟨fd, shared, true⟩])[k]? = some e :=
    fun h => by rw [List.getElem?_append_left (List.getElem?_eq_some_iff.mp h).1, h]
  have hcases : ∀ {k : ℕ} {e : Endpoint}, (s.endpoints ++ [⟨fd, shared, true⟩])[k]? = some e →
      s.endpoints[k]? = some e ∨ k = s.endpoints.length ∧ e.fd = fd := by
    intro k e h
    rcases lt_or_ge k s.endpoints.length with hk | hk
    · exact .inl (List.getElem?_append_left hk ▸ h)
    · rw [List.getElem?_append_right hk] at h
      obtain ⟨hlt, rfl⟩ := List.getElem?_eq_some_iff.mp h
      rw [List.length_singleton] at hlt
      exact .inr ⟨by omega, by simp⟩
  refine ⟨hs.faithful, fun c hc => ?_, fun w hw i hi => ?_, hs.once, ?_, hs.slices, hs.streams⟩
  · obtain ⟨e, he, hrest⟩ := hs.owned c hc
    exact ⟨e, hkeep he, hrest⟩
  · obtain ⟨c, e, read, hcall, he, hrest⟩ := hs.watched w hw i hi
    exact ⟨c, e, read, hcall, hkeep he, hrest⟩
  · intro j k d e hd he hdalive halive hfd
    rcases hcases hd with hd | ⟨rfl, hdfd⟩ <;> rcases hcases he with he | ⟨rfl, hefd⟩
    · exact hs.apart j k d e hd he hdalive halive hfd
    · exact absurd (hfd.trans hefd) (hnew d (List.mem_of_getElem? hd) hdalive)
    · exact absurd (hfd.symm.trans hdfd) (hnew e (List.mem_of_getElem? he) halive)
    · rfl

theorem sound_read {endpoint : ℕ} {e : Endpoint} (buffer : List Bytes)
    (he : s.endpoints[endpoint]? = some e) (halive : e.alive = true) (hs : s.Sound) :
    Endpoints.Sound { s with
      mallocs := s.mallocs + 1
      calls := s.calls ++ [⟨endpoint, buffer, buffer, .reading, []⟩] } := by
  refine ⟨fun c hc => ?_, fun c hc => ?_, fun w hw i hi => ?_, fun j => ?_, hs.apart, ?_,
    fun k => ?_⟩
  · rcases List.mem_append.mp hc with hc | hc
    · exact hs.faithful c hc
    · obtain rfl := List.mem_singleton.mp hc
      exact ⟨rfl, rfl⟩
  · rcases List.mem_append.mp hc with hc | hc
    · exact hs.owned c hc
    · obtain rfl := List.mem_singleton.mp hc
      exact ⟨e, he, fun _ => halive⟩
  · obtain ⟨c, d, read, hcall, hrest⟩ := hs.watched w hw i hi
    refine ⟨c, d, read, ?_, hrest⟩
    rw [List.getElem?_append_left (List.getElem?_eq_some_iff.mp hcall).1, hcall]
  · have hold := hs.once j
    rw [Endpoints.places] at hold ⊢
    rcases lt_or_ge j s.calls.length with hj | hj
    · rw [List.getElem?_append_left hj]
      exact hold
    · rw [List.getElem?_eq_none hj] at hold
      refine hold.trans ?_
      rw [List.getElem?_append_right hj]
      rcases Nat.eq_zero_or_pos (j - s.calls.length) with hzero | hpos
      · rw [hzero]
        rfl
      · rw [List.getElem?_eq_none hpos]
  · have hold := hs.slices
    simp only [List.map_append, List.map_cons, List.map_nil, List.sum_append, List.sum_cons,
      List.sum_nil, ReadCall.held]
    omega
  · have hk := hs.streams k
    rw [Endpoints.dataOf] at hk ⊢
    rw [List.filterMap_append]
    simpa [ReadCall.data, Endpoints.receivedBy] using hk

theorem step_read_eq_some {endpoint : ℕ} {buffer : List Bytes} :
    step s (.read endpoint buffer) = some t ↔
      ∃ e, s.endpoints[endpoint]? = some e ∧ e.alive = true ∧
        { s with
          mallocs := s.mallocs + 1
          calls := s.calls ++ [⟨endpoint, buffer, buffer, .reading, []⟩] } = t := by
  rw [step, Option.bind_eq_some_iff]
  refine exists_congr fun e => and_congr_right fun _ => ?_
  split_ifs with h <;> simp [h]

theorem step_sslRead_eq_some {i : ℕ} {outcome : ReadOutcome} :
    step s (.sslRead i outcome) = some t ↔
      ∃ c, s.calls[i]? = some c ∧ (c.phase = .reading ∧ outcome.Possible) ∧
        answer s i c outcome = t := by
  rw [step, Option.bind_eq_some_iff]
  refine exists_congr fun c => and_congr_right fun _ => ?_
  split_ifs with h <;> simp [h]

theorem step_proceed_eq_some {i : ℕ} :
    step s (.proceed i) = some t ↔
      ∃ c e outcome, s.calls[i]? = some c ∧ s.endpoints[c.endpoint]? = some e ∧
        c.phase = .answered outcome ∧ doReadTail s i c e outcome = some t := by
  simp only [step, Option.bind_eq_some_iff]
  constructor
  · rintro ⟨c, hc, e, he, hstep⟩
    split at hstep
    · next outcome hphase => exact ⟨c, e, outcome, hc, he, hphase, hstep⟩
    · cases hstep
  · rintro ⟨c, e, outcome, hc, he, hphase, hstep⟩
    exact ⟨c, hc, e, he, by rw [hphase]; exact hstep⟩

theorem step_start_eq_some {k : ℕ} :
    step s (.start k) = some t ↔
      (∃ i c, s.taken[k]? = some (.read i) ∧ s.calls[i]? = some c ∧
        doReadHead { s with taken := s.taken.eraseIdx k } i c = t) ∨
      s.taken[k]? = some .other ∧ { s with taken := s.taken.eraseIdx k } = t := by
  rw [step]
  rcases s.taken[k]? with _ | (i | -)
  · simp
  · simp
  · simp

theorem step_destroy_eq_some {endpoint : ℕ} :
    step s (.destroy endpoint) = some t ↔
      ∃ e, s.endpoints[endpoint]? = some e ∧
        (e.alive = true ∧ ∀ c ∈ s.calls, c.endpoint = endpoint → ¬c.Running) ∧
        { s with
          engine := s.engine.pop e.fd
          endpoints := s.endpoints.set endpoint { e with alive := false } } = t := by
  rw [step, Option.bind_eq_some_iff]
  refine exists_congr fun e => and_congr_right fun _ => ?_
  rw [Option.ite_none_right_eq_some, Option.some.injEq]

inductive StepCases (s t : Endpoints) : Event → Prop
  | moved (event : Event) (i : ℕ) (c c' : ReadCall) (moves : Moves s t i c c') : StepCases s t event
  | began (endpoint : ℕ) (buffer : List Bytes)
      (calls : t.calls = s.calls ++ [⟨endpoint, buffer, buffer, .reading, []⟩])
      (received : t.received = s.received) : StepCases s t (.read endpoint buffer)
  | same (event : Event) (calls : t.calls = s.calls) (received : t.received = s.received) :
      StepCases s t event

theorem sound_step (s : Endpoints) (event : Event) (t : Endpoints) (hs : s.Sound)
    (hstep : step s event = some t) : t.Sound ∧ StepCases s t event := by
  cases event with
  | create fd shared =>
      rw [step, Option.ite_none_right_eq_some, Option.some.injEq] at hstep
      obtain ⟨hnew, rfl⟩ := hstep
      exact ⟨sound_create hnew hs, .same _ rfl rfl⟩
  | read endpoint buffer =>
      obtain ⟨e, he, halive, rfl⟩ := step_read_eq_some.mp hstep
      exact ⟨sound_read buffer he halive hs, .began _ _ rfl rfl⟩
  | sslRead i outcome =>
      obtain ⟨c, hcall, ⟨hphase, hpossible⟩, rfl⟩ := step_sslRead_eq_some.mp hstep
      obtain ⟨hsound, hmoves⟩ := sound_sslRead hcall hphase hpossible hs
      exact ⟨hsound, .moved _ i c _ hmoves⟩
  | proceed i =>
      obtain ⟨c, e, outcome, hcall, howner, hphase, htail⟩ := step_proceed_eq_some.mp hstep
      obtain ⟨hsound, c', hmoves⟩ := sound_doReadTail hcall howner hphase htail hs
      exact ⟨hsound, .moved _ i c c' hmoves⟩
  | push fd read write =>
      obtain rfl := Option.some.inj hstep
      refine ⟨hs.stays rfl rfl rfl rfl rfl (fun w hw => ?_) fun j => ?_, .same _ rfl rfl⟩
      · rw [watchers_push] at hw
        rcases List.mem_append.mp hw with hw | hw
        · exact .inl hw
        · rw [List.mem_singleton.mp hw]
          exact .inr rfl
      · rw [Endpoints.callbacks, watchers_push]
        simp [Endpoints.callbacks]
  | wait events =>
      rw [step, Option.ite_none_right_eq_some, Option.some.injEq] at hstep
      obtain ⟨-, rfl⟩ := hstep
      exact ⟨hs.stays rfl rfl rfl rfl rfl (fun w hw => .inl hw) fun _ => rfl, .same _ rfl rfl⟩
  | take poll =>
      obtain ⟨events, -, rfl⟩ := Option.map_eq_some_iff.mp hstep
      exact ⟨sound_take hs, .same _ rfl rfl⟩
  | start k =>
      rcases step_start_eq_some.mp hstep with ⟨i, c, htaken, hcall, rfl⟩ | ⟨htaken, rfl⟩
      · obtain ⟨hsound, hmoves⟩ := sound_start htaken hcall hs
        exact ⟨hsound, .moved _ i c _ hmoves⟩
      · refine ⟨hs.stays rfl rfl rfl rfl rfl (fun w hw => .inl hw) fun j => ?_, .same _ rfl rfl⟩
        rw [Endpoints.callbacks, Endpoints.callbacks, List.count_append, List.count_append,
          ← (taken_perm htaken).count_eq]
        simp
  | destroy endpoint =>
      obtain ⟨e, he, ⟨halive, hidle⟩, rfl⟩ := step_destroy_eq_some.mp hstep
      exact ⟨sound_destroy he halive hidle hs, .same _ rfl rfl⟩

theorem inOrder_step (event : Event) (hcases : StepCases s t event) (hturn : InTurn s event)
    (hs : s.InOrder) : t.InOrder := by
  cases hcases with
  | moved _ i c c' hmoves => exact hmoves.inOrder hs
  | same _ hcalls hreceived =>
      refine ⟨hcalls ▸ hs.turned, fun k => ?_⟩
      rw [Endpoints.receivedBy, Endpoints.dataOf, hcalls, hreceived]
      exact hs.streams k
  | began endpoint buffer hcalls hreceived =>
      refine ⟨fun i j c d hij hc hd hsame => ?_, fun k => ?_⟩
      · rw [hcalls] at hc hd
        have hj : j < s.calls.length + 1 := by
          simpa using (List.getElem?_eq_some_iff.mp hd).1
        have hi : i < s.calls.length := by omega
        rw [List.getElem?_append_left hi] at hc
        rcases Nat.lt_succ_iff_lt_or_eq.mp hj with hj | rfl
        · rw [List.getElem?_append_left hj] at hd
          exact hs.turned i j c d hij hc hd hsame
        · rw [List.getElem?_append_right le_rfl, Nat.sub_self] at hd
          obtain rfl := Option.some.inj hd
          exact hturn c (List.mem_of_getElem? hc) hsame
      · have hk := hs.streams k
        rw [Endpoints.receivedBy, Endpoints.dataOf] at hk ⊢
        rw [hreceived, hcalls, List.filterMap_append, hk]
        simp [ReadCall.data]

theorem sound_new (wakeupFd : ℤ) : (new wakeupFd).Sound := by
  refine ⟨?_, ?_, ?_, ?_, ?_, rfl, ?_⟩ <;>
    simp [new, PollEngine.new, Endpoints.callbacks, Endpoints.places, Endpoints.receivedBy,
      Endpoints.dataOf]

theorem inOrder_new (wakeupFd : ℤ) : (new wakeupFd).InOrder := by
  constructor <;> simp [new, Endpoints.receivedBy, Endpoints.dataOf]

end Steps

/-- In every run a read keeps what it promises. It is behind one callback while it waits, and
behind none before and after, whatever endpoints are destroyed; a slice is in `DoRead`, in a
buffer or given back; and the reads of an endpoint share out what `SSL_read` returned, in
its order if they do not overlap. -/
theorem reads_of_run {wakeupFd : ℤ} {events : List Event} {s : Endpoints}
    (hrun : run step (new wakeupFd) events = some s) :
    (∀ c ∈ s.calls, c.Faithful) ∧ (∀ i, s.callbacks.count (.read i) = s.places i) ∧
      s.mallocs = s.unrefs + (s.calls.map ReadCall.held).sum ∧
      ∀ k, (s.receivedBy k).Perm (s.dataOf k) ∧
        (AllSteps step InTurn (new wakeupFd) events → s.receivedBy k = s.dataOf k) := by
  have hs : s.Sound := run_invariant (fun s event t h hstep => (sound_step s event t h hstep).1)
    (sound_new wakeupFd) hrun
  refine ⟨hs.faithful, hs.once, hs.slices, fun k => ⟨hs.streams k, fun hall => ?_⟩⟩
  have hboth : s.Sound ∧ s.InOrder := by
    refine run_invariant_of_allSteps (I := fun t => t.Sound ∧ t.InOrder) ?_
      ⟨sound_new wakeupFd, inOrder_new wakeupFd⟩ hall hrun
    rintro t event u ⟨hsound, horder⟩ hturn hstep
    obtain ⟨hsound', hcases⟩ := sound_step t event u hsound hstep
    exact ⟨hsound', inOrder_step event hcases hturn horder⟩
  exact hboth.2.streams k

/-- A read that waits behind another one, and one that finds the end of the connection. -/
def sharedReads : List Event :=
  [.create 5 true, .read 0 [], .sslRead 0 .wantRead, .proceed 0, .push 5 false true,
    .wait [⟨5, EPOLLIN⟩], .take 0, .start 0, .sslRead 0 (.data [1, 2]), .proceed 0, .read 0 [[7]],
    .sslRead 1 .fatal, .proceed 1, .destroy 0]

theorem reads_of_run_sample : ∃ s, run step (new 3) sharedReads = some s ∧
    (∀ c ∈ s.calls, c.Faithful) ∧ (∀ i, s.callbacks.count (.read i) = s.places i) ∧
      s.mallocs = s.unrefs + (s.calls.map ReadCall.held).sum ∧
      ∀ k, (s.receivedBy k).Perm (s.dataOf k) ∧
        (AllSteps step InTurn (new 3) sharedReads → s.receivedBy k = s.dataOf k) :=
  ⟨_, rfl, reads_of_run (show run step (new 3) sharedReads = some _ from rfl)⟩

/-- The answers of `SSL_read` to a read. -/
def answers (i : ℕ) (events : List Event) : List ReadOutcome :=
  events.filterMap fun
    | .sslRead j outcome => if j = i then some outcome else none
    | _ => none

/-- A read without a second try: the answer that it got decides. -/
def ReadCall.Settled (c : ReadCall) (answers : List ReadOutcome) : Prop :=
  match c.phase with
  | .reading => answers = []
  | .answered outcome => answers = [outcome]
  | .waiting _ => False
  | .finished => ∃ outcome, answers = [outcome] ∧ ¬outcome.Waits
  | .thrown => ∃ outcome, answers = [outcome] ∧ outcome.Waits

/-- Every read is settled, and those to come have got no answer. -/
structure Endpoints.Unshared (s : Endpoints) (events : List Event) : Prop where
  sound : s.Sound
  owners : ∀ e ∈ s.endpoints, e.shared = false
  settled : ∀ (i : ℕ) (c : ReadCall), s.calls[i]? = some c → c.Settled (answers i events)
  unread : ∀ i : ℕ, s.calls[i]? = none → answers i events = []

section Unshared

variable {s t : Endpoints} {events : List Event}

theorem answers_concat (i : ℕ) (events : List Event) (event : Event) :
    answers i (events ++ [event]) = answers i events ++ answers i [event] :=
  List.filterMap_append

theorem Endpoints.Unshared.no_callback (h : s.Unshared events) (i : ℕ) :
    Callback.read i ∉ s.callbacks := by
  rw [← List.count_eq_zero, h.sound.once, Endpoints.places]
  cases hcall : s.calls[i]? with
  | none => rfl
  | some c =>
      have hsettled := h.settled i c hcall
      rw [ReadCall.Settled] at hsettled
      rw [Option.map_some, Option.getD_some, ReadCall.places]
      split
      · next read hphase => simp [hphase] at hsettled
      · rfl

theorem Endpoints.Unshared.stays (h : s.Unshared events) {event : Event} (hsound : t.Sound)
    (hnone : ∀ i, answers i [event] = []) (howners : ∀ e ∈ t.endpoints, e.shared = false)
    (hcalls : t.calls = s.calls) : t.Unshared (events ++ [event]) := by
  refine ⟨hsound, howners, fun i c hc => ?_, fun i hi => ?_⟩
  · rw [answers_concat, hnone, List.append_nil]
    exact h.settled i c (hcalls ▸ hc)
  · rw [answers_concat, hnone, List.append_nil]
    exact h.unread i (hcalls ▸ hi)

theorem Endpoints.Unshared.move (h : s.Unshared events) {event : Event} (hsound : t.Sound)
    {i : ℕ} {c c' : ReadCall} (hcall : s.calls[i]? = some c) (hcalls : t.calls = s.calls.set i c')
    (hendpoints : t.endpoints = s.endpoints) (hother : ∀ j, j ≠ i → answers j [event] = [])
    (hsettled : c.Settled (answers i events) → c'.Settled (answers i events ++ answers i [event])) :
    t.Unshared (events ++ [event]) := by
  have hlt := (List.getElem?_eq_some_iff.mp hcall).1
  refine ⟨hsound, hendpoints ▸ h.owners, fun j d hd => ?_, fun j hj => ?_⟩
  · rw [answers_concat]
    rw [hcalls] at hd
    by_cases hji : j = i
    · rw [hji, List.getElem?_set_self hlt] at hd
      obtain rfl := Option.some.inj hd
      rw [hji]
      exact hsettled (h.settled i c hcall)
    · rw [List.getElem?_set_ne (Ne.symm hji)] at hd
      rw [hother j hji, List.append_nil]
      exact h.settled j d hd
  · rw [hcalls, List.getElem?_eq_none_iff, List.length_set] at hj
    rw [answers_concat, hother j (by omega), List.append_nil]
    exact h.unread j (List.getElem?_eq_none_iff.mpr hj)

theorem unshared_step (event : Event) (hevent : ∀ fd, event ≠ .create fd true)
    (h : s.Unshared events) (hstep : step s event = some t) : t.Unshared (events ++ [event]) := by
  have hsound := (sound_step s event t h.sound hstep).1
  cases event with
  | create fd shared =>
      rw [step, Option.ite_none_right_eq_some, Option.some.injEq] at hstep
      obtain ⟨-, rfl⟩ := hstep
      refine h.stays hsound (fun _ => rfl) (fun e he => ?_) rfl
      rcases List.mem_append.mp he with he | he
      · exact h.owners e he
      · rw [List.mem_singleton.mp he]
        exact Bool.eq_false_iff.mpr fun hshared => hevent fd (by rw [← hshared])
  | read endpoint buffer =>
      obtain ⟨e, he, halive, rfl⟩ := step_read_eq_some.mp hstep
      refine ⟨hsound, h.owners, fun i c hc => ?_, fun i hi => ?_⟩
      · rw [answers_concat, show answers i [.read endpoint buffer] = [] from rfl, List.append_nil]
        rcases lt_or_ge i s.calls.length with hlt | hge
        · rw [List.getElem?_append_left hlt] at hc
          exact h.settled i c hc
        · rw [List.getElem?_append_right hge] at hc
          obtain ⟨-, rfl⟩ := List.getElem?_eq_some_iff.mp hc
          rw [List.getElem_singleton]
          exact h.unread i (List.getElem?_eq_none_iff.mpr hge)
      · rw [answers_concat, show answers i [.read endpoint buffer] = [] from rfl, List.append_nil]
        refine h.unread i (List.getElem?_eq_none_iff.mpr ?_)
        rw [List.getElem?_eq_none_iff, List.length_append] at hi
        omega
  | sslRead i outcome =>
      obtain ⟨c, hcall, ⟨hphase, -⟩, rfl⟩ := step_sslRead_eq_some.mp hstep
      refine h.move hsound hcall rfl rfl (fun j hj => ?_) fun hsettled => ?_
      · simp [answers, Ne.symm hj]
      · rw [ReadCall.Settled, hphase] at hsettled
        simp only [hsettled, ReadCall.Settled, List.nil_append]
        simp [answers]
  | proceed i =>
      obtain ⟨c, e, outcome, hcall, howner, hphase, htail⟩ := step_proceed_eq_some.mp hstep
      have hshared : e.shared = false := h.owners e (List.mem_of_getElem? howner)
      have hthrown : ∀ read, outcome.Waits → wantsMore s i c e read = t →
          t.Unshared (events ++ [.proceed i]) := by
        intro read hwaits htail
        rw [wantsMore, if_neg (by simp [hshared])] at htail
        subst htail
        refine h.move hsound hcall rfl rfl (fun _ _ => rfl) fun hsettled => ?_
        rw [ReadCall.Settled, hphase] at hsettled
        exact ⟨outcome, by rw [hsettled]; rfl, hwaits⟩
      have hfinished : ∀ c', c'.phase = .finished → ¬outcome.Waits → t.calls = s.calls.set i c' →
          t.endpoints = s.endpoints → t.Unshared (events ++ [.proceed i]) := by
        intro c' hc' hwaits hcalls hendpoints
        refine h.move hsound hcall hcalls hendpoints (fun _ _ => rfl) fun hsettled => ?_
        rw [ReadCall.Settled, hphase] at hsettled
        rw [ReadCall.Settled, hc']
        exact ⟨outcome, by rw [hsettled]; rfl, hwaits⟩
      cases outcome with
      | data bytes =>
          obtain ⟨slice, -, rfl⟩ := Option.map_eq_some_iff.mp htail
          exact hfinished _ rfl (by simp [ReadOutcome.Waits]) rfl rfl
      | wantRead => exact hthrown true (.inl rfl) (Option.some.inj htail)
      | wantWrite => exact hthrown false (.inr rfl) (Option.some.inj htail)
      | fatal =>
          obtain rfl := Option.some.inj htail
          exact hfinished _ rfl (by simp [ReadOutcome.Waits]) rfl rfl
  | push fd read write =>
      obtain rfl := Option.some.inj hstep
      exact h.stays hsound (fun _ => rfl) h.owners rfl
  | wait polled =>
      rw [step, Option.ite_none_right_eq_some, Option.some.injEq] at hstep
      obtain ⟨-, rfl⟩ := hstep
      exact h.stays hsound (fun _ => rfl) h.owners rfl
  | take poll =>
      obtain ⟨polled, -, rfl⟩ := Option.map_eq_some_iff.mp hstep
      exact h.stays hsound (fun _ => rfl) h.owners rfl
  | start k =>
      rcases step_start_eq_some.mp hstep with ⟨i, c, htaken, -, -⟩ | ⟨-, rfl⟩
      · exact absurd (List.mem_append_right _ (List.mem_of_getElem? htaken)) (h.no_callback i)
      · exact h.stays hsound (fun _ => rfl) h.owners rfl
  | destroy endpoint =>
      obtain ⟨e, he, -, rfl⟩ := step_destroy_eq_some.mp hstep
      refine h.stays hsound (fun _ => rfl) (fun d hd => ?_) rfl
      rcases List.mem_or_eq_of_mem_set hd with hd | rfl
      · exact h.owners d hd
      · exact h.owners e (List.mem_of_getElem? he)

end Unshared

/-- Of the endpoints that `make_unique` makes no read is ever behind a callback. A read gets
one answer of `SSL_read`: if the connection has to wait the read is left by an exception
without a call of `on_read`, and otherwise `on_read` is called. -/
theorem reads_settled_of_unshared {wakeupFd : ℤ} {events : List Event} {s : Endpoints}
    (hunique : ∀ fd, .create fd true ∉ events)
    (hrun : run step (new wakeupFd) events = some s) :
    (∀ i, Callback.read i ∉ s.callbacks) ∧
      ∀ (i : ℕ) (c : ReadCall), s.calls[i]? = some c →
        c.Faithful ∧ c.Settled (answers i events) := by
  have hall : (∀ fd, .create fd true ∉ events) → s.Unshared events := by
    refine run_invariant_of_events
      (I := fun es t => (∀ fd, .create fd true ∉ es) → Endpoints.Unshared t es) ?_ ?_ hrun
    · intro es t event u ht hstep hes
      refine unshared_step event (fun fd hfd => ?_)
        (ht fun fd hfd => hes fd (List.mem_append_left _ hfd)) hstep
      exact hes fd (List.mem_append_right _ (by rw [hfd]; exact List.mem_singleton_self _))
    · exact fun _ => ⟨sound_new wakeupFd, by simp [new], by simp [new], by simp [answers]⟩
  have h := hall hunique
  exact ⟨h.no_callback, fun i c hc =>
    ⟨h.sound.faithful c (List.mem_of_getElem? hc), h.settled i c hc⟩⟩

theorem reads_settled_of_unshared_sample :
    ∃ s, run step (new 3) [.create 5 false, .read 0 [], .sslRead 0 .wantRead, .proceed 0] =
        some s ∧
      (∀ i, Callback.read i ∉ s.callbacks) ∧
      ∀ (i : ℕ) (c : ReadCall), s.calls[i]? = some c → c.Faithful ∧ c.Settled (answers i
        [.create 5 false, .read 0 [], .sslRead 0 .wantRead, .proceed 0]) :=
  ⟨_, rfl, reads_settled_of_unshared (by simp) (show run step (new 3)
    [.create 5 false, .read 0 [], .sslRead 0 .wantRead, .proceed 0] = some _ from rfl)⟩

end SslReads

end Grpc

end DistStorage
