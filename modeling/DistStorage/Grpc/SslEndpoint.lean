import DistStorage.Cpp.Bytes
import DistStorage.Cpp.Integer
import DistStorage.Transition.Run

/-!
# Writing to an SSL endpoint

`Write` hands the slices of a buffer to `SSL_write` one by one. When the
connection has to wait, what is left goes back into the buffer and a callback
of the poll engine continues; a slice that is written in part goes back
through `TakeSubSlice`, which must stay inside the slice. The callback holds the
endpoint by `shared_from_this`, which throws where no `shared_ptr` owns the
endpoint, as is the case for every endpoint that the engine makes.

A run is the sequence of the answers of `SSL_write` and of the callbacks. The
state keeps the bytes that `SSL_write` took so far and the calls of `on_write`.
-/

namespace DistStorage

namespace Grpc

open Transition

namespace SslEndpoint

inductive WriteOutcome
  | written (count : ℕ)
  | wantRead
  | wantWrite
  | fatal
  deriving DecidableEq, Repr

inductive Status
  | ok
  | internalError
  deriving DecidableEq, Repr

/-- Where the write is: in the loop, behind a poll callback, or past `on_write`;
`invalid` is past a call of `TakeSubSlice` outside its slice, `thrown` past an
exception of `shared_from_this`. -/
inductive Phase
  | writing
  | waiting (read : Bool)
  | finished
  | invalid
  | thrown
  deriving DecidableEq, Repr

/-- `shared` if a `shared_ptr` owns the endpoint. -/
structure WriteState where
  shared : Bool
  data : List Bytes
  phase : Phase
  accepted : Bytes
  onWrite : List Status
  deriving DecidableEq, Repr

inductive Event
  | sslWrite (outcome : WriteOutcome)
  | callback
  deriving DecidableEq, Repr

def takeSubSlice (slice : Bytes) (pos n : ℕ) : Option Bytes :=
  if pos + n ≤ slice.length then some ((slice.drop pos).take n) else none

/-- The head of the loop of `DoWrite`, and its exit when the buffer is empty. -/
def doWrite (s : WriteState) : WriteState :=
  if s.data = [] then { s with phase := .finished, onWrite := s.onWrite ++ [.ok] }
  else { s with phase := .writing }

def write (shared : Bool) (buffer : List Bytes) : WriteState :=
  doWrite { shared := shared, data := buffer, phase := .writing, accepted := [], onWrite := [] }

/-- The part of `DoWrite` that waits, from `shared_from_this` on. -/
def schedule (s : WriteState) (read : Bool) : WriteState :=
  if s.shared then { s with phase := .waiting read } else { s with phase := .thrown }

def writeSlice (s : WriteState) (slice : Bytes) (rest : List Bytes) :
    WriteOutcome → WriteState
  | .written count =>
      let t := { s with data := rest, accepted := s.accepted ++ slice.take count }
      if count < slice.length then
        match takeSubSlice slice count slice.length with
        | some remaining => schedule { t with data := remaining :: rest } false
        | none => { t with phase := .invalid }
      else doWrite t
  | .wantRead => schedule { s with data := slice :: rest } true
  | .wantWrite => schedule { s with data := slice :: rest } false
  | .fatal => { s with data := rest, phase := .finished, onWrite := s.onWrite ++ [.internalError] }

/-- `SSL_write` takes the size as an `int` and reports success only for a
positive number of bytes. -/
def WriteOutcome.Possible (slice : Bytes) : WriteOutcome → Prop
  | .written count => 0 < count ∧ (count : ℤ) ≤ Cpp.intOfSize slice.length
  | _ => True

instance (slice : Bytes) (outcome : WriteOutcome) : Decidable (outcome.Possible slice) := by
  cases outcome <;> unfold WriteOutcome.Possible <;> infer_instance

def step (s : WriteState) : Event → Option WriteState
  | .sslWrite outcome =>
      match s.phase, s.data with
      | .writing, slice :: rest =>
          if outcome.Possible slice then some (writeSlice s slice rest outcome) else none
      | _, _ => none
  | .callback =>
      match s.phase with
      | .waiting _ => some (doWrite s)
      | _ => none

/-- What a write of the buffer promises of every state: as long as `on_write`
was not called the buffer holds exactly the bytes that were not taken, and
there is one; then `on_write` was called once, with OK only when all bytes were
taken. -/
def Faithful (buffer : List Bytes) (s : WriteState) : Prop :=
  match s.phase with
  | .writing | .waiting _ =>
      s.onWrite = [] ∧ s.data ≠ [] ∧ s.accepted ++ s.data.flatten = buffer.flatten
  | .finished =>
      s.accepted <+: buffer.flatten ∧
        (s.onWrite = [.internalError] ∨ s.onWrite = [.ok] ∧ s.accepted = buffer.flatten)
  | .invalid | .thrown => False

/-- The write can go on after the answer: if bytes were taken, the whole slice was, and
an endpoint that has to wait is owned by a `shared_ptr`. -/
def Continues (s : WriteState) : Event → Prop
  | .sslWrite (.written count) => ∀ slice ∈ s.data.head?, slice.length ≤ count
  | .sslWrite .wantRead | .sslWrite .wantWrite => s.shared = true
  | .sslWrite .fatal | .callback => True

instance (s : WriteState) (e : Event) : Decidable (Continues s e) := by
  rcases e with (- | - | - | -) | - <;> unfold Continues <;> infer_instance

theorem takeSubSlice_of_pos {slice : Bytes} {pos : ℕ} (h : 0 < pos) :
    takeSubSlice slice pos slice.length = none := by
  rw [takeSubSlice, if_neg (by omega)]

theorem step_sslWrite_eq_some {s t : WriteState} {outcome : WriteOutcome} :
    step s (.sslWrite outcome) = some t ↔
      s.phase = .writing ∧ ∃ slice rest, s.data = slice :: rest ∧ outcome.Possible slice ∧
        writeSlice s slice rest outcome = t := by
  obtain ⟨shared, data, phase, accepted, onWrite⟩ := s
  cases phase <;> cases data <;> simp [step]

theorem step_callback_eq_some {s t : WriteState} :
    step s .callback = some t ↔ (∃ read, s.phase = .waiting read) ∧ doWrite s = t := by
  obtain ⟨shared, data, phase, accepted, onWrite⟩ := s
  cases phase <;> simp [step]

theorem faithful_doWrite {buffer : List Bytes} {s : WriteState} (hcall : s.onWrite = [])
    (hbytes : s.accepted ++ s.data.flatten = buffer.flatten) : Faithful buffer (doWrite s) := by
  unfold doWrite
  split_ifs with hdata
  · have hall : s.accepted = buffer.flatten := by
      rw [← hbytes, hdata]
      simp
    exact ⟨by rw [hall], .inr ⟨by rw [hcall]; rfl, hall⟩⟩
  · exact ⟨hcall, hdata, hbytes⟩

theorem faithful_write (shared : Bool) (buffer : List Bytes) :
    Faithful buffer (write shared buffer) :=
  faithful_doWrite rfl rfl

theorem faithful_writing {buffer : List Bytes} {s : WriteState} (h : Faithful buffer s)
    (hphase : s.phase = .writing ∨ ∃ read, s.phase = .waiting read) :
    s.onWrite = [] ∧ s.data ≠ [] ∧ s.accepted ++ s.data.flatten = buffer.flatten := by
  unfold Faithful at h
  rcases hphase with hphase | ⟨read, hphase⟩
  · rw [hphase] at h
    exact h
  · rw [hphase] at h
    exact h

/-- What is put back is kept exactly if the callback can hold the endpoint. -/
theorem faithful_schedule_iff {buffer : List Bytes} {s : WriteState} (read : Bool)
    (hcall : s.onWrite = []) (hdata : s.data ≠ [])
    (hbytes : s.accepted ++ s.data.flatten = buffer.flatten) :
    Faithful buffer (schedule s read) ↔ s.shared = true := by
  unfold schedule
  split_ifs with hshared
  · exact ⟨fun _ => hshared, fun _ => ⟨hcall, hdata, hbytes⟩⟩
  · exact ⟨fun h => h.elim, fun h => absurd h hshared⟩

theorem faithful_step_iff {buffer : List Bytes} (s : WriteState) (e : Event) (t : WriteState)
    (h : Faithful buffer s) (hstep : step s e = some t) : Faithful buffer t ↔ Continues s e := by
  cases e with
  | callback =>
      obtain ⟨hphase, rfl⟩ := step_callback_eq_some.mp hstep
      obtain ⟨hcall, -, hbytes⟩ := faithful_writing h (.inr hphase)
      exact ⟨fun _ => trivial, fun _ => faithful_doWrite hcall hbytes⟩
  | sslWrite outcome =>
      obtain ⟨hphase, slice, rest, hdata, hpossible, rfl⟩ := step_sslWrite_eq_some.mp hstep
      obtain ⟨hcall, -, hbytes⟩ := faithful_writing h (.inl hphase)
      rw [hdata, List.flatten_cons] at hbytes
      cases outcome with
      | written count =>
          by_cases hpart : count < slice.length
          · simp [writeSlice, hpart, takeSubSlice_of_pos hpossible.1, Faithful, Continues, hdata]
          · have hwhole : slice.take count = slice := List.take_of_length_le (by omega)
            have hnew : Faithful buffer (writeSlice s slice rest (.written count)) := by
              simp only [writeSlice, if_neg hpart]
              refine faithful_doWrite hcall ?_
              change s.accepted ++ slice.take count ++ rest.flatten = buffer.flatten
              rw [hwhole, List.append_assoc, hbytes]
            exact ⟨fun _ => by simp [Continues, hdata]; omega, fun _ => hnew⟩
      | wantRead => exact faithful_schedule_iff true hcall (List.cons_ne_nil _ _) hbytes
      | wantWrite => exact faithful_schedule_iff false hcall (List.cons_ne_nil _ _) hbytes
      | fatal =>
          refine ⟨fun _ => trivial, fun _ => ⟨?_, .inl ?_⟩⟩
          · rw [← hbytes]
            exact List.prefix_append _ _
          · simp [writeSlice, hcall]

/-- The answers that send the write behind a poll callback. -/
def waits : List Event → ℕ
  | [] => 0
  | .sslWrite .wantRead :: es | .sslWrite .wantWrite :: es => waits es + 1
  | _ :: es => waits es

/-- The steps that the state has left at most, waiting aside. -/
def stepsLeft (s : WriteState) : ℕ :=
  match s.phase with
  | .writing => s.data.length
  | .waiting _ => s.data.length + 1
  | .finished | .invalid | .thrown => 0

theorem stepsLeft_doWrite_le (s : WriteState) : stepsLeft (doWrite s) ≤ s.data.length := by
  unfold doWrite
  split_ifs <;> simp [stepsLeft]

theorem stepsLeft_schedule_le (s : WriteState) (read : Bool) :
    stepsLeft (schedule s read) ≤ s.data.length + 1 := by
  unfold schedule
  split_ifs <;> simp [stepsLeft]

/-- As long as the write can go on a step uses up one of the steps left, or waits. -/
theorem stepsLeft_step {s t : WriteState} {e : Event} (hcontinues : Continues s e)
    (hstep : step s e = some t) : stepsLeft t + 1 ≤ stepsLeft s + 2 * waits [e] := by
  cases e with
  | callback =>
      obtain ⟨⟨read, hphase⟩, rfl⟩ := step_callback_eq_some.mp hstep
      have hle := stepsLeft_doWrite_le s
      simp only [stepsLeft, hphase] at hle ⊢
      omega
  | sslWrite outcome =>
      obtain ⟨hphase, slice, rest, hdata, -, rfl⟩ := step_sslWrite_eq_some.mp hstep
      have hleft : stepsLeft s = rest.length + 1 := by
        simp [stepsLeft, hphase, hdata]
      cases outcome with
      | written count =>
          have hcount : ¬count < slice.length := by
            simpa [Continues, hdata] using hcontinues
          simp only [writeSlice, if_neg hcount]
          have hle := stepsLeft_doWrite_le
            { s with data := rest, accepted := s.accepted ++ slice.take count }
          simp only at hle
          omega
      | wantRead =>
          have hle := stepsLeft_schedule_le { s with data := slice :: rest } true
          simp only [List.length_cons] at hle
          simp only [writeSlice, waits]
          omega
      | wantWrite =>
          have hle := stepsLeft_schedule_le { s with data := slice :: rest } false
          simp only [List.length_cons] at hle
          simp only [writeSlice, waits]
          omega
      | fatal =>
          rw [hleft]
          simp [writeSlice, stepsLeft]
          omega

theorem waits_cons (e : Event) (es : List Event) : waits (e :: es) = waits [e] + waits es := by
  rcases e with (- | - | - | -) | - <;> simp [waits, Nat.add_comm]

theorem length_le_of_run {s u : WriteState} {es : List Event} (hall : AllSteps step Continues s es)
    (hrun : run step s es = some u) : stepsLeft u + es.length ≤ stepsLeft s + 2 * waits es := by
  induction es generalizing s with
  | nil =>
      obtain rfl : s = u := Option.some.inj hrun
      simp [waits]
  | cons e es ih =>
      obtain ⟨t, ht, hrest⟩ := run_cons_eq_some.mp hrun
      have hstep := stepsLeft_step hall.1 ht
      have htail := ih (hall.2 t ht) hrest
      rw [waits_cons, List.length_cons]
      omega

theorem Faithful.goes_on {buffer : List Bytes} {s : WriteState} (h : Faithful buffer s) :
    s.phase = .finished ∨ ∃ e t, step s e = some t := by
  cases hphase : s.phase with
  | writing =>
      obtain ⟨slice, rest, hdata⟩ :=
        List.exists_cons_of_ne_nil (faithful_writing h (.inl hphase)).2.1
      refine .inr ⟨.sslWrite .fatal, writeSlice s slice rest .fatal, ?_⟩
      exact step_sslWrite_eq_some.mpr ⟨hphase, slice, rest, hdata, trivial, rfl⟩
  | waiting read =>
      exact .inr ⟨.callback, doWrite s, step_callback_eq_some.mpr ⟨⟨read, hphase⟩, rfl⟩⟩
  | finished => exact .inl rfl
  | invalid =>
      rw [Faithful, hphase] at h
      exact h.elim
  | thrown =>
      rw [Faithful, hphase] at h
      exact h.elim

/-- A write keeps what it promises in every state exactly if no answer is a
partial write, or makes an endpoint wait that no `shared_ptr` owns. It then goes
on until `on_write` is called, for at most a step for each slice and two for
each answer that waits. -/
theorem write_faithful_iff (shared : Bool) (buffer : List Bytes) {es : List Event}
    {s : WriteState} (hrun : run step (write shared buffer) es = some s) :
    ((∀ pre t, pre <+: es → run step (write shared buffer) pre = some t → Faithful buffer t) ↔
        AllSteps step Continues (write shared buffer) es) ∧
      (AllSteps step Continues (write shared buffer) es →
        es.length ≤ buffer.length + 2 * waits es ∧
          (s.phase = .finished ∨ ∃ e t, step s e = some t)) := by
  have hiff := allSteps_iff_invariant (fun _ _ _ _ _ => trivial)
    (fun s e t (_ : True) => faithful_step_iff s e t) trivial (faithful_write shared buffer) hrun
  refine ⟨hiff.symm, ?_⟩
  intro hall
  constructor
  · have hlen := length_le_of_run hall hrun
    have hstart : stepsLeft (write shared buffer) ≤ buffer.length :=
      stepsLeft_doWrite_le
        { shared := shared, data := buffer, phase := .writing, accepted := [], onWrite := [] }
    omega
  · exact (hiff.mp hall es s List.prefix_rfl hrun).goes_on

/-- A write on an endpoint that a `shared_ptr` owns, with two waits, and one on an
endpoint of the engine, with none. -/
theorem write_faithful_iff_sample :
    (∃ s, run step (write true [[1, 2], [3]]) [.sslWrite .wantRead, .callback,
        .sslWrite (.written 2), .sslWrite .wantWrite, .callback, .sslWrite (.written 1)] = some s ∧
      s.onWrite = [.ok] ∧ Faithful [[1, 2], [3]] s) ∧
    ∃ s, run step (write false [[1, 2], [3]]) [.sslWrite (.written 2), .sslWrite (.written 1)] =
        some s ∧ s.onWrite = [.ok] ∧ Faithful [[1, 2], [3]] s := by
  have hshared : run step (write true [[1, 2], [3]]) [.sslWrite .wantRead, .callback,
      .sslWrite (.written 2), .sslWrite .wantWrite, .callback, .sslWrite (.written 1)] =
        some ⟨true, [], .finished, [1, 2, 3], [.ok]⟩ := rfl
  have hunique : run step (write false [[1, 2], [3]])
      [.sslWrite (.written 2), .sslWrite (.written 1)] =
        some ⟨false, [], .finished, [1, 2, 3], [.ok]⟩ := rfl
  refine ⟨⟨_, hshared, rfl, ?_⟩, _, hunique, rfl, ?_⟩
  · exact (write_faithful_iff true [[1, 2], [3]] hshared).1.mpr (by decide) _ _
      List.prefix_rfl hshared
  · exact (write_faithful_iff false [[1, 2], [3]] hunique).1.mpr (by decide) _ _
      List.prefix_rfl hunique

/-- One byte of a slice of two is taken: the rest is asked for past its end. And the
connection of an endpoint of the engine has to wait: `on_write` is not called. -/
theorem write_lost :
    (∃ s, run step (write false [[1, 2]]) [.sslWrite (.written 1)] = some s ∧
      s.phase = .invalid ∧ ¬Faithful [[1, 2]] s) ∧
    ∃ s, run step (write false [[1, 2]]) [.sslWrite .wantWrite] = some s ∧
      s.phase = .thrown ∧ s.onWrite = [] ∧ ¬Faithful [[1, 2]] s :=
  ⟨⟨_, rfl, rfl, fun h => h⟩, _, rfl, rfl, rfl, fun h => h⟩

end SslEndpoint

end Grpc

end DistStorage
