import DistStorage.ObjStore.FailedWrite

/-!
# Requests that are answered

A handler is to return with a result whatever a client asks for and whatever the
file calls answer. Write and Delete do. Read throws when it cannot allocate the
buffer that the request asks for, and Hash is undefined once it uses its hasher.
-/

namespace DistStorage

namespace ObjStore

open Cpp Cpp.Action Posix

variable {σ D : Type} {env : Environment σ D} {s : σ}

/-- Every call returns, whatever it answers. -/
structure Returns {ε σ D : Type} (calls : SystemCalls ε σ D) : Prop where
  openWrite : ∀ pathname s, ¬Fails (fun _ => False) (calls.openWrite pathname) s
  openRead : ∀ pathname s, ¬Fails (fun _ => False) (calls.openRead pathname) s
  lseek : ∀ fd whence offset s, ¬Fails (fun _ => False) (calls.lseek fd whence offset) s
  read : ∀ fd count s, ¬Fails (fun _ => False) (calls.read fd count) s
  write : ∀ fd data s, ¬Fails (fun _ => False) (calls.write fd data) s
  unlink : ∀ pathname s, ¬Fails (fun _ => False) (calls.unlink pathname) s

/-- The handler returns with a result. -/
def Answered (env : Environment σ D) (request : Request) (s : σ) : Prop :=
  ∃ response t, handleRequest env request s = .returned response t

def openAt (env : Environment σ D) (id : Bytes) (offset : ℤ) : Action Exception σ (Option D) := do
  match ← env.calls.openRead (objPath id) with
  | none => pure none
  | some fd => seekOk env fd offset

/-- The object of the id is there, and so is the position in it. -/
def Reached (env : Environment σ D) (id : Bytes) (offset : ℤ) (s : σ) : Prop :=
  After (openAt env id offset) (fun fd _ => fd.isSome) s

theorem openAt_bind {α : Type} (id : Bytes) (offset : ℤ) (failed : α)
    (f : D → Action Exception σ α) :
    (do match ← env.calls.openRead (objPath id) with
      | none => pure failed
      | some fd =>
          match ← seekOk env fd offset with
          | none => pure failed
          | some fd => f fd) =
      openAt env id offset >>= fun fd =>
        match fd with
        | none => pure failed
        | some fd => f fd := by
  funext s
  cases hopen : env.calls.openRead (objPath id) s with
  | returned fd t =>
      rw [bind_of_returned hopen]
      cases fd with
      | none =>
          have hnone : openAt env id offset s = .returned none t := bind_of_returned hopen
          rw [bind_of_returned hnone]
      | some fd =>
          have hsome : openAt env id offset s = seekOk env fd offset t := bind_of_returned hopen
          cases hseek : seekOk env fd offset t with
          | returned fd' u =>
              rw [bind_of_returned (hsome.trans hseek)]
              exact bind_of_returned hseek
          | thrown e u =>
              rw [bind_of_thrown (hsome.trans hseek)]
              exact bind_of_thrown hseek
          | undefined =>
              rw [bind_of_undefined (hsome.trans hseek)]
              exact bind_of_undefined hseek
  | thrown e t =>
      have hthrown : openAt env id offset s = .thrown e t := bind_of_thrown hopen
      rw [bind_of_thrown hopen, bind_of_thrown hthrown]
  | undefined =>
      have hundefined : openAt env id offset s = .undefined := bind_of_undefined hopen
      rw [bind_of_undefined hopen, bind_of_undefined hundefined]

section Returns

variable (h : Returns env.calls)

include h

theorem not_fails_seekOk (fd : D) (offset : ℤ) (s : σ) :
    ¬Fails (fun _ => False) (seekOk env fd offset) s := by
  unfold seekOk
  split_ifs
  · exact h.lseek fd .set offset s
  · exact h.lseek fd .fromEnd (offset + 1) s
  · exact fails_pure _ (some fd) s

theorem not_fails_openAt (id : Bytes) (offset : ℤ) (s : σ) :
    ¬Fails (fun _ => False) (openAt env id offset) s := by
  rw [openAt, fails_bind, not_or]
  refine ⟨h.openRead _ s, ?_⟩
  rintro ⟨- | fd, t, -, hfails⟩
  · exact fails_pure _ _ t hfails
  · exact not_fails_seekOk h fd offset t hfails

theorem fails_openAt_bind {α : Type} {expected : Exception → Prop} {id : Bytes} {offset : ℤ}
    {failed : α} {f : D → Action Exception σ α} {q : Prop}
    (hf : ∀ fd t, Fails expected (f fd) t ↔ q) :
    Fails expected (do match ← env.calls.openRead (objPath id) with
      | none => pure failed
      | some fd =>
          match ← seekOk env fd offset with
          | none => pure failed
          | some fd => f fd) s ↔ Reached env id offset s ∧ q := by
  have hopen : ¬Fails expected (openAt env id offset) s := fun hfails =>
    not_fails_openAt h id offset s (hfails.imp fun _ he => he.elim)
  rw [openAt_bind, fails_bind, or_iff_right hopen]
  constructor
  · rintro ⟨- | fd, t, hreached, hfails⟩
    · exact absurd hfails (fails_pure _ _ t)
    · exact ⟨⟨some fd, t, hreached, rfl⟩, (hf fd t).mp hfails⟩
  · rintro ⟨⟨- | fd, t, hreached, hsome⟩, hq⟩
    · cases hsome
    · exact ⟨some fd, t, hreached, (hf fd t).mpr hq⟩

theorem not_fails_handleWrite (request : WriteRequest) (s : σ) :
    ¬Fails (fun _ => False) (handleWrite env request) s := by
  rw [handleWrite, fails_bind, not_or]
  refine ⟨h.openWrite _ s, ?_⟩
  rintro ⟨- | fd, t, -, hfails⟩
  · exact fails_pure _ _ t hfails
  simp only [fails_bind, not_fails_seekOk h fd request.offset t, false_or] at hfails
  obtain ⟨- | fd', u, -, hfails⟩ := hfails
  · exact fails_pure _ _ u hfails
  rw [fails_bind, or_iff_right (h.write fd' request.data u)] at hfails
  obtain ⟨written, v, -, hfails⟩ := hfails
  split_ifs at hfails
  · exact fails_pure _ _ v hfails
  · exact fails_pure _ _ v hfails

theorem not_fails_handleDelete (request : DeleteRequest) (s : σ) :
    ¬Fails (fun _ => False) (handleDelete env request) s := by
  rw [handleDelete, fails_bind, or_iff_right (h.unlink _ s)]
  rintro ⟨- | -, t, -, hfails⟩
  · exact fails_pure _ _ t hfails
  · exact fails_pure _ _ t hfails

theorem not_fails_read (fd : D) (dataLen : ℕ) (t : σ) :
    ¬Fails (fun _ => False) (do
      match ← env.calls.read fd dataLen with
      | none => pure ContentResult.failed
      | some (data, _) => if data = [] then pure .failed else pure ⟨.ok, data⟩) t := by
  rw [fails_bind, or_iff_right (h.read fd _ t)]
  rintro ⟨- | ⟨data, fd'⟩, u, -, hfails⟩
  · exact fails_pure _ _ u hfails
  simp only at hfails
  split_ifs at hfails
  · exact fails_pure _ _ u hfails
  · exact fails_pure _ _ u hfails

/-- Read throws exactly if it gets to a buffer that cannot be allocated. -/
theorem fails_handleRead (request : ReadRequest) (s : σ) :
    Fails (fun _ => False) (handleRead env request) s ↔
      Reached env request.id request.offset s ∧ env.memory < request.dataLen := by
  refine fails_openAt_bind h fun fd t => ?_
  have hread := not_fails_read h fd request.dataLen.toNat
  split_ifs with hlen
  · rw [fails_bind, fails_require, not_le]
    constructor
    · rintro (⟨hmemory, -⟩ | ⟨⟨⟩, u, -, hfails⟩)
      · exact hmemory
      · exact absurd hfails (hread u)
    · exact fun hmemory => .inl ⟨hmemory, id⟩
  · exact iff_of_false (fails_pure _ _ t) (by omega)

/-- Hash is undefined exactly if it gets to its hasher. -/
theorem fails_handleHash (request : HashRequest) (s : σ) :
    Fails (fun _ => False) (handleHash env request) s ↔
      Reached env request.id request.offset s ∧
        (env.digest (hashDigestName request.hashType)).isSome := by
  rw [handleHash, fails_catchAll fun _ t => fails_pure _ _ t]
  refine fails_openAt_bind h fun fd t => ?_
  cases hdigest : env.digest (hashDigestName request.hashType) with
  | none =>
      have hnew : newHasher env (hashDigestName request.hashType) t =
          .thrown (.sslError "looking for hash") t := by
        rw [newHasher, hdigest]
        rfl
      simp [Fails, bind_of_thrown hnew]
  | some md =>
      have hnew : newHasher env (hashDigestName request.hashType) t = .returned ⟨none, none⟩ t := by
        rw [newHasher, hdigest]
        rfl
      have hwith : hashWith env fd request.dataLen ⟨none, none⟩ t = .undefined := rfl
      simp [Fails, (bind_of_returned hnew).trans hwith]

/-- A request is answered exactly if it is a Write, a Delete, a Read that does not
get to a buffer that cannot be allocated, or a Hash that does not get to its
hasher. -/
theorem answered_iff (request : Request) (s : σ) :
    Answered env request s ↔
      match request with
      | .write _ | .delete _ => True
      | .read request => ¬(Reached env request.id request.offset s ∧ env.memory < request.dataLen)
      | .hash request => ¬(Reached env request.id request.offset s ∧
          (env.digest (hashDigestName request.hashType)).isSome) := by
  have hanswered : Answered env request s ↔
      ¬Fails (fun _ => False) (handleRequest env request) s := not_fails_iff.symm
  rw [hanswered]
  cases request with
  | write request =>
      simpa only [handleRequest, fails_bind_pure, iff_true] using
        not_fails_handleWrite h request s
  | read request => rw [handleRequest, fails_bind_pure, fails_handleRead h]
  | delete request =>
      simpa only [handleRequest, fails_bind_pure, iff_true] using
        not_fails_handleDelete h request s
  | hash request => rw [handleRequest, fails_bind_pure, fails_handleHash h]

end Returns

/-- The calls over regular files return, however they end. -/
theorem returns_interrupted (w : World) (o : Outcomes) : Returns (w.interrupted o).calls where
  openWrite pathname d hfails := by
    change Fails _ (fun d => if o.opens then Outcome.returned _ _ else .returned none d) d at hfails
    unfold Fails at hfails
    split_ifs at hfails <;> exact hfails
  openRead pathname d := id
  lseek fd whence offset d := id
  read fd count d := id
  write fd data d hfails := by
    cases htransfer : o.transfers d.transferred <;>
      simp [Fails, World.interrupted, interruptedFiles, htransfer] at hfails
  unlink pathname d hfails := by
    change Fails _ (fun d => if o.unlinks then Outcome.returned _ _ else .returned false d) d
      at hfails
    unfold Fails at hfails
    split_ifs at hfails <;> exact hfails

def sampleDisk : Disk where
  files p := if p = [bytes "data", bytes "x"] then some [7] else none
  transferred := 0

/-- An object that is there is read into a buffer longer than it. -/
theorem answered_iff_sample :
    Reached (sampleWorld.interrupted .full) (bytes "x") 0 sampleDisk ∧
      Answered (sampleWorld.interrupted .full) (.read ⟨bytes "x", 0, 5⟩) sampleDisk := by
  refine ⟨⟨_, _, rfl, rfl⟩, ?_⟩
  refine (answered_iff (returns_interrupted sampleWorld .full) _ _).mpr ?_
  rintro ⟨-, hmemory⟩
  exact absurd hmemory (by decide)

/-- The longest Read of an object throws, and a Hash of it is undefined. -/
theorem request_unanswered :
    ¬Answered (sampleWorld.interrupted .full) (.read ⟨bytes "x", 0, 2 ^ 63 - 1⟩) sampleDisk ∧
      ¬Answered ({ sampleWorld with digest := fun _ => some id }.interrupted .full)
        (.hash ⟨bytes "x", .sha256, 0, 1⟩) sampleDisk := by
  constructor
  · rintro ⟨response, d, h⟩
    have hthrown : handleRequest (sampleWorld.interrupted .full)
        (.read ⟨bytes "x", 0, 2 ^ 63 - 1⟩) sampleDisk = .thrown .badAlloc sampleDisk := rfl
    rw [hthrown] at h
    cases h
  · rintro ⟨response, d, h⟩
    cases h

end ObjStore

end DistStorage
