import DistStorage.ObjStore.ObjectMap

/-!
# Isolation of objects

An id is any byte string, and its path is resolved like every pathname. What a
request changes is the file that the path of its id leads to, and what a
request answers depends on no other file; so two ids are isolated from each
other exactly if their paths do not lead to one file.
-/

namespace DistStorage

namespace ObjStore

open Cpp Posix Transition

variable {w : World}

def World.target (w : World) (id : Bytes) : Option Target :=
  w.directories.resolve (objPath id)

def World.SameFile (w : World) (a b : Bytes) : Prop :=
  ∃ p, w.target a = some (.entry p) ∧ w.target b = some (.entry p)

/-- The path of the id leads nowhere but into the data directory. -/
def World.Inside (w : World) (id : Bytes) : Prop :=
  ∀ t ∈ w.target id, w.dataDirectory <+: t.path

def Request.Changes : Request → Prop
  | .write _ | .delete _ => True
  | .read _ | .hash _ => False

/-- In every run no Write or Delete on `a` changes the answer to a Read or Hash
on `b`. -/
def World.Isolated (w : World) (a b : Bytes) : Prop :=
  ∀ fs requests s, run w.step fs requests = some s →
    ∀ change : Request, change.id = a → change.Changes → ∀ s', w.step s change = some s' →
      ∀ observe : Request, observe.id = b → ¬observe.Changes →
        (handleRequest w.env observe s').answer = (handleRequest w.env observe s).answer

/-- The path that a request opens or unlinks, if the call succeeds. -/
def World.touched (w : World) (fs : FileSystem) : Request → Option Path
  | .write r => (fs.openWrite w.directories (objPath r.id)).1.map fun fd => fd.target.path
  | .read r => (fs.openRead w.directories (objPath r.id)).map fun fd => fd.target.path
  | .hash r => (fs.openRead w.directories (objPath r.id)).map fun fd => fd.target.path
  | .delete r =>
      if (fs.unlink w.directories (objPath r.id)).1 then (w.target r.id).map Target.path else none

/-- In every run the requests on the id open and unlink paths of the data
directory only. -/
def World.Confined (w : World) (id : Bytes) : Prop :=
  ∀ fs requests s, run w.step fs requests = some s →
    ∀ request : Request, request.id = id → ∀ p ∈ w.touched s request, w.dataDirectory <+: p

/-- The file systems agree on the file of the target, if it is one. -/
def AgreeOn (t : Option Target) (fs fs' : FileSystem) : Prop :=
  ∀ p, t = some (.entry p) → fs' p = fs p

theorem openRead_congr {id : Bytes} {fs fs' : FileSystem} (h : AgreeOn (w.target id) fs fs') :
    fs'.openRead w.directories (objPath id) = fs.openRead w.directories (objPath id) := by
  cases ht : w.directories.resolve (objPath id) with
  | none => simp [FileSystem.openRead, ht]
  | some t =>
      cases t with
      | directory p => simp [FileSystem.openRead, ht]
      | entry p =>
          rw [FileSystem.openRead_entry ht, FileSystem.openRead_entry ht, h p ht]

theorem target_of_openRead {id : Bytes} {fs : FileSystem} {fd : Descriptor}
    (h : fs.openRead w.directories (objPath id) = some fd) : w.target id = some fd.target := by
  unfold World.target
  cases ht : w.directories.resolve (objPath id) with
  | none => simp [FileSystem.openRead, ht] at h
  | some t =>
      cases t with
      | directory p =>
          simp only [FileSystem.openRead, ht, Option.some.injEq] at h
          rw [← h]
      | entry p =>
          rw [FileSystem.openRead_entry ht] at h
          split_ifs at h
          rw [← Option.some.inj h]

theorem openRead_bind_readsAlike {α : Type} {id : Bytes} {fs fs' : FileSystem}
    {f : Option Descriptor → Action Exception FileSystem α} (h : AgreeOn (w.target id) fs fs')
    (hnone : Action.ReadsAlike (f none) fs fs')
    (hf : ∀ fd, AgreeOn (some fd.target) fs fs' → Action.ReadsAlike (f (some fd)) fs fs') :
    Action.ReadsAlike (w.env.calls.openRead (objPath id) >>= f) fs fs' := by
  apply Action.ReadsAlike.bind
  · refine .returned (fs.openRead w.directories (objPath id)) rfl ?_
    change Outcome.returned (fs'.openRead w.directories (objPath id)) fs' = _
    rw [openRead_congr h]
  · rintro (- | fd) hopened
    · exact hnone
    · apply hf fd
      rw [← target_of_openRead (Outcome.returned.inj hopened).1]
      exact h

theorem seekOk_bind_readsAlike {α : Type} {fd : Descriptor} {offset : ℤ} {fs fs' : FileSystem}
    {f : Option Descriptor → Action Exception FileSystem α} (h : AgreeOn (some fd.target) fs fs')
    (hnone : Action.ReadsAlike (f none) fs fs')
    (hf : ∀ fd, AgreeOn (some fd.target) fs fs' → Action.ReadsAlike (f (some fd)) fs fs') :
    Action.ReadsAlike (seekOk w.env fd offset >>= f) fs fs' := by
  have hlseek : ∀ whence off, Action.ReadsAlike (w.env.calls.lseek fd whence off) fs fs' := by
    intro whence off
    refine .returned (fs.lseek w.seekDirectory fd whence off) rfl ?_
    change Outcome.returned (fs'.lseek w.seekDirectory fd whence off) fs' = _
    unfold FileSystem.lseek
    cases ht : fd.target with
    | directory p => rfl
    | entry p =>
        simp only
        rw [h p (by rw [ht])]
  have hmoved : ∀ fd', fd'.target = fd.target → Action.ReadsAlike (f (some fd')) fs fs' := by
    intro fd' hfd'
    exact hf fd' (by rw [hfd']; exact h)
  unfold seekOk
  split_ifs
  · apply (hlseek .set offset).bind
    rintro (- | fd') hfd'
    · exact hnone
    · exact hmoved fd' (FileSystem.target_of_lseek (Outcome.returned.inj hfd').1)
  · apply (hlseek .fromEnd (offset + 1)).bind
    rintro (- | fd') hfd'
    · exact hnone
    · exact hmoved fd' (FileSystem.target_of_lseek (Outcome.returned.inj hfd').1)
  · exact hmoved fd rfl

theorem read_readsAlike {fd : Descriptor} {fs fs' : FileSystem}
    (h : AgreeOn (some fd.target) fs fs') (count : ℕ) :
    Action.ReadsAlike (w.env.calls.read fd count) fs fs' := by
  refine .returned (fs.read fd count) rfl ?_
  change Outcome.returned (fs'.read fd count) fs' = _
  unfold FileSystem.read
  cases ht : fd.target with
  | directory p => rfl
  | entry p =>
      simp only
      rw [h p (by rw [ht])]

/-- After a read the descriptor is still that of the file. -/
theorem read_bind_readsAlike {α : Type} {fd : Descriptor} {count : ℕ} {fs fs' : FileSystem}
    {f : Option (Bytes × Descriptor) → Action Exception FileSystem α}
    (h : AgreeOn (some fd.target) fs fs') (hnone : Action.ReadsAlike (f none) fs fs')
    (hf : ∀ chunk fd, AgreeOn (some fd.target) fs fs' →
      Action.ReadsAlike (f (some (chunk, fd))) fs fs') :
    Action.ReadsAlike (w.env.calls.read fd count >>= f) fs fs' := by
  apply (read_readsAlike h count).bind
  rintro (- | ⟨chunk, fd'⟩) hread
  · exact hnone
  · apply hf chunk fd'
    rw [FileSystem.target_of_read (Outcome.returned.inj hread).1]
    exact h

theorem handleRead_readsAlike {r : ReadRequest} {fs fs' : FileSystem}
    (h : AgreeOn (w.target r.id) fs fs') : Action.ReadsAlike (handleRead w.env r) fs fs' := by
  unfold handleRead
  refine openRead_bind_readsAlike h (.pure _) fun fd hfd => ?_
  refine seekOk_bind_readsAlike hfd (.pure _) fun fd hfd => ?_
  simp only
  split_ifs
  · apply (Action.ReadsAlike.require _ _).bind
    intro _ _
    refine read_bind_readsAlike hfd (.pure _) fun data fd' _ => ?_
    simp only
    split_ifs
    · exact .pure _
    · exact .pure _
  · exact .pure _

theorem put_readsAlike (hasher : SSLHasher) (data : Bytes) (fs fs' : FileSystem) :
    Action.ReadsAlike (hasher.put data) fs fs' :=
  (Action.ReadsAlike.orThrow _ _).bind fun _ _ => .pure _

/-- The body of both loops: a chunk is read and absorbed, and then the loop goes on. -/
theorem absorb_readsAlike {fd : Descriptor} {count : ℕ} {fs fs' : FileSystem}
    {hasher : SSLHasher} {ended : Option SSLHasher}
    {f : Option (Bytes × Descriptor) → Action Exception FileSystem (Option SSLHasher)}
    {rest : Bytes → Descriptor → SSLHasher → Action Exception FileSystem (Option SSLHasher)}
    (h : AgreeOn (some fd.target) fs fs') (hnone : f none = pure none)
    (hsome : ∀ chunk fd, f (some (chunk, fd)) =
      if chunk = [] then pure ended else hasher.put chunk >>= rest chunk fd)
    (hrest : ∀ chunk fd hasher, AgreeOn (some fd.target) fs fs' →
      Action.ReadsAlike (rest chunk fd hasher) fs fs') :
    Action.ReadsAlike (w.env.calls.read fd count >>= f) fs fs' := by
  apply read_bind_readsAlike h
  · rw [hnone]
    exact .pure _
  · intro chunk fd' hfd'
    rw [hsome]
    split_ifs
    · exact .pure _
    · exact (put_readsAlike _ _ _ _).bind fun hasher' _ => hrest chunk fd' hasher' hfd'

theorem hashRemaining_readsAlike {fs fs' : FileSystem} (rounds : ℕ) {fd : Descriptor}
    (h : AgreeOn (some fd.target) fs fs') (remaining : ℕ) (hasher : SSLHasher) :
    Action.ReadsAlike (hashRemaining w.env rounds fd remaining hasher) fs fs' := by
  induction rounds generalizing fd remaining hasher with
  | zero => exact .undefined rfl rfl
  | succ rounds ih =>
      unfold hashRemaining
      split_ifs
      · exact .pure _
      · exact absorb_readsAlike h rfl (fun _ _ => rfl) fun _ _ _ hfd => ih hfd _ _

theorem hashToEnd_readsAlike {fs fs' : FileSystem} (rounds : ℕ) {fd : Descriptor}
    (h : AgreeOn (some fd.target) fs fs') (hasher : SSLHasher) :
    Action.ReadsAlike (hashToEnd w.env rounds fd hasher) fs fs' := by
  induction rounds generalizing fd hasher with
  | zero => exact .undefined rfl rfl
  | succ rounds ih =>
      unfold hashToEnd
      exact absorb_readsAlike h rfl (fun _ _ => rfl) fun _ _ _ hfd => ih hfd _

theorem hashWith_readsAlike {fs fs' : FileSystem} {fd : Descriptor}
    (h : AgreeOn (some fd.target) fs fs') (dataLen : ℤ) (hasher : SSLHasher) :
    Action.ReadsAlike (hashWith w.env fd dataLen hasher) fs fs' := by
  unfold hashWith
  apply Action.ReadsAlike.bind
  · exact (Action.ReadsAlike.ofOption _).bind fun _ _ => .pure _
  · intro started _
    apply Action.ReadsAlike.bind
    · unfold hashContent
      split_ifs
      · exact hashRemaining_readsAlike w.env.rounds h _ _
      · exact hashToEnd_readsAlike w.env.rounds h _
    · rintro (- | filled) _
      · exact .pure _
      · apply (Action.ReadsAlike.ofOption _).bind
        intro _ _
        apply Action.ReadsAlike.bind
        · apply (Action.ReadsAlike.ofOption _).bind
          intro _ _
          exact (Action.ReadsAlike.orThrow _ _).bind fun _ _ => .pure _
        · exact fun _ _ => .pure _

theorem handleHash_readsAlike {r : HashRequest} {fs fs' : FileSystem}
    (h : AgreeOn (w.target r.id) fs fs') : Action.ReadsAlike (handleHash w.env r) fs fs' := by
  refine Action.ReadsAlike.tryCatch ?_ fun _ _ => .pure _
  unfold hashObject
  refine openRead_bind_readsAlike h (.pure _) fun fd hfd => ?_
  refine seekOk_bind_readsAlike hfd (.pure _) fun fd hfd => ?_
  apply Action.ReadsAlike.bind
  · exact (Action.ReadsAlike.orThrow _ _).bind fun _ _ => .pure _
  · exact fun hasher _ => hashWith_readsAlike hfd _ hasher

/-- What a Read or Hash answers depends on the file of its id only. -/
theorem observe_readsAlike {observe : Request} (hobserve : ¬observe.Changes)
    {fs fs' : FileSystem} (h : AgreeOn (w.target observe.id) fs fs') :
    Action.ReadsAlike (handleRequest w.env observe) fs fs' := by
  cases observe with
  | write r => exact absurd trivial hobserve
  | delete r => exact absurd trivial hobserve
  | read r => exact (handleRead_readsAlike h).bind fun _ _ => .pure _
  | hash r => exact (handleHash_readsAlike h).bind fun _ _ => .pure _

theorem handleWrite_frame (r : WriteRequest) (s : FileSystem) :
    ∃ result s', handleWrite w.env r s = .returned result s' ∧
      ∀ p, w.target r.id ≠ some (.entry p) → s' p = s p := by
  by_cases hentry : ∃ q, w.target r.id = some (.entry q)
  · obtain ⟨q, hq⟩ := hentry
    have hother : ∀ o p, w.target r.id ≠ some (.entry p) → Function.update s q o p = s p := by
      rintro o p hp
      apply Function.update_of_ne
      rintro rfl
      exact hp hq
    have hhandle := handleWrite_entry hq s
    split_ifs at hhandle
    · exact ⟨_, _, hhandle, hother _⟩
    · exact ⟨_, _, hhandle, hother _⟩
  · exact ⟨_, _, handleWrite_not_entry (fun q hq => hentry ⟨q, hq⟩) s, fun _ _ => rfl⟩

theorem handleDelete_frame (r : DeleteRequest) (s : FileSystem) :
    ∃ result s', handleDelete w.env r s = .returned result s' ∧
      ∀ p, w.target r.id ≠ some (.entry p) → s' p = s p := by
  by_cases hentry : ∃ q, w.target r.id = some (.entry q)
  · obtain ⟨q, hq⟩ := hentry
    have hhandle := handleDelete_entry hq s
    split_ifs at hhandle
    · refine ⟨_, _, hhandle, ?_⟩
      intro p hp
      apply Function.update_of_ne
      rintro rfl
      exact hp hq
    · exact ⟨_, _, hhandle, fun _ _ => rfl⟩
  · exact ⟨_, _, handleDelete_not_entry (fun q hq => hentry ⟨q, hq⟩) s, fun _ _ => rfl⟩

theorem step_frame {change : Request} (hchange : change.Changes) {s s' : FileSystem}
    (hstep : w.step s change = some s') {p : Path}
    (hp : w.target change.id ≠ some (.entry p)) : s' p = s p := by
  cases change with
  | read r => exact hchange.elim
  | hash r => exact hchange.elim
  | write r =>
      obtain ⟨result, t, hhandle, hframe⟩ := handleWrite_frame r s
      rw [World.step, handleRequest, Action.bind_of_returned hhandle] at hstep
      rw [← Option.some.inj hstep]
      exact hframe p hp
  | delete r =>
      obtain ⟨result, t, hhandle, hframe⟩ := handleDelete_frame r s
      rw [World.step, handleRequest, Action.bind_of_returned hhandle] at hstep
      rw [← Option.some.inj hstep]
      exact hframe p hp

theorem isolated_of_not_sameFile {a b : Bytes} (h : ¬w.SameFile a b) : w.Isolated a b := by
  rintro fs requests s - change rfl hchange s' hstep observe rfl hobserve
  apply (observe_readsAlike hobserve ?_).answer_eq
  intro p hp
  apply step_frame hchange hstep
  intro hpa
  exact h ⟨p, hpa, hp⟩

theorem not_isolated_of_sameFile {a b : Bytes} (h : w.SameFile a b) : ¬w.Isolated a b := by
  obtain ⟨p, ha, hb⟩ := h
  intro hisolated
  have hwrite : handleWrite w.env ⟨a, 0, []⟩ (fun _ => none) =
      .returned .ok (Function.update (fun _ => none) p (some [])) :=
    @handleWrite_entry w ⟨a, 0, []⟩ p ha (fun _ => none)
  have hstep : w.step (fun _ => none) (.write ⟨a, 0, []⟩) =
      some (Function.update (fun _ => none) p (some [])) := by
    rw [World.step, handleRequest, Action.bind_of_returned hwrite]
    rfl
  have hbefore : handleRead w.env ⟨b, 0, 0⟩ (fun _ => none) =
      .returned .failed (fun _ => none) :=
    @handleRead_entry w ⟨b, 0, 0⟩ p hb (Int.natCast_nonneg _) _
  have hafter : handleRead w.env ⟨b, 0, 0⟩ (Function.update (fun _ => none) p (some [])) =
      .returned ⟨.ok, []⟩ (Function.update (fun _ => none) p (some [])) := by
    refine (@handleRead_entry w ⟨b, 0, 0⟩ p hb (Int.natCast_nonneg _) _).trans ?_
    rw [Function.update_self]
    rfl
  have hsame := hisolated (fun _ => none) [] _ rfl (.write ⟨a, 0, []⟩) rfl trivial _ hstep
    (.read ⟨b, 0, 0⟩) rfl (fun h => h)
  rw [handleRequest, Action.bind_of_returned hbefore, Action.bind_of_returned hafter] at hsame
  change (some (.ok (.content ⟨.ok, []⟩)) : Option (Except Exception Response)) =
    some (.ok (.content .failed)) at hsame
  exact absurd hsame (by decide)

theorem target_of_touched {s : FileSystem} {request : Request} {p : Path}
    (h : w.touched s request = some p) : ∃ t, w.target request.id = some t ∧ t.path = p := by
  cases request with
  | read r =>
      obtain ⟨fd, hfd, rfl⟩ := Option.map_eq_some_iff.mp h
      exact ⟨fd.target, target_of_openRead hfd, rfl⟩
  | hash r =>
      obtain ⟨fd, hfd, rfl⟩ := Option.map_eq_some_iff.mp h
      exact ⟨fd.target, target_of_openRead hfd, rfl⟩
  | write r =>
      obtain ⟨fd, hfd, rfl⟩ := Option.map_eq_some_iff.mp h
      by_cases hentry : ∃ q, w.target r.id = some (.entry q)
      · obtain ⟨q, hq⟩ := hentry
        rw [FileSystem.openWrite_entry hq] at hfd
        rw [← Option.some.inj hfd]
        exact ⟨.entry q, hq, rfl⟩
      · rw [FileSystem.openWrite_eq_none fun q hq => hentry ⟨q, hq⟩] at hfd
        exact absurd hfd (by simp)
  | delete r =>
      rw [World.touched] at h
      split_ifs at h
      exact Option.map_eq_some_iff.mp h

theorem confined_iff_inside (id : Bytes) : w.Confined id ↔ w.Inside id := by
  constructor
  · intro h t ht
    cases t with
    | entry p =>
        apply h (fun _ => none) [] _ rfl (.write ⟨id, 0, []⟩) rfl p
        change p ∈ Option.map _ (FileSystem.openWrite _ _ _).1
        rw [FileSystem.openWrite_entry ht]
        rfl
    | directory p =>
        apply h (fun _ => none) [] _ rfl (.read ⟨id, 0, 0⟩) rfl p
        change p ∈ Option.map _ (FileSystem.openRead _ _ _)
        unfold FileSystem.openRead
        change w.directories.resolve (objPath id) = _ at ht
        rw [ht]
        rfl
  · rintro h fs requests s - request rfl p hp
    obtain ⟨t, ht, rfl⟩ := target_of_touched hp
    exact h t ht

/-- Two ids are isolated from each other and confined to the data directory
exactly if their paths do not lead to one file and lead nowhere but into the
data directory. -/
theorem isolation_iff (w : World) (a b : Bytes) :
    (w.Isolated a b ∧ w.Isolated b a ∧ w.Confined a ∧ w.Confined b) ↔
      (¬w.SameFile a b ∧ w.Inside a ∧ w.Inside b) := by
  rw [confined_iff_inside, confined_iff_inside]
  constructor
  · rintro ⟨hab, -, ha, hb⟩
    exact ⟨fun h => not_isolated_of_sameFile h hab, ha, hb⟩
  · rintro ⟨hne, ha, hb⟩
    refine ⟨isolated_of_not_sameFile hne, isolated_of_not_sameFile ?_, ha, hb⟩
    rintro ⟨p, hb, ha⟩
    exact hne ⟨p, ha, hb⟩

/-- A name and the same name after a dot lead to one file, and two dots lead out
of the data directory. -/
theorem ids_alias :
    bytes "x" ≠ bytes "./x" ∧ ¬sampleWorld.Isolated (bytes "x") (bytes "./x") ∧
      ¬sampleWorld.Confined (bytes "../x") := by
  refine ⟨by decide, ?_, ?_⟩
  · exact not_isolated_of_sameFile ⟨[bytes "data", bytes "x"], by decide, by decide⟩
  · rw [confined_iff_inside]
    intro h
    exact absurd (h (.entry [bytes "x"]) (by decide)) (by decide)

end ObjStore

end DistStorage
