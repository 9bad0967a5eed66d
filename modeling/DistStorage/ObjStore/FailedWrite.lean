import DistStorage.ObjStore.Isolation
import DistStorage.Posix.Outcomes

/-!
# Writes that fail

A write that is answered with a failure is to leave every object as it was. The
handler opens, seeks and writes in turn; opening creates the object, and a short
write has changed it.
-/

namespace DistStorage

namespace ObjStore

open Cpp Posix

variable {w : World} {o : Outcomes} {request : WriteRequest} {p : Path} {d : Disk}

/-- The environment of the world with calls that end as given. -/
def World.interrupted (w : World) (o : Outcomes) : Environment Disk Descriptor where
  calls := interruptedFiles Exception w.directories w.seekDirectory o
  memory := w.memory
  digest := w.digest
  rounds := w.rounds

def World.object (w : World) (fs : FileSystem) (id : Bytes) : Option Bytes :=
  match w.target id with
  | some (.entry p) => fs p
  | _ => none

/-- If the write is answered with a failure, every object is as it was. -/
def World.FailureKeeps (w : World) (o : Outcomes) (request : WriteRequest) (d : Disk) : Prop :=
  ∃ result d', handleWrite (w.interrupted o) request d = .returned result d' ∧
    (result = .failed → ∀ id, w.object d'.files id = w.object d.files id)

def Refused (o : Outcomes) (offset pos : ℤ) : Prop :=
  offset ≠ 0 ∧ o.seeks = false ∨ pos < 0

instance (o : Outcomes) (offset pos : ℤ) : Decidable (Refused o offset pos) := by
  unfold Refused
  infer_instance

/-- Whenever the open file cannot be sought or written to the end, it is an object
that was there, and the bytes that are written are its own. -/
def World.Harmless (w : World) (o : Outcomes) (request : WriteRequest) (d : Disk) : Prop :=
  o.opens = true → ∀ p, w.target request.id = some (.entry p) →
    let content := (d.files p).getD []
    let pos := position content.length request.offset
    if Refused o request.offset pos then (d.files p).isSome
    else
      match o.transfers d.transferred with
      | none => (d.files p).isSome
      | some n =>
          n < request.data.length →
            d.files p = some (overwrite content pos.toNat (request.data.take n))

theorem not_refused_iff {offset pos : ℤ} :
    ¬Refused o offset pos ↔ (offset = 0 ∨ o.seeks = true) ∧ 0 ≤ pos := by
  simp [Refused, or_iff_not_imp_left]

/-- `seek_ok` goes to the position, if it is not refused. -/
theorem seekOk_interrupted (w : World) (o : Outcomes) (p : Path) (offset : ℤ) (d : Disk) :
    seekOk (w.interrupted o) ⟨.entry p, 0⟩ offset d =
      .returned
        (if Refused o offset (position ((d.files p).getD []).length offset) then none
        else some ⟨.entry p, (position ((d.files p).getD []).length offset).toNat⟩) d := by
  have hlseek : ∀ whence off pos, offset ≠ 0 →
      seekPosition ((d.files p).getD []).length whence off =
        (if 0 ≤ pos then some pos.toNat else none) →
      (w.interrupted o).calls.lseek ⟨.entry p, 0⟩ whence off d =
        .returned (if Refused o offset pos then none else some ⟨.entry p, pos.toNat⟩) d := by
    intro whence off pos hoffset hpos
    change Outcome.returned (if o.seeks then (seekPosition _ whence off).map _ else none) d = _
    rw [hpos]
    by_cases hrefused : Refused o offset pos
    · rw [if_pos hrefused]
      rcases hrefused with ⟨-, hseeks⟩ | hneg
      · simp [hseeks]
      · simp [Int.not_le.mpr hneg]
    · rw [if_neg hrefused]
      obtain ⟨hzero | hseeks, hnonneg⟩ := not_refused_iff.mp hrefused
      · exact absurd hzero hoffset
      · simp [hseeks, hnonneg]
  unfold seekOk
  rcases lt_trichotomy offset 0 with hneg | rfl | hpos
  · rw [if_neg (by omega), if_pos hneg, position_of_neg _ hneg]
    exact hlseek .fromEnd (offset + 1) _ hneg.ne rfl
  · rw [position_of_nonneg _ le_rfl, if_neg (not_refused_iff.mpr ⟨.inl rfl, le_rfl⟩)]
    rfl
  · rw [if_pos hpos, position_of_nonneg _ hpos.le]
    exact hlseek .set offset _ hpos.ne' rfl

/-- A write to a file: what it answers, and the file after it. -/
theorem handleWrite_interrupted (hpath : w.target request.id = some (.entry p))
    (hopens : o.opens = true) (d : Disk) :
    let content := (d.files p).getD []
    let pos := position content.length request.offset
    handleWrite (w.interrupted o) request d =
      if Refused o request.offset pos then
        .returned .failed { d with files := Function.update d.files p (some content) }
      else
        match o.transfers d.transferred with
        | none => .returned .failed ⟨Function.update d.files p (some content), d.transferred + 1⟩
        | some n =>
            .returned (if request.data.length ≤ n then .ok else .failed)
              ⟨Function.update d.files p
                (some (overwrite content pos.toNat (request.data.take n))), d.transferred + 1⟩ := by
  intro content pos
  have hopen : (w.interrupted o).calls.openWrite (objPath request.id) d =
      .returned (some ⟨.entry p, 0⟩)
        { d with files := Function.update d.files p (some content) } := by
    change (if o.opens then Outcome.returned (d.files.openWrite _ _).1
      { d with files := (d.files.openWrite _ _).2 } else _) = _
    rw [if_pos hopens, FileSystem.openWrite_entry hpath]
  have hcontent : (Function.update d.files p (some content) p).getD [] = content := by
    rw [Function.update_self]
    rfl
  rw [handleWrite, Action.bind_of_returned hopen]
  simp only
  rw [Action.bind_of_returned (seekOk_interrupted w o p request.offset _), hcontent]
  by_cases hrefused : Refused o request.offset pos
  · rw [if_pos hrefused, if_pos hrefused]
    rfl
  · rw [if_neg hrefused, if_neg hrefused]
    simp only
    cases htransfer : o.transfers d.transferred with
    | none =>
        have hwrite : (w.interrupted o).calls.write ⟨.entry p, pos.toNat⟩ request.data
            { d with files := Function.update d.files p (some content) } =
              .returned none
                ⟨Function.update d.files p (some content), d.transferred + 1⟩ := by
          change (match o.transfers d.transferred with | none => _ | some n => _) = _
          rw [htransfer]
        rw [Action.bind_of_returned hwrite]
        rfl
    | some n =>
        have hwrite : (w.interrupted o).calls.write ⟨.entry p, pos.toNat⟩ request.data
            { d with files := Function.update d.files p (some content) } =
              .returned (some (request.data.take n).length)
                ⟨Function.update d.files p
                  (some (overwrite content pos.toNat (request.data.take n))),
                  d.transferred + 1⟩ := by
          change (match o.transfers d.transferred with | none => _ | some n => _) = _
          rw [htransfer]
          simp only
          rw [FileSystem.write_entry, hcontent, Function.update_idem]
        rw [Action.bind_of_returned hwrite]
        simp only [List.length_take, Option.some.injEq, min_eq_right_iff]
        split_ifs <;> rfl

theorem object_update_iff {id : Bytes} (hpath : w.target id = some (.entry p)) (fs : FileSystem)
    (content : Option Bytes) :
    (∀ id', w.object (Function.update fs p content) id' = w.object fs id') ↔ content = fs p := by
  constructor
  · intro h
    have hid := h id
    unfold World.object at hid
    rw [hpath] at hid
    simpa using hid
  · rintro rfl id'
    rw [Function.update_eq_self]

theorem handleWrite_unopened
    (h : o.opens = false ∨ ∀ p, w.target request.id ≠ some (.entry p)) (d : Disk) :
    handleWrite (w.interrupted o) request d = .returned .failed d := by
  have hopen : (w.interrupted o).calls.openWrite (objPath request.id) d = .returned none d := by
    change (if o.opens then Outcome.returned (d.files.openWrite _ _).1
      { d with files := (d.files.openWrite _ _).2 } else .returned none d) = _
    rcases h with hopens | hpath
    · rw [hopens]
      rfl
    · rw [FileSystem.openWrite_eq_none hpath]
      exact ite_self _
  exact Action.bind_of_returned hopen

/-- A write that is answered with a failure leaves every object as it was exactly
if it is harmless. -/
theorem failureKeeps_iff (w : World) (o : Outcomes) (request : WriteRequest) (d : Disk) :
    w.FailureKeeps o request d ↔ w.Harmless o request d := by
  by_cases hopened : o.opens = true ∧ ∃ p, w.target request.id = some (.entry p)
  · obtain ⟨hopens, p, hpath⟩ := hopened
    have hharmless : w.Harmless o request d ↔ _ :=
      ⟨fun h => h hopens p hpath, fun h _ p' hp' => by
        obtain rfl : p = p' := Target.entry.inj (Option.some.inj (hpath.symm.trans hp'))
        exact h⟩
    rw [hharmless]
    have hhandle := handleWrite_interrupted hpath hopens d
    have hcreated : ∀ content : Option Bytes, some (content.getD []) = content ↔
        content.isSome = true := by
      rintro (- | content) <;> simp
    simp only at hhandle ⊢
    unfold World.FailureKeeps
    rw [hhandle]
    split_ifs
    · simp [object_update_iff hpath, hcreated]
    · cases o.transfers d.transferred with
      | none => simp [object_update_iff hpath, hcreated]
      | some n => simp [object_update_iff hpath, eq_comm (a := d.files p)]
  · have hclosed : o.opens = false ∨ ∀ p, w.target request.id ≠ some (.entry p) := by
      by_contra h
      push Not at h
      exact hopened ⟨by simpa using h.1, h.2⟩
    refine iff_of_true ⟨_, _, handleWrite_unopened hclosed d, fun _ _ => rfl⟩ ?_
    intro hopens p hpath
    exact absurd ⟨hopens, p, hpath⟩ hopened

/-- A write to a new object before its beginning fails and leaves an empty object. -/
theorem failed_write_creates :
    ¬sampleWorld.FailureKeeps .full ⟨bytes "x", -5, [7]⟩ ⟨fun _ => none, 0⟩ := by
  have hpath : sampleWorld.target (bytes "x") = some (.entry [bytes "data", bytes "x"]) := by
    decide
  have hhandle := @handleWrite_interrupted _ .full ⟨bytes "x", -5, [7]⟩ _ hpath rfl
    ⟨fun _ => none, 0⟩
  have hrefused : Refused .full (-5) (position 0 (-5)) := .inr (by decide)
  rintro ⟨result, d', hreturned, hkeeps⟩
  rw [hhandle] at hreturned
  simp only [Option.getD_none, List.length_nil, if_pos hrefused] at hreturned
  obtain ⟨rfl, rfl⟩ := Outcome.returned.inj hreturned
  have hobject := (object_update_iff hpath _ _).mp (hkeeps rfl)
  cases hobject

end ObjStore

end DistStorage
