import DistStorage.ObjStore.Handlers
import DistStorage.Transition.Run

/-!
# The object store as a map from ids to byte strings

Over regular files the handlers act on the file that the path of the id leads
to. For ids that are plain file names this file is the entry of the id in the
data directory, so the store is a map from ids to contents.
-/

namespace DistStorage

namespace ObjStore

open Cpp Posix Transition

/-- A file system with fixed directories, and the rest of the environment. -/
structure World where
  directories : Directories
  seekDirectory : Path → Whence → ℤ → Option ℕ
  memory : ℕ
  digest : String → Option (Bytes → Bytes)
  rounds : ℕ

def World.env (w : World) : Environment FileSystem Descriptor where
  calls := regularFiles Exception w.directories w.seekDirectory
  memory := w.memory
  digest := w.digest
  rounds := w.rounds

def World.dataDirectory (w : World) : Path := w.directories.cwd ++ [bytes "data"]

/-- The position that an offset means in an object of a size. -/
def position (size : ℕ) (offset : ℤ) : ℤ :=
  if 0 ≤ offset then offset else size + offset + 1

theorem position_of_nonneg {offset : ℤ} (size : ℕ) (h : 0 ≤ offset) :
    position size offset = offset := if_pos h

theorem position_of_neg {offset : ℤ} (size : ℕ) (h : offset < 0) :
    position size offset = size + (offset + 1) := by
  rw [position, if_neg (by omega), add_assoc]

theorem seekOk_entry (w : World) (p : Path) (offset : ℤ) (fs : FileSystem) :
    seekOk w.env ⟨.entry p, 0⟩ offset fs =
      .returned
        (if 0 ≤ position ((fs p).getD []).length offset then
          some ⟨.entry p, (position ((fs p).getD []).length offset).toNat⟩ else none) fs := by
  have hlseek : ∀ whence off, w.env.calls.lseek ⟨.entry p, 0⟩ whence off fs =
      .returned ((seekPosition ((fs p).getD []).length whence off).map fun pos =>
        ⟨.entry p, pos⟩) fs := fun _ _ => rfl
  unfold seekOk
  rcases lt_trichotomy offset 0 with hneg | rfl | hpos
  · rw [if_neg (by omega), if_pos hneg, hlseek, position_of_neg _ hneg, seekPosition]
    split_ifs <;> rfl
  · rfl
  · rw [if_pos hpos, hlseek, position_of_nonneg _ hpos.le, seekPosition]
    split_ifs <;> rfl

/-- A write to a file creates it, and writes at the position if there is one. -/
theorem handleWrite_entry {w : World} {request : WriteRequest} {p : Path}
    (hpath : w.directories.resolve (objPath request.id) = some (.entry p)) (fs : FileSystem) :
    handleWrite w.env request fs =
      if 0 ≤ position ((fs p).getD []).length request.offset then
        .returned .ok (Function.update fs p (some (overwrite ((fs p).getD [])
          (position ((fs p).getD []).length request.offset).toNat request.data)))
      else .returned .failed (Function.update fs p (some ((fs p).getD []))) := by
  have hopen : w.env.calls.openWrite (objPath request.id) fs =
      .returned (some ⟨.entry p, 0⟩) (Function.update fs p (some ((fs p).getD []))) := by
    change Outcome.returned (fs.openWrite _ _).1 (fs.openWrite _ _).2 = _
    rw [FileSystem.openWrite_entry hpath]
  have hcontent : (Function.update fs p (some ((fs p).getD [])) p).getD [] = (fs p).getD [] := by
    rw [Function.update_self]
    rfl
  have hwrite : ∀ pos, w.env.calls.write ⟨.entry p, pos⟩ request.data
      (Function.update fs p (some ((fs p).getD []))) =
        .returned (some request.data.length)
          (Function.update fs p (some (overwrite ((fs p).getD []) pos request.data))) := by
    intro pos
    change Outcome.returned (FileSystem.write _ _ _).1 (FileSystem.write _ _ _).2 = _
    rw [FileSystem.write_entry, hcontent, Function.update_idem]
  rw [handleWrite, Action.bind_of_returned hopen]
  simp only
  rw [Action.bind_of_returned (seekOk_entry w p request.offset _), hcontent]
  split_ifs with hpos
  · simp only
    rw [Action.bind_of_returned (hwrite _), if_pos rfl]
    rfl
  · rfl

/-- A read of a file answers with the bytes from the position. -/
theorem handleRead_entry {w : World} {request : ReadRequest} {p : Path}
    (hpath : w.directories.resolve (objPath request.id) = some (.entry p))
    (hmemory : request.dataLen ≤ w.memory) (fs : FileSystem) :
    handleRead w.env request fs =
      .returned
        (match fs p with
        | none => .failed
        | some content =>
            let data := (content.drop (position content.length request.offset).toNat).take
              request.dataLen.toNat
            if position content.length request.offset < 0 then .failed
            else if request.dataLen ≤ 0 then ⟨.ok, []⟩
            else if data = [] then .failed
            else ⟨.ok, data⟩) fs := by
  have hopen : w.env.calls.openRead (objPath request.id) fs =
      .returned (if (fs p).isSome then some ⟨.entry p, 0⟩ else none) fs := by
    change Outcome.returned (fs.openRead _ _) fs = _
    rw [FileSystem.openRead_entry hpath]
  rw [handleRead, Action.bind_of_returned hopen]
  cases hp : fs p with
  | none => rfl
  | some content =>
      simp only [Option.isSome_some, if_true]
      rw [Action.bind_of_returned (seekOk_entry w p request.offset fs), hp]
      simp only [Option.getD_some]
      by_cases hpos : 0 ≤ position content.length request.offset
      · rw [if_pos hpos, if_neg (by omega)]
        simp only
        by_cases hlen : 0 < request.dataLen
        · have hread : w.env.calls.read
              ⟨.entry p, (position content.length request.offset).toNat⟩
              request.dataLen.toNat fs =
              .returned (fs.read ⟨.entry p, (position content.length request.offset).toNat⟩
                request.dataLen.toNat) fs := rfl
          have hrequire := Action.require_of (p := request.dataLen ≤ w.env.memory)
            Exception.badAlloc hmemory fs
          rw [if_pos hlen, if_neg (by omega), Action.bind_of_returned hrequire,
            Action.bind_of_returned hread, FileSystem.read]
          simp only [hp, Option.getD_some]
          split_ifs <;> rfl
        · rw [if_neg hlen, if_pos (by omega)]
          rfl
      · rw [if_neg hpos, if_pos (by omega)]
        rfl

theorem handleDelete_entry {w : World} {request : DeleteRequest} {p : Path}
    (hpath : w.directories.resolve (objPath request.id) = some (.entry p)) (fs : FileSystem) :
    handleDelete w.env request fs =
      if (fs p).isSome then .returned .ok (Function.update fs p none)
      else .returned .failed fs := by
  have hunlink : w.env.calls.unlink (objPath request.id) fs =
      if (fs p).isSome then .returned true (Function.update fs p none)
      else .returned false fs := by
    change Outcome.returned (fs.unlink _ _).1 (fs.unlink _ _).2 = _
    rw [FileSystem.unlink_entry hpath]
    split_ifs <;> rfl
  split_ifs at hunlink ⊢
  · rw [handleDelete, Action.bind_of_returned hunlink]
    rfl
  · rw [handleDelete, Action.bind_of_returned hunlink]
    rfl

theorem handleWrite_not_entry {w : World} {request : WriteRequest}
    (hpath : ∀ p, w.directories.resolve (objPath request.id) ≠ some (.entry p))
    (fs : FileSystem) : handleWrite w.env request fs = .returned .failed fs := by
  have hopen : w.env.calls.openWrite (objPath request.id) fs = .returned none fs := by
    change Outcome.returned (fs.openWrite _ _).1 (fs.openWrite _ _).2 = _
    rw [FileSystem.openWrite_eq_none hpath]
  exact Action.bind_of_returned hopen

theorem handleDelete_not_entry {w : World} {request : DeleteRequest}
    (hpath : ∀ p, w.directories.resolve (objPath request.id) ≠ some (.entry p))
    (fs : FileSystem) : handleDelete w.env request fs = .returned .failed fs := by
  have hunlink : w.env.calls.unlink (objPath request.id) fs = .returned false fs := by
    change Outcome.returned (fs.unlink _ _).1 (fs.unlink _ _).2 = _
    rw [FileSystem.unlink_eq_false hpath]
  exact Action.bind_of_returned hunlink

/-- The objects by their ids. -/
abbrev ObjectMap := Bytes → Option Bytes

/-- The objects are the files in the data directory. -/
def World.objects (w : World) (fs : FileSystem) : ObjectMap :=
  fun id => fs (w.dataDirectory ++ [id])

/-- `new` is `old` with the bytes from `p` replaced by `data`, and zeros in a gap. -/
def Replaced (old : Bytes) (p : ℕ) (data new : Bytes) : Prop :=
  ∀ i : ℕ, new[i]? =
    if p ≤ i ∧ i < p + data.length then data[i - p]?
    else if i < old.length then old[i]?
    else if i < p then some 0
    else none

/-- The answer of a map from ids to byte strings, and the map after it. -/
def Answers (m : ObjectMap) : Request → Response → ObjectMap → Prop
  | .write r, response, m' =>
      let old := (m r.id).getD []
      response = .result .ok ∧ ∃ new, m' = Function.update m r.id (some new) ∧
        (r.data = [] → new = old) ∧
        (r.data ≠ [] → Replaced old (position old.length r.offset).toNat r.data new)
  | .read r, response, m' =>
      m' = m ∧
        match m r.id with
        | none => response = .content .failed
        | some content =>
            let p := position content.length r.offset
            let count := min r.dataLen (content.length - p)
            if p < 0 ∨ 0 < r.dataLen ∧ count ≤ 0 then response = .content .failed
            else ∃ data : Bytes, response = .content ⟨.ok, data⟩ ∧ (data.length : ℤ) = max 0 count ∧
              ∀ i < data.length, data[i]? = content[p.toNat + i]?
  | .delete r, response, m' =>
      if m r.id = none then response = .result .failed ∧ m' = m
      else response = .result .ok ∧ m' = Function.update m r.id none
  | .hash _, _, _ => False

/-- The requests that the map is about: their ids are plain file names, a write
has a position, and the length of a read fits an `int32`. -/
def Admissible (m : ObjectMap) : Request → Prop
  | .write r => Plain r.id ∧ 0 ≤ position ((m r.id).getD []).length r.offset
  | .read r => Plain r.id ∧ r.dataLen ≤ 2 ^ 31 - 1
  | .delete r => Plain r.id
  | .hash _ => False

/-- The data directory exists and has no directories in it, and buffers for the
reads can be allocated. -/
structure World.HoldsObjects (w : World) : Prop where
  data_mem : w.dataDirectory ∈ w.directories.paths
  not_mem : ∀ name, w.dataDirectory ++ [name] ∉ w.directories.paths
  memory_le : 2 ^ 31 - 1 ≤ w.memory

def World.step (w : World) (fs : FileSystem) (request : Request) : Option FileSystem :=
  match handleRequest w.env request fs with
  | .returned _ fs => some fs
  | .thrown _ fs => some fs
  | .undefined => none

theorem resolve_objPath {w : World} (h : w.HoldsObjects) {id : Bytes} (hid : Plain id) :
    w.directories.resolve (objPath id) = some (.entry (w.dataDirectory ++ [id])) := by
  have hdata : Plain (bytes "data") := by
    constructor <;> decide
  exact Directories.resolve_plain hdata hid h.data_mem (h.not_mem id)

theorem objects_apply (w : World) (fs : FileSystem) (id : Bytes) :
    w.objects fs id = fs (w.dataDirectory ++ [id]) := rfl

theorem objects_update (w : World) (fs : FileSystem) (id : Bytes) (o : Option Bytes) :
    w.objects (Function.update fs (w.dataDirectory ++ [id]) o) =
      Function.update (w.objects fs) id o := by
  funext id'
  by_cases hid : id' = id
  · subst hid
    simp [World.objects]
  · have hne : w.dataDirectory ++ [id'] ≠ w.dataDirectory ++ [id] := by
      simpa using hid
    rw [World.objects, Function.update_of_ne hne, Function.update_of_ne hid]
    rfl

theorem answers_write (m : ObjectMap) (r : WriteRequest) :
    Answers m (.write r) (.result .ok) (Function.update m r.id (some (overwrite ((m r.id).getD [])
      (position ((m r.id).getD []).length r.offset).toNat r.data))) := by
  refine ⟨rfl, _, rfl, ?_, ?_⟩
  · intro hdata
    rw [overwrite, if_pos hdata]
  · intro hdata i
    exact getElem?_overwrite _ _ hdata i

theorem answers_read {m : ObjectMap} {r : ReadRequest} {content : Bytes}
    (hcontent : m r.id = some content) :
    let data := (content.drop (position content.length r.offset).toNat).take r.dataLen.toNat
    Answers m (.read r)
      (.content (if position content.length r.offset < 0 then .failed
        else if r.dataLen ≤ 0 then ⟨.ok, []⟩
        else if data = [] then .failed
        else ⟨.ok, data⟩)) m := by
  intro data
  have hlength : data.length =
      min r.dataLen.toNat (content.length - (position content.length r.offset).toNat) := by
    simp [data]
  refine ⟨rfl, ?_⟩
  rw [hcontent]
  simp only
  by_cases hneg : position content.length r.offset < 0
  · rw [if_pos (.inl hneg), if_pos hneg]
  · by_cases hlen : r.dataLen ≤ 0
    · rw [if_neg (by omega), if_neg hneg, if_pos hlen]
      exact ⟨[], rfl, by simp; omega, by simp⟩
    · by_cases hempty : data = []
      · have hzero : data.length = 0 := by rw [hempty]; rfl
        rw [if_pos (by omega), if_neg hneg, if_neg hlen, if_pos hempty]
      · have hpos : 0 < data.length := List.length_pos_iff.mpr hempty
        rw [if_neg (by omega), if_neg hneg, if_neg hlen, if_neg hempty]
        refine ⟨data, rfl, by omega, ?_⟩
        intro i hi
        rw [List.getElem?_take, if_pos (by omega), List.getElem?_drop]

/-- Every admissible request is answered as by the map of the objects. -/
theorem handleRequest_answers {w : World} (h : w.HoldsObjects) {request : Request}
    (fs : FileSystem) (hadmissible : Admissible (w.objects fs) request) :
    ∃ response fs', handleRequest w.env request fs = .returned response fs' ∧
      Answers (w.objects fs) request response (w.objects fs') := by
  cases request with
  | write r =>
      obtain ⟨hid, hpos⟩ := hadmissible
      have hhandle := handleWrite_entry (resolve_objPath h hid) fs
      rw [← objects_apply w fs r.id, if_pos hpos] at hhandle
      refine ⟨_, _, Action.bind_of_returned hhandle, ?_⟩
      rw [objects_update]
      exact answers_write _ r
  | read r =>
      obtain ⟨hid, hlen⟩ := hadmissible
      have hmemory : r.dataLen ≤ w.memory := by
        have := h.memory_le
        omega
      refine ⟨_, _, Action.bind_of_returned
        (handleRead_entry (resolve_objPath h hid) hmemory fs), ?_⟩
      rw [← objects_apply w fs r.id]
      cases hcontent : w.objects fs r.id with
      | none => exact ⟨rfl, by rw [hcontent]⟩
      | some content => exact answers_read hcontent
  | delete r =>
      have hhandle := handleDelete_entry (resolve_objPath h hadmissible) fs
      by_cases hcontent : w.objects fs r.id = none
      · rw [← objects_apply w fs r.id, hcontent, if_neg (by simp)] at hhandle
        refine ⟨_, _, Action.bind_of_returned hhandle, ?_⟩
        rw [Answers, if_pos hcontent]
        exact ⟨rfl, rfl⟩
      · rw [← objects_apply w fs r.id, if_pos (Option.isSome_iff_ne_none.mpr hcontent)] at hhandle
        refine ⟨_, _, Action.bind_of_returned hhandle, ?_⟩
        rw [Answers, if_neg hcontent, objects_update]
        exact ⟨rfl, rfl⟩
  | hash r => exact hadmissible.elim

/-- In a sequence of admissible requests each one is answered by the map of the
objects at its time. -/
theorem requests_answered {w : World} (h : w.HoldsObjects) {fs : FileSystem}
    {requests : List Request}
    (hadmissible : AllSteps w.step (fun s r => Admissible (w.objects s) r) fs requests)
    {pre post : List Request} {request : Request} (hsplit : requests = pre ++ request :: post) :
    ∃ s response s', run w.step fs pre = some s ∧
      handleRequest w.env request s = .returned response s' ∧
      Answers (w.objects s) request response (w.objects s') := by
  induction pre generalizing fs requests with
  | nil =>
      subst hsplit
      obtain ⟨response, fs', hhandle, hanswers⟩ := handleRequest_answers h fs hadmissible.1
      exact ⟨fs, response, fs', rfl, hhandle, hanswers⟩
  | cons first pre ih =>
      subst hsplit
      obtain ⟨response, fs', hhandle, -⟩ := handleRequest_answers h fs hadmissible.1
      have hstep : w.step fs first = some fs' := by
        rw [World.step, hhandle]
      obtain ⟨s, response, s', hrun, hrest⟩ := ih (hadmissible.2 fs' hstep) rfl
      exact ⟨s, response, s', run_cons_eq_some.mpr ⟨fs', hstep, hrun⟩, hrest⟩

def sampleDirectories : Directories where
  paths := [[], [bytes "data"]]
  cwd := []
  root_mem := by decide
  parent_mem := by decide
  cwd_mem := by decide

def sampleWorld : World where
  directories := sampleDirectories
  seekDirectory _ _ _ := none
  memory := 2 ^ 31
  digest _ := none
  rounds := 0

theorem sampleWorld_holdsObjects : sampleWorld.HoldsObjects := by
  refine ⟨by decide, ?_, by decide⟩
  intro name h
  have hlength : (sampleWorld.dataDirectory ++ [name]).length ∈
      sampleWorld.directories.paths.map List.length := List.mem_map_of_mem h
  exact absurd hlength (by simp [World.dataDirectory, sampleWorld, sampleDirectories])

/-- A write past the end of a new object, and a read of all of it. -/
theorem requests_answered_sample :
    ∃ s response s',
      run sampleWorld.step (fun _ => none) [.write ⟨[97], 2, [7]⟩] = some s ∧
      handleRequest sampleWorld.env (.read ⟨[97], -4, 9⟩) s = .returned response s' ∧
      Answers (sampleWorld.objects s) (.read ⟨[97], -4, 9⟩) response (sampleWorld.objects s') := by
  have hplain : Plain [97] := by
    constructor <;> decide
  have hall : AllSteps sampleWorld.step (fun s r => Admissible (sampleWorld.objects s) r)
      (fun _ => none) [.write ⟨[97], 2, [7]⟩, .read ⟨[97], -4, 9⟩] :=
    ⟨⟨hplain, by decide⟩, fun _ _ => ⟨⟨hplain, by decide⟩, fun _ _ => trivial⟩⟩
  exact requests_answered sampleWorld_holdsObjects hall rfl

end ObjStore

end DistStorage
