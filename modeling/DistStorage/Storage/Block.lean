import DistStorage.Cpp.Action
import DistStorage.Cpp.Bytes
import DistStorage.Cpp.Integer
import DistStorage.Posix.File

/-!
# Block storage

A `BlockStorage` maps a file of elements into memory. The state of a run is the
contents of the files and the open descriptors, and the calls on it succeed
whenever they may: a shared mapping writes through to its file and outlives the
descriptor. An element is `elemSize` bytes.

Both functions that open a file throw when the descriptor is valid, so no
`BlockStorage` is ever constructed.
-/

namespace DistStorage

namespace Storage

open Cpp

/-- What the calls throw: `throw_sys_error` with a description of the call, and
a plain `std::runtime_error`. -/
inductive BlockError
  | sysError (callDescr : Bytes)
  | runtimeError (what : Bytes)
  deriving DecidableEq, Repr

structure OpenFlags where
  writable : Bool
  create : Bool
  deriving DecidableEq, Repr

structure Descriptor where
  name : Bytes
  writable : Bool
  deriving DecidableEq, Repr

/-- A shared mapping of the first bytes of a file. -/
structure Mapping where
  name : Bytes
  writable : Bool
  size : ℕ
  deriving DecidableEq, Repr

structure Disk where
  files : Bytes → Option Bytes
  opened : ℕ → Option Descriptor
  next : ℕ

abbrev Run (α : Type) := Action BlockError Disk α

namespace Disk

/-- What a descriptor of the program refers to. -/
def descriptor (d : Disk) : ℤ → Option Descriptor
  | .ofNat fd => d.opened fd
  | .negSucc _ => none

def content (d : Disk) (name : Bytes) : Bytes := (d.files name).getD []

def store (d : Disk) (name content : Bytes) : Disk :=
  { d with files := Function.update d.files name (some content) }

end Disk

/-- `open`, which fails only when the file is missing and not to be created. -/
def openFile (fname : Bytes) (flags : OpenFlags) : Run ℤ := fun d =>
  let name := Posix.cString fname
  if (d.files name).isSome ∨ flags.create then
    .returned d.next { d with
      files := Function.update d.files name (some (d.content name))
      opened := Function.update d.opened d.next (some ⟨name, flags.writable⟩)
      next := d.next + 1 }
  else .returned (-1) d

def close (fd : ℤ) : Run Unit :=
  .modify fun d => { d with opened := Function.update d.opened fd.toNat none }

/-- `ftruncate`, which pads a file with zeros or cuts it off. -/
def ftruncate (fd : ℤ) (size : ℕ) : Run ℤ := fun d =>
  match d.descriptor fd with
  | some ⟨name, true⟩ =>
      let content := d.content name
      let padded := content ++ List.replicate (size - content.length) 0
      .returned 0 (d.store name (padded.take size))
  | _ => .returned (-1) d

def fstat (fd : ℤ) : Run (Option ℕ) := fun d =>
  .returned ((d.descriptor fd).map fun o => (d.content o.name).length) d

def mmap (fd : ℤ) (writable : Bool) (size : ℕ) : Run (Option Mapping) := fun d =>
  .returned ((d.descriptor fd).bind fun o =>
    if writable = true ∧ o.writable = false then none else some ⟨o.name, writable, size⟩) d

/-- The destructor of a local `unique_fd`, when an exception passes. -/
def closingOnThrow {α : Type} (fd : ℤ) (m : Run α) : Run α :=
  m.tryCatch fun e => do
    if fd ≠ -1 then close fd
    .throw e

def getOpenFlags (readonly create : Bool) : OpenFlags where
  writable := !readonly
  create := create

def initDataFile (fname : Bytes) (readonly : Bool) (size : ℕ) : Run ℤ := do
  let fd ← openFile fname (getOpenFlags readonly true)
  closingOnThrow fd do
    if fd ≠ -1 then
      .throw (.sysError (bytes "open or create file `" ++ Posix.cString fname ++ bytes "`"))
    let truncated ← ftruncate fd size
    if truncated = -1 then
      .throw (.sysError (bytes "ftruncate file `" ++ Posix.cString fname ++ bytes "`"))
    -- the source ends without a return value
    fun _ => .undefined

def openDataFile (fname : Bytes) (readonly : Bool) : Run (ℤ × ℕ) := do
  let fd ← openFile fname (getOpenFlags readonly false)
  closingOnThrow fd do
    if fd ≠ -1 then
      .throw (.sysError (bytes "open file `" ++ Posix.cString fname ++ bytes "`"))
    let size ← fstat fd
    match size with
    | none => .throw (.sysError (bytes "fstat file `" ++ Posix.cString fname ++ bytes "`"))
    | some size => pure (fd, size)

/-- No mapping is the null pointer of an empty file. -/
def mmapData (fd : ℤ) (fname : Bytes) (readonly : Bool) (size : ℕ) : Run (Option Mapping) := do
  if size = 0 then pure none
  else
    let data ← mmap fd (!readonly) size
    match data with
    | none => .throw (.sysError (bytes "mmap file `" ++ Posix.cString fname ++ bytes "`"))
    | some mapping => pure (some mapping)

/-- The number of elements and the bytes that are copied out, undefined when the
range is not in the block. -/
def readData (data : Bytes) (elemSize n offset dataCount : ℕ) : Option (ℕ × Bytes) :=
  if offset > n then some (0, [])
  else
    let dataCount := if sizeT (offset + dataCount) > n then n - offset else dataCount
    if dataCount = 0 then some (0, [])
    else
      let first := sizeT (offset * elemSize)
      let last := sizeT (sizeT (offset + dataCount) * elemSize)
      if first ≤ last ∧ last ≤ data.length then
        some (dataCount, (data.drop first).take (last - first))
      else none

/-- The number of elements and the block after the copy, or an exception;
undefined when a range is not in its array. -/
def writeData (inData : Bytes) (offset dataCount : ℕ) (data : Bytes) (elemSize n : ℕ)
    (readonly : Bool) : Option (Except BlockError (ℕ × Bytes)) :=
  if offset > n then some (.ok (0, data))
  else
    let dataCount := if sizeT (offset + dataCount) > n then n - offset else dataCount
    if dataCount = 0 then some (.ok (0, data))
    else if readonly then
      some (.error (.runtimeError (bytes "Cannot write to a readonly BlockStorage instance.")))
    else
      let first := sizeT (offset * elemSize)
      let count := sizeT (dataCount * elemSize)
      if count ≤ inData.length ∧ first + count ≤ data.length then
        some (.ok (dataCount, data.take first ++ inData.take count ++ data.drop (first + count)))
      else none

structure BlockStorage where
  fd : ℤ
  data : Option Mapping
  n : ℕ
  readonly : Bool
  deriving DecidableEq, Repr

namespace BlockStorage

def block (b : BlockStorage) (d : Disk) : Bytes :=
  match b.data with
  | none => []
  | some mapping => (d.content mapping.name).take mapping.size

/-- The constructor of an existing file. -/
def fromFile (elemSize : ℕ) (fname : Bytes) (readonly : Bool) : Run BlockStorage := do
  let (fd, size) ← openDataFile fname readonly
  closingOnThrow fd do
    if size % elemSize ≠ 0 then
      .throw (.runtimeError (bytes "File size is not a multiple of the element size for `" ++
        Posix.cString fname ++ bytes "`."))
    let n := size / elemSize
    let data ← mmapData fd fname readonly (sizeT (n * elemSize))
    pure ⟨fd, data, n, readonly⟩

/-- The constructor of a file of `n` elements. -/
def create (elemSize : ℕ) (fname : Bytes) (readonly : Bool) (n : ℕ) : Run BlockStorage := do
  let fd ← initDataFile fname readonly (sizeT (n * elemSize))
  closingOnThrow fd do
    let data ← mmapData fd fname readonly (sizeT (n * elemSize))
    pure ⟨fd, data, n, readonly⟩

def read (elemSize : ℕ) (b : BlockStorage) (offset dataCount : ℕ) : Run (ℕ × Bytes) := fun d =>
  match readData (b.block d) elemSize b.n offset dataCount with
  | none => .undefined
  | some r => .returned r d

def write (elemSize : ℕ) (b : BlockStorage) (offset : ℕ) (inData : Bytes) (dataCount : ℕ) : Run ℕ :=
  fun d =>
    match writeData inData offset dataCount (b.block d) elemSize b.n b.readonly with
    | none => .undefined
    | some (.error e) => .thrown e d
    | some (.ok (count, block)) =>
        .returned count <|
          match b.data with
          | none => d
          | some mapping =>
              d.store mapping.name (block ++ (d.content mapping.name).drop mapping.size)

/-- Unmapping succeeds and leaves `data` and `n`. -/
def reset (b : BlockStorage) : Run BlockStorage := do
  if b.fd ≠ -1 then close b.fd
  pure { b with fd := -1 }

/-- Writes of whole elements, at their offsets, one after the other. -/
def writeAll (elemSize : ℕ) (b : BlockStorage) : List (ℕ × Bytes) → Run Unit
  | [] => pure ()
  | (offset, inData) :: rest => do
      let _ ← b.write elemSize offset inData (inData.length / elemSize)
      b.writeAll elemSize rest

/-- Create a file, write to it, and open it again to read. -/
def reopened (elemSize : ℕ) (fname : Bytes) (n : ℕ) (writes : List (ℕ × Bytes)) :
    Run BlockStorage := do
  let b ← create elemSize fname false n
  b.writeAll elemSize writes
  let _ ← b.reset
  fromFile elemSize fname true

end BlockStorage

/-- The bytes that the writes leave in a file of zeros. -/
def lastWritten (elemSize n : ℕ) (writes : List (ℕ × Bytes)) : Bytes :=
  writes.foldl (fun content write => Posix.overwrite content (write.1 * elemSize) write.2)
    (List.replicate (n * elemSize) 0)

/-- The file can be opened again, and every range of it reads as it was last
written. -/
def Persists (elemSize : ℕ) (fname : Bytes) (n : ℕ) (writes : List (ℕ × Bytes)) (d : Disk) : Prop :=
  ∃ b d', BlockStorage.reopened elemSize fname n writes d = .returned b d' ∧
    ∀ offset count, offset + count ≤ n →
      b.read elemSize offset count d' = .returned
        (count, ((lastWritten elemSize n writes).drop (offset * elemSize)).take (count * elemSize))
        d'

section Throws

theorem closingOnThrow_of_thrown {α : Type} {fd : ℤ} {m : Run α} {d d' : Disk} {e : BlockError}
    (h : m d = .thrown e d') : ∃ d'', closingOnThrow fd m d = .thrown e d'' := by
  unfold closingOnThrow
  rw [Action.tryCatch_of_thrown h]
  by_cases hfd : fd ≠ -1
  · exact ⟨_, by rw [if_pos hfd]; rfl⟩
  · exact ⟨_, by rw [if_neg hfd]; rfl⟩

theorem openFile_cases (fname : Bytes) (flags : OpenFlags) (d : Disk) :
    (∃ (k : ℕ) (d' : Disk), openFile fname flags d = .returned (k : ℤ) d') ∨
      openFile fname flags d = .returned (-1) d := by
  dsimp only [openFile]
  split_ifs
  · exact .inl ⟨_, _, rfl⟩
  · exact .inr rfl

/-- The check of a descriptor throws when it is valid. -/
theorem closingOnThrow_check {α : Type} (k : ℕ) (e : BlockError) (rest : Run α) (d : Disk) :
    ∃ d', closingOnThrow k (do
      if (k : ℤ) ≠ -1 then .throw e
      rest) d = .thrown e d' := by
  have hthrown : (do
      if (k : ℤ) ≠ -1 then .throw e
      rest : Run α) d = .thrown e d := by
    rw [if_pos (by omega)]
    rfl
  exact closingOnThrow_of_thrown hthrown

/-- The check throws when the file was opened, and the call after it when it was
not. -/
theorem openDataFile_throws (fname : Bytes) (readonly : Bool) (d : Disk) :
    ∃ e d', openDataFile fname readonly d = .thrown e d' := by
  unfold openDataFile
  rcases openFile_cases fname (getOpenFlags readonly false) d with ⟨k, d', hopen⟩ | hopen
  · rw [Action.bind_of_returned hopen]
    exact ⟨_, closingOnThrow_check k _ _ d'⟩
  · rw [Action.bind_of_returned hopen]
    exact ⟨_, _, rfl⟩

theorem initDataFile_throws (fname : Bytes) (readonly : Bool) (size : ℕ) (d : Disk) :
    ∃ e d', initDataFile fname readonly size d = .thrown e d' := by
  unfold initDataFile
  rcases openFile_cases fname (getOpenFlags readonly true) d with ⟨k, d', hopen⟩ | hopen
  · rw [Action.bind_of_returned hopen]
    exact ⟨_, closingOnThrow_check k _ _ d'⟩
  · rw [Action.bind_of_returned hopen]
    exact ⟨_, _, rfl⟩

theorem fromFile_throws (elemSize : ℕ) (fname : Bytes) (readonly : Bool) (d : Disk) :
    ∃ e d', BlockStorage.fromFile elemSize fname readonly d = .thrown e d' := by
  obtain ⟨e, d', hthrown⟩ := openDataFile_throws fname readonly d
  exact ⟨e, d', Action.bind_of_thrown hthrown⟩

theorem create_throws (elemSize : ℕ) (fname : Bytes) (readonly : Bool) (n : ℕ) (d : Disk) :
    ∃ e d', BlockStorage.create elemSize fname readonly n d = .thrown e d' := by
  obtain ⟨e, d', hthrown⟩ := initDataFile_throws fname readonly (sizeT (n * elemSize)) d
  exact ⟨e, d', Action.bind_of_thrown hthrown⟩

/-- No file is created, none is opened again, and nothing persists. -/
theorem blockStorage_not_persists (elemSize : ℕ) (fname : Bytes) (n : ℕ)
    (writes : List (ℕ × Bytes)) (d : Disk) :
    ¬Persists elemSize fname n writes d ∧
      (∃ e d', BlockStorage.create elemSize fname false n d = .thrown e d') ∧
      ∃ e d', BlockStorage.fromFile elemSize fname true d = .thrown e d' := by
  obtain ⟨e, d', hcreate⟩ := create_throws elemSize fname false n d
  refine ⟨?_, ⟨e, d', hcreate⟩, fromFile_throws elemSize fname true d⟩
  rintro ⟨b, d'', hreopened, -⟩
  have hthrown : BlockStorage.reopened elemSize fname n writes d = .thrown e d' :=
    Action.bind_of_thrown hcreate
  rw [hthrown] at hreopened
  cases hreopened

/-- No file and no descriptor. -/
def emptyDisk : Disk := ⟨fun _ => none, fun _ => none, 3⟩

/-- An element of eight bytes is not even written. -/
theorem emptyDisk_not_persists :
    (BlockStorage.create 8 (bytes "index") false 4 emptyDisk).answer =
        some (.error (.sysError (bytes "open or create file `index`"))) ∧
      ¬Persists 8 (bytes "index") 4 [(1, [1, 2, 3, 4, 5, 6, 7, 8])] emptyDisk := by
  refine ⟨rfl, ?_⟩
  rintro ⟨b, d', hreopened, -⟩
  cases hreopened

end Throws

end Storage

end DistStorage
