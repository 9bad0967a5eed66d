import DistStorage.Cpp.Action
import DistStorage.Posix.Path

/-!
# File calls

`SystemCalls` is the interface of a program to its files: actions on a state of
any type that answer with a descriptor, a count or bytes, or with an error.
`regularFiles` gives the calls over a map from paths to contents, where a read
or a write transfers all it can and no call fails for an outside reason.
-/

namespace Posix

open Cpp

inductive Whence
  | set
  | fromEnd
  deriving DecidableEq, Repr

/-- The calls of a program on its files, with descriptors of type `D`. A missing
value is the error return. -/
structure SystemCalls (ε σ D : Type) where
  openWrite : List UInt8 → Action ε σ (Option D)
  openRead : List UInt8 → Action ε σ (Option D)
  lseek : D → Whence → ℤ → Action ε σ (Option D)
  read : D → ℕ → Action ε σ (Option (List UInt8 × D))
  write : D → List UInt8 → Action ε σ (Option ℕ)
  unlink : List UInt8 → Action ε σ Bool

abbrev FileSystem := Path → Option (List UInt8)

structure Descriptor where
  target : Target
  position : ℕ
  deriving DecidableEq, Repr

/-- Write into a content, with zeros up to a position past its end. -/
def overwrite (content : List UInt8) (position : ℕ) (data : List UInt8) : List UInt8 :=
  if data = [] then content
  else
    (content ++ List.replicate (position - content.length) 0).take position ++ data ++
      content.drop (position + data.length)

theorem getElem?_overwrite (content : List UInt8) (position : ℕ) {data : List UInt8}
    (hdata : data ≠ []) (i : ℕ) :
    (overwrite content position data)[i]? =
      if position ≤ i ∧ i < position + data.length then data[i - position]?
      else if i < content.length then content[i]?
      else if i < position then some 0
      else none := by
  have hfront : ((content ++ List.replicate (position - content.length) 0).take position).length =
      position := by
    simp
    omega
  rw [overwrite, if_neg hdata, List.append_assoc]
  rcases Nat.lt_or_ge i position with hbefore | hafter
  · rw [List.getElem?_append_left (by rw [hfront]; exact hbefore), List.getElem?_take,
      if_pos hbefore, if_neg (by omega)]
    split_ifs with hold
    · rw [List.getElem?_append_left hold]
    · rw [List.getElem?_append_right (by omega), List.getElem?_replicate, if_pos (by omega)]
  · rw [List.getElem?_append_right (by rw [hfront]; exact hafter), hfront]
    by_cases hin : i < position + data.length
    · rw [List.getElem?_append_left (by omega), if_pos ⟨hafter, hin⟩]
    · rw [List.getElem?_append_right (by omega), List.getElem?_drop, if_neg (by omega)]
      have hindex : position + data.length + (i - position - data.length) = i := by omega
      rw [hindex]
      split_ifs with hold
      · rfl
      · omega
      · exact List.getElem?_eq_none (by omega)

def seekPosition (size : ℕ) : Whence → ℤ → Option ℕ
  | .set, offset => if 0 ≤ offset then some offset.toNat else none
  | .fromEnd, offset => if 0 ≤ size + offset then some (size + offset).toNat else none

namespace FileSystem

def openWrite (dirs : Directories) (fs : FileSystem) (pathname : List UInt8) :
    Option Descriptor × FileSystem :=
  match dirs.resolve pathname with
  | some (.entry p) =>
      (some ⟨.entry p, 0⟩, if (fs p).isSome then fs else Function.update fs p (some []))
  | _ => (none, fs)

def openRead (dirs : Directories) (fs : FileSystem) (pathname : List UInt8) :
    Option Descriptor :=
  match dirs.resolve pathname with
  | some (.entry p) => if (fs p).isSome then some ⟨.entry p, 0⟩ else none
  | some (.directory p) => some ⟨.directory p, 0⟩
  | none => none

/-- `lseek`, given what it does on directories. -/
def lseek (seekDirectory : Path → Whence → ℤ → Option ℕ) (fs : FileSystem) (fd : Descriptor)
    (whence : Whence) (offset : ℤ) : Option Descriptor :=
  match fd.target with
  | .entry p =>
      (seekPosition ((fs p).getD []).length whence offset).map fun pos =>
        { fd with position := pos }
  | .directory p => (seekDirectory p whence offset).map fun pos => { fd with position := pos }

/-- `read`, which fails on a directory. -/
def read (fs : FileSystem) (fd : Descriptor) (count : ℕ) : Option (List UInt8 × Descriptor) :=
  match fd.target with
  | .entry p =>
      let data := (((fs p).getD []).drop fd.position).take count
      some (data, { fd with position := fd.position + data.length })
  | .directory _ => none

def write (fs : FileSystem) (fd : Descriptor) (data : List UInt8) : Option ℕ × FileSystem :=
  match fd.target with
  | .entry p =>
      (some data.length,
        Function.update fs p (some (overwrite ((fs p).getD []) fd.position data)))
  | .directory _ => (none, fs)

/-- `unlink`, which fails on a directory. -/
def unlink (dirs : Directories) (fs : FileSystem) (pathname : List UInt8) : Bool × FileSystem :=
  match dirs.resolve pathname with
  | some (.entry p) => if (fs p).isSome then (true, Function.update fs p none) else (false, fs)
  | _ => (false, fs)

theorem openWrite_entry {dirs : Directories} {pathname : List UInt8} {p : Path}
    (h : dirs.resolve pathname = some (.entry p)) (fs : FileSystem) :
    fs.openWrite dirs pathname =
      (some ⟨.entry p, 0⟩, Function.update fs p (some ((fs p).getD []))) := by
  unfold openWrite
  rw [h]
  cases hp : fs p with
  | none => simp [hp]
  | some content =>
      have hsame : Function.update fs p (some content) = fs := by
        rw [← hp, Function.update_eq_self]
      simp [hp, hsame]

theorem openWrite_eq_none {dirs : Directories} {pathname : List UInt8}
    (h : ∀ p, dirs.resolve pathname ≠ some (.entry p)) (fs : FileSystem) :
    fs.openWrite dirs pathname = (none, fs) := by
  unfold openWrite
  split
  · rename_i p hp
    exact absurd hp (h p)
  · rfl

theorem unlink_eq_false {dirs : Directories} {pathname : List UInt8}
    (h : ∀ p, dirs.resolve pathname ≠ some (.entry p)) (fs : FileSystem) :
    fs.unlink dirs pathname = (false, fs) := by
  unfold unlink
  split
  · rename_i p hp
    exact absurd hp (h p)
  · rfl

theorem write_entry (fs : FileSystem) (p : Path) (position : ℕ) (data : List UInt8) :
    fs.write ⟨.entry p, position⟩ data =
      (some data.length,
        Function.update fs p (some (overwrite ((fs p).getD []) position data))) := rfl

theorem openRead_entry {dirs : Directories} {pathname : List UInt8} {p : Path}
    (h : dirs.resolve pathname = some (.entry p)) (fs : FileSystem) :
    fs.openRead dirs pathname = if (fs p).isSome then some ⟨.entry p, 0⟩ else none := by
  unfold openRead
  rw [h]

theorem unlink_entry {dirs : Directories} {pathname : List UInt8} {p : Path}
    (h : dirs.resolve pathname = some (.entry p)) (fs : FileSystem) :
    fs.unlink dirs pathname =
      if (fs p).isSome then (true, Function.update fs p none) else (false, fs) := by
  unfold unlink
  rw [h]

theorem target_of_lseek {seekDirectory : Path → Whence → ℤ → Option ℕ} {fs : FileSystem}
    {fd fd' : Descriptor} {whence : Whence} {offset : ℤ}
    (h : fs.lseek seekDirectory fd whence offset = some fd') : fd'.target = fd.target := by
  unfold lseek at h
  split at h
  · obtain ⟨pos, -, rfl⟩ := Option.map_eq_some_iff.mp h
    rfl
  · obtain ⟨pos, -, rfl⟩ := Option.map_eq_some_iff.mp h
    rfl

theorem target_of_read {fs : FileSystem} {fd fd' : Descriptor} {count : ℕ} {data : List UInt8}
    (h : fs.read fd count = some (data, fd')) : fd'.target = fd.target := by
  unfold read at h
  split at h
  · obtain ⟨-, rfl⟩ := Prod.mk.inj (Option.some.inj h)
    rfl
  · exact absurd h (by simp)

end FileSystem

/-- The calls over regular files. -/
def regularFiles (ε : Type) (dirs : Directories)
    (seekDirectory : Path → Whence → ℤ → Option ℕ) : SystemCalls ε FileSystem Descriptor where
  openWrite pathname := fun fs =>
    let opened := fs.openWrite dirs pathname
    .returned opened.1 opened.2
  openRead pathname := fun fs => .returned (fs.openRead dirs pathname) fs
  lseek fd whence offset := fun fs => .returned (fs.lseek seekDirectory fd whence offset) fs
  read fd count := fun fs => .returned (fs.read fd count) fs
  write fd data := fun fs =>
    let written := fs.write fd data
    .returned written.1 written.2
  unlink pathname := fun fs =>
    let unlinked := fs.unlink dirs pathname
    .returned unlinked.1 unlinked.2

end Posix
