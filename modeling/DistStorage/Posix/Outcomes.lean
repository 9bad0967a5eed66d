import DistStorage.Posix.File

/-!
# File calls with outcomes

A call on a file may fail where the file system would let it succeed, and a read
or a write may move fewer bytes than it was asked for. `Outcomes` decides how the
calls of a program end; `interruptedFiles` gives the calls over regular files that
end so. A read of a file that has more moves at least one byte.
-/

namespace Posix

open Cpp

/-- Which calls the system lets succeed, and for each read and write in turn the
bytes that it moves at most, if it does not fail. -/
structure Outcomes where
  opens : Bool
  seeks : Bool
  unlinks : Bool
  transfers : ℕ → Option ℕ

def Outcomes.full : Outcomes where
  opens := true
  seeks := true
  unlinks := true
  transfers _ := some (2 ^ 31)

/-- The files, and the number of the reads and writes so far. -/
structure Disk where
  files : FileSystem
  transferred : ℕ

/-- The calls over regular files with the given outcomes. -/
def interruptedFiles (ε : Type) (dirs : Directories)
    (seekDirectory : Path → Whence → ℤ → Option ℕ) (o : Outcomes) :
    SystemCalls ε Disk Descriptor where
  openWrite pathname := fun d =>
    if o.opens then
      let opened := d.files.openWrite dirs pathname
      .returned opened.1 { d with files := opened.2 }
    else .returned none d
  openRead pathname := fun d =>
    .returned (if o.opens then d.files.openRead dirs pathname else none) d
  lseek fd whence offset := fun d =>
    .returned (if o.seeks then d.files.lseek seekDirectory fd whence offset else none) d
  read fd count := fun d =>
    .returned ((o.transfers d.transferred).bind fun n => d.files.read fd (min count (n + 1)))
      { d with transferred := d.transferred + 1 }
  write fd data := fun d =>
    match o.transfers d.transferred with
    | none => .returned none { d with transferred := d.transferred + 1 }
    | some n =>
        let written := d.files.write fd (data.take n)
        .returned written.1 { files := written.2, transferred := d.transferred + 1 }
  unlink pathname := fun d =>
    if o.unlinks then
      let unlinked := d.files.unlink dirs pathname
      .returned unlinked.1 { d with files := unlinked.2 }
    else .returned false d

end Posix
