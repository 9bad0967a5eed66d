import Mathlib

/-!
# Pathnames

A pathname is a byte string that ends at its first NUL. Its components are
separated by slashes, and it is resolved from the working directory: empty
components and `.` stay, `..` goes up, and every component before the last has
to be a directory. The directories are given as a finite set of paths from the
root and do not change; there are no symbolic links.
-/

namespace Posix

abbrev Name := List UInt8

abbrev Path := List Name

def slash : UInt8 := 47

def dot : Name := [46]

def dotDot : Name := [46, 46]

/-- The part of a string that a C function sees. -/
def cString (s : List UInt8) : List UInt8 := s.takeWhile (· ≠ 0)

/-- The parts between the slashes, with the empty ones. -/
def components : List UInt8 → List Name
  | [] => [[]]
  | b :: bs =>
      if b = slash then [] :: components bs
      else
        match components bs with
        | c :: cs => (b :: c) :: cs
        | [] => [[b]]

/-- A set of directories closed under parents, and the working directory. -/
structure Directories where
  paths : List Path
  cwd : Path
  root_mem : [] ∈ paths
  parent_mem : ∀ p ∈ paths, p.dropLast ∈ paths
  cwd_mem : cwd ∈ paths

/-- What a pathname leads to: a directory, or a name in a directory that is not
one itself. -/
inductive Target
  | directory (path : Path)
  | entry (path : Path)
  deriving DecidableEq, Repr

def Target.path : Target → Path
  | .directory p => p
  | .entry p => p

def Directories.walk (dirs : Directories) : Path → List Name → Option Target
  | d, [] => some (.directory d)
  | d, c :: cs =>
      if c = [] ∨ c = dot then dirs.walk d cs
      else if c = dotDot then dirs.walk d.dropLast cs
      else if d ++ [c] ∈ dirs.paths then dirs.walk (d ++ [c]) cs
      else if cs = [] then some (.entry (d ++ [c]))
      else none

def Directories.resolve (dirs : Directories) (pathname : List UInt8) : Option Target :=
  dirs.walk dirs.cwd (components (cString pathname))

/-- A name that stands for itself in a pathname. -/
structure Plain (name : Name) : Prop where
  ne_nil : name ≠ []
  slash_not_mem : slash ∉ name
  nul_not_mem : (0 : UInt8) ∉ name
  ne_dot : name ≠ dot
  ne_dotDot : name ≠ dotDot

theorem components_of_slash_not_mem {s : List UInt8} (h : slash ∉ s) : components s = [s] := by
  induction s with
  | nil => rfl
  | cons b s ih =>
      obtain ⟨hb, hs⟩ := not_or.mp (mt List.mem_cons.mpr h)
      rw [components, if_neg (Ne.symm hb), ih hs]

theorem components_append {s t : List UInt8} (h : slash ∉ s) :
    components (s ++ slash :: t) = s :: components t := by
  induction s with
  | nil => simp [components]
  | cons b s ih =>
      obtain ⟨hb, hs⟩ := not_or.mp (mt List.mem_cons.mpr h)
      rw [List.cons_append, components, if_neg (Ne.symm hb), ih hs]

theorem cString_eq_self {s : List UInt8} (h : (0 : UInt8) ∉ s) : cString s = s := by
  apply List.takeWhile_eq_self_iff.mpr
  intro b hb
  simpa using fun heq : b = 0 => h (heq ▸ hb)

theorem Directories.resolve_plain {dirs : Directories} {dir name : Name} (hdir : Plain dir)
    (hname : Plain name) (hmem : dirs.cwd ++ [dir] ∈ dirs.paths)
    (hnot : dirs.cwd ++ [dir] ++ [name] ∉ dirs.paths) :
    dirs.resolve (dir ++ slash :: name) = some (.entry (dirs.cwd ++ [dir] ++ [name])) := by
  have hnul : (0 : UInt8) ∉ dir ++ slash :: name := by
    simp [hdir.nul_not_mem, hname.nul_not_mem, slash]
  rw [resolve, cString_eq_self hnul, components_append hdir.slash_not_mem,
    components_of_slash_not_mem hname.slash_not_mem]
  unfold walk
  rw [if_neg (by simp [hdir.ne_nil, hdir.ne_dot]), if_neg hdir.ne_dotDot, if_pos hmem]
  unfold walk
  rw [if_neg (by simp [hname.ne_nil, hname.ne_dot]), if_neg hname.ne_dotDot, if_neg hnot,
    if_pos rfl]

end Posix
