import Mathlib

/-!
# Lines

`std::getline` reads up to a separator and drops it; it fails where nothing is left. A
position of a text has the line that `getline` reads it with and a column in that line.
-/

namespace Cpp

variable {α : Type} [DecidableEq α]

/-- `std::getline`, with what is left to read. -/
def getline (a : α) (s : List α) : Option (List α × List α) :=
  if s = [] then none else some (s.takeWhile (· ≠ a), (s.dropWhile (· ≠ a)).tail)

/-- The last line after so many calls of `getline`; the line before the first one is given. -/
def getlines (a : α) : ℕ → List α → List α → Option (List α)
  | 0, _, line => some line
  | n + 1, s, _ => (getline a s).bind fun (line, rest) => getlines a n rest line

def lineNumber (a : α) (s : List α) (i : ℕ) : ℕ := (s.take i).count a + 1

/-- The part of the line before a position. -/
def lineStart (a : α) (s : List α) (i : ℕ) : List α := (s.take i).rtakeWhile (· ≠ a)

def column (a : α) (s : List α) (i : ℕ) : ℕ := (lineStart a s i).length

theorem getline_of_notMem {a : α} {first : List α} (rest : List α) (h : a ∉ first) :
    getline a (first ++ a :: rest) = some (first, rest) := by
  have hpos : ∀ b ∈ first, decide (b ≠ a) = true := by
    intro b hb
    exact decide_eq_true fun hba => h (hba ▸ hb)
  rw [getline, if_neg (by simp), List.takeWhile_append_of_pos hpos,
    List.dropWhile_append_of_pos hpos]
  simp

theorem getlines_append {a : α} {pre : List α} (hpre : ∀ b ∈ pre.getLast?, b = a)
    (s line : List α) :
    getlines a (pre.count a + 1) (pre ++ s) line =
      if s = [] then none else some (s.takeWhile (· ≠ a)) := by
  induction hn : pre.count a generalizing pre line with
  | zero =>
      obtain rfl : pre = [] := by
        by_contra hne
        have hlast := hpre _ (List.getLast?_eq_some_getLast hne)
        have hmem := List.getLast_mem hne
        rw [hlast] at hmem
        exact List.count_eq_zero.mp hn hmem
      rw [List.nil_append, getlines, getline]
      split_ifs <;> rfl
  | succ n ih =>
      have hmem : a ∈ pre := List.count_pos_iff.mp (by omega)
      obtain ⟨first, rest, rfl, hfirst⟩ := List.eq_append_cons_of_mem hmem
      have hcount : rest.count a = n := by
        rw [List.count_append, List.count_cons_self, List.count_eq_zero.mpr hfirst] at hn
        omega
      have hrest : ∀ b ∈ rest.getLast?, b = a := by
        intro b hb
        refine hpre b ?_
        rw [List.getLast?_append, List.getLast?_cons, Option.mem_def.mp hb]
        rfl
      rw [getlines, List.append_assoc, List.cons_append, getline_of_notMem _ hfirst]
      exact ih hrest first hcount

theorem ne_of_mem_lineStart {a b : α} {s : List α} {i : ℕ} (h : b ∈ lineStart a s i) : b ≠ a := by
  have hb := List.mem_rtakeWhile_imp h
  exact of_decide_eq_true hb

theorem lineStart_eq_nil_iff (a : α) (s : List α) (i : ℕ) :
    lineStart a s i = [] ↔ ∀ b ∈ (s.take i).getLast?, b = a := by
  rw [lineStart, List.rtakeWhile_eq_nil_iff]
  constructor
  · intro h b hb
    obtain ⟨hne, rfl⟩ := List.mem_getLast?_eq_getLast hb
    exact not_not.mp fun hb => h hne (decide_eq_true hb)
  · intro h hne hlast
    exact of_decide_eq_true hlast (h _ (List.getLast?_eq_some_getLast hne))

/-- The line of a position is read whole; it fails to be read where the position is at
the end and its line has nothing before it. -/
theorem getlines_lineNumber (a : α) (s line : List α) (i : ℕ) :
    getlines a (lineNumber a s i) s line =
      if lineStart a s i ++ s.drop i = [] then none
      else some (lineStart a s i ++ (s.drop i).takeWhile (· ≠ a)) := by
  set pre := (s.take i).rdropWhile (· ≠ a) with hpre
  have hsplit : pre ++ lineStart a s i = s.take i := List.rdropWhile_append_rtakeWhile
  have hstart : (lineStart a s i).count a = 0 :=
    List.count_eq_zero.mpr fun h => ne_of_mem_lineStart h rfl
  have hcount : lineNumber a s i = pre.count a + 1 := by
    rw [lineNumber, ← hsplit, List.count_append, hstart, add_zero]
  have hlast : ∀ b ∈ pre.getLast?, b = a := by
    intro b hb
    obtain ⟨hne, rfl⟩ := List.mem_getLast?_eq_getLast hb
    have hstop := List.rdropWhile_last_not (fun c => decide (c ≠ a)) (s.take i) hne
    exact not_not.mp fun hb => hstop (decide_eq_true hb)
  have hpos : ∀ b ∈ lineStart a s i, decide (b ≠ a) = true := fun b hb =>
    decide_eq_true (ne_of_mem_lineStart hb)
  have htext : s = pre ++ (lineStart a s i ++ s.drop i) := by
    rw [← List.append_assoc, hsplit, List.take_append_drop]
  calc getlines a (lineNumber a s i) s line
      = getlines a (pre.count a + 1) (pre ++ (lineStart a s i ++ s.drop i)) line := by
        rw [← htext, hcount]
    _ = _ := by rw [getlines_append hlast, List.takeWhile_append_of_pos hpos]

end Cpp
