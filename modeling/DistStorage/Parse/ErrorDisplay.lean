import DistStorage.Cpp.Lines

/-!
# The display of a compile error

A `SqlCompileError` keeps the line, the column and the length of what it is about, as
the tokens of the parser give them. `printSqlError` shows the line again and puts as
many carets under it. Here the text of a query is its list of characters, each of which
takes one column.
-/

namespace DistStorage

namespace Parse

open Cpp

/-- The members of a token that an error reads. -/
structure ErrorToken where
  line : ℕ
  charPositionInLine : ℕ
  startIndex : UInt64
  stopIndex : UInt64

structure SqlCompileError where
  what : String
  line : ℕ := 0
  column : ℕ := 0
  length : ℕ := 0
  deriving DecidableEq, Repr

/-- The constructor for a rule, whose first and last tokens may be null. -/
def SqlCompileError.ofContext (message : String) :
    Option ErrorToken → Option ErrorToken → SqlCompileError
  | some start, some stop =>
      { what := message
        line := start.line
        column := start.charPositionInLine
        length := (stop.stopIndex - start.startIndex + 1).toNat }
  | _, _ => { what := message }

/-- The constructor for a token. -/
def SqlCompileError.ofToken (message : String) : Option ErrorToken → SqlCompileError
  | some token =>
      { what := message
        line := token.line
        column := token.charPositionInLine
        length := (token.stopIndex - token.startIndex + 1).toNat }
  | none => { what := message }

/-- The listener of the parser. -/
def syntaxError (offendingSymbol : Option ErrorToken) (msg : String) : SqlCompileError :=
  .ofToken ("Compile error: " ++ msg) offendingSymbol

/-- The token of so many characters at a position of the text; the one at its end has none. -/
def tokenAt (text : List Char) (start length : ℕ) : ErrorToken where
  line := lineNumber '\n' text start
  charPositionInLine := column '\n' text start
  startIndex := .ofNat start
  stopIndex := .ofNat start + .ofNat length - 1

def getLineFromString (text : List Char) (lineNumber : ℕ) : List Char :=
  (getlines '\n' lineNumber text []).getD "<Line out of bounds>".toList

namespace SqlCompileError

variable (rawSql : List Char) (e : SqlCompileError)

/-- `prefix`, that the line is shown with. -/
def linePrefix : List Char := ("LINE " ++ toString e.line ++ ": ").toList

def sourceRow : List Char := e.linePrefix ++ getLineFromString rawSql e.line

def markerRow : List Char :=
  List.replicate (e.linePrefix.length + e.column) ' ' ++ List.replicate e.length '^'

end SqlCompileError

def printSqlError (rawSql : List Char) (e : SqlCompileError) : List Char :=
  ("\n=========================================\n" ++
    "             SQL PARSE ERROR               \n" ++
    "=========================================\n" ++
    "ERROR: " ++ e.what ++ "\n\n").toList ++
  e.sourceRow rawSql ++ '\n' :: e.markerRow ++
  "\n=========================================\n\n".toList

def marked (row markers : List Char) : List Char :=
  (row.zip markers).filterMap fun (c, m) => if m = '^' then some c else none

theorem marked_replicate (before row : List Char) (n : ℕ) :
    marked (before ++ row) (List.replicate before.length ' ' ++ List.replicate n '^') =
      row.take n := by
  have hblank : ∀ l : List Char, marked l (List.replicate l.length ' ') = [] := by
    intro l
    induction l with
    | nil => rfl
    | cons c l ih => exact ih
  have hcarets : ∀ (l : List Char) (n : ℕ), marked l (List.replicate n '^') = l.take n := by
    intro l
    induction l with
    | nil => exact fun n => List.take_nil.symm
    | cons c l ih =>
        intro n
        cases n with
        | zero => rfl
        | succ n => exact congrArg (c :: ·) (ih n)
  rw [marked, List.zip_append List.length_replicate.symm, List.filterMap_append]
  exact (congrArg₂ (· ++ ·) (hblank before) (hcarets row n)).trans (List.nil_append _)

/-- The error is about the characters of the text from `start` up to `stop`. -/
structure SqlCompileError.About (e : SqlCompileError) (text : List Char) (start stop : ℕ) :
    Prop where
  line_eq : e.line = lineNumber '\n' text start
  column_eq : e.column = Cpp.column '\n' text start
  length_eq : e.length = stop - start

/-- A rule that begins with one token and ends with another is shown from the first
character of the one to the last of the other. -/
theorem about_ofContext {text : List Char} {start first last length : ℕ}
    (hle : start ≤ last + length) (hlt : last + length < 2 ^ 64) (message : String) :
    (SqlCompileError.ofContext message (some (tokenAt text start first))
      (some (tokenAt text last length))).About text start (last + length) := by
  refine ⟨rfl, rfl, ?_⟩
  have hsub : UInt64.ofNat last + UInt64.ofNat length - 1 - UInt64.ofNat start + 1 =
      UInt64.ofNat (last + length) - UInt64.ofNat start := by
    rw [UInt64.ofNat_add]
    grind
  have hdiff : UInt64.ofNat (last + length) - UInt64.ofNat start =
      UInt64.ofNat (last + length - start) := (UInt64.ofNat_sub hle).symm
  change (UInt64.ofNat last + UInt64.ofNat length - 1 - UInt64.ofNat start + 1).toNat = _
  have hsize : last + length - start < UInt64.size := (Nat.sub_le _ _).trans_lt hlt
  rw [hsub, hdiff, UInt64.toNat_ofNat_of_lt' hsize]

theorem about_ofToken {text : List Char} {start length : ℕ} (hlt : start + length < 2 ^ 64)
    (message : String) :
    (SqlCompileError.ofToken message (some (tokenAt text start length))).About text start
      (start + length) :=
  about_ofContext (Nat.le_add_right _ _) hlt message

theorem SqlCompileError.About.getlines_eq {e : SqlCompileError} {text : List Char}
    {start stop : ℕ} (h : e.About text start stop) :
    getlines '\n' e.line text [] =
      if lineStart '\n' text start ++ text.drop start = [] then none
      else some (lineStart '\n' text start ++ (text.drop start).takeWhile (· ≠ '\n')) := by
  rw [h.line_eq, getlines_lineNumber]

/-- The carets of an error stand under its characters up to the first line break. -/
theorem SqlCompileError.About.marked_eq {e : SqlCompileError} {text : List Char}
    {start stop : ℕ} (h : e.About text start stop) (hstop : stop ≤ text.length) :
    marked (e.sourceRow text) e.markerRow =
      ((text.drop start).take (stop - start)).takeWhile (· ≠ '\n') := by
  have hlength : e.linePrefix.length + e.column =
      (e.linePrefix ++ lineStart '\n' text start).length := by
    rw [List.length_append, h.column_eq, Cpp.column]
  obtain ⟨row, hrow, htake⟩ : ∃ row,
      getLineFromString text e.line = lineStart '\n' text start ++ row ∧
        row.take (stop - start) =
          ((text.drop start).take (stop - start)).takeWhile (· ≠ '\n') := by
    rw [getLineFromString, h.getlines_eq]
    split_ifs with hend
    · -- nothing is left to point at
      obtain ⟨hbefore, hafter⟩ := List.append_eq_nil_iff.mp hend
      have hzero : stop - start = 0 := by
        have hle := List.drop_eq_nil_iff.mp hafter
        omega
      refine ⟨"<Line out of bounds>".toList, ?_, ?_⟩
      · rw [hbefore, List.nil_append, Option.getD_none]
      · rw [hzero, List.take_zero, List.take_zero, List.takeWhile_nil]
    · exact ⟨_, Option.getD_some, List.take_takeWhile⟩
  rw [SqlCompileError.sourceRow, SqlCompileError.markerRow, hlength, h.length_eq, hrow,
    ← List.append_assoc, marked_replicate, htake]

/-- An error that spans a rule marks exactly the text of the rule, unless this has a line
break: then it marks the part before it. The line is not found exactly for the end of a
text that is empty or ends with a line break. -/
theorem printSqlError_marks {text : List Char} (htext : text.length < 2 ^ 64)
    {start first last length : ℕ} (hstart : start ≤ last) (hlast : last + length ≤ text.length)
    (message : String) {e : SqlCompileError}
    (he : e = .ofContext message (some (tokenAt text start first))
      (some (tokenAt text last length))) :
    marked (e.sourceRow text) e.markerRow =
        ((text.drop start).take (last + length - start)).takeWhile (· ≠ '\n') ∧
      (marked (e.sourceRow text) e.markerRow = (text.drop start).take (last + length - start) ↔
        '\n' ∉ (text.drop start).take (last + length - start)) ∧
      (getlines '\n' e.line text [] = none ↔
        start = text.length ∧ ∀ c ∈ text.getLast?, c = '\n') := by
  have habout : e.About text start (last + length) := by
    rw [he]
    exact about_ofContext (hstart.trans (Nat.le_add_right _ _)) (hlast.trans_lt htext) message
  have hmarked := habout.marked_eq hlast
  refine ⟨hmarked, ?_, ?_⟩
  · rw [hmarked, List.takeWhile_eq_self_iff]
    constructor
    · exact fun h hmem => of_decide_eq_true (h _ hmem) rfl
    · exact fun h c hc => decide_eq_true fun heq => h (heq ▸ hc)
  · have hends : lineStart '\n' text start ++ text.drop start = [] ↔
        start = text.length ∧ ∀ c ∈ text.getLast?, c = '\n' := by
      rw [List.append_eq_nil_iff, lineStart_eq_nil_iff, List.drop_eq_nil_iff]
      constructor
      · rintro ⟨hbreak, hge⟩
        rw [List.take_of_length_le hge] at hbreak
        exact ⟨by omega, hbreak⟩
      · rintro ⟨rfl, hbreak⟩
        rw [List.take_length]
        exact ⟨hbreak, le_rfl⟩
    rw [habout.getlines_eq, ← hends]
    split_ifs with hend
    · exact iff_of_true rfl hend
    · exact iff_of_false nofun hend

def sampleText : List Char := "DELETE\nFROM t".toList

def sampleError : SqlCompileError :=
  .ofContext "Delete unimplemented" (some (tokenAt sampleText 0 6)) (some (tokenAt sampleText 12 1))

theorem printSqlError_marks_sample :
    sampleError.length = 13 ∧
      marked (sampleError.sourceRow sampleText) sampleError.markerRow = "DELETE".toList := by
  have htext : sampleText.length < 2 ^ 64 := by decide
  have hlast : 12 + 1 ≤ sampleText.length := by decide
  have hmarks := printSqlError_marks htext (Nat.zero_le 12) hlast "Delete unimplemented"
    (rfl : sampleError = _)
  exact ⟨by decide, hmarks.1.trans (by decide)⟩

/-- A token that the parser did not expect is marked up to its first line break; at the
end of the text there is no caret. -/
theorem syntaxError_marked {text : List Char} (htext : text.length < 2 ^ 64) {start length : ℕ}
    (hle : start + length ≤ text.length) (msg : String) {e : SqlCompileError}
    (he : e = syntaxError (some (tokenAt text start length)) msg) :
    marked (e.sourceRow text) e.markerRow =
      ((text.drop start).take length).takeWhile (· ≠ '\n') := by
  have habout : e.About text start (start + length) := by
    rw [he]
    exact about_ofToken (hle.trans_lt htext) ("Compile error: " ++ msg)
  rw [habout.marked_eq hle, Nat.add_sub_cancel_left]

end Parse

end DistStorage
