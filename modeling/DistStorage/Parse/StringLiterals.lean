import DistStorage.Parse.Visitor

/-!
# String literals

A text is written unit by unit, one for each byte, and read back unit by unit
when the bytes after a unit do not change how it is read. The doubling of quotes
and backslashes is such a writing, and so are hexadecimal escapes, whose text
holds no quote before its last byte.
-/

namespace DistStorage

namespace Parse

open Query Cpp

/-- A single quote or a backslash twice, and every other byte once. -/
def doubled (b : UInt8) : Bytes :=
  if b = byte '\'' ∨ b = byte '\\' then [b, b] else [b]

def hexDigit (v : UInt8) : UInt8 :=
  if v < 10 then byte '0' + v else byte 'a' + (v - 10)

def hexEscape (b : UInt8) : Bytes :=
  [byte '\\', byte 'x', hexDigit (b / 16), hexDigit (b % 16)]

def quoted (body : Bytes) : Bytes := byte '\'' :: body ++ [byte '\'']

/-- A text that the rule `STRING_LITERAL` matches whole, whose loop is left at the
first quote. -/
def IsStringToken (token : Bytes) : Prop := ∃ body, byte '\'' ∉ body ∧ token = quoted body

section Units

/-- A unit is read as its byte, whatever follows it. -/
def ReadsAs (unit : UInt8 → Bytes) : Prop :=
  ∀ b rest, unescapeSqlString (unit b ++ rest) = b :: unescapeSqlString rest

theorem unescapeSqlString_cons (b : UInt8) (rest : Bytes) :
    unescapeSqlString (b :: rest) =
      (readByte b rest).1 ++ unescapeSqlString (rest.drop (readByte b rest).2) := by
  have hskip : ∀ skip (s : Bytes), unescapeFrom skip s = unescapeFrom 0 (s.drop skip) := by
    intro skip s
    induction s generalizing skip with
    | nil => cases skip <;> rfl
    | cons c s ih =>
        cases skip with
        | zero => rfl
        | succ skip => exact ih skip
  exact congrArg _ (hskip _ _)

theorem unescapeSqlString_flatMap {unit : UInt8 → Bytes} (hunit : ReadsAs unit) (s : Bytes) :
    unescapeSqlString (s.flatMap unit) = s := by
  induction s with
  | nil => rfl
  | cons b s ih => rw [List.flatMap_cons, hunit, ih]

theorem readByte_of_ne {b : UInt8} (hquote : b ≠ byte '\'') (hbackslash : b ≠ byte '\\')
    (rest : Bytes) : readByte b rest = ([b], 0) := by
  cases rest with
  | nil => rfl
  | cons nextChar rest => simp [readByte, hquote, hbackslash]

theorem doubled_readsAs : ReadsAs doubled := by
  intro b rest
  unfold doubled
  split_ifs with h
  · -- the second byte of the pair is read with the first one
    rcases h with rfl | rfl <;> exact unescapeSqlString_cons _ _
  · obtain ⟨hquote, hbackslash⟩ := not_or.mp h
    change unescapeSqlString (b :: rest) = _
    rw [unescapeSqlString_cons, readByte_of_ne hquote hbackslash]
    rfl

theorem readEscape_hexEscape (b : UInt8) (rest : Bytes) :
    readEscape (byte 'x') (hexDigit (b / 16) :: hexDigit (b % 16) :: rest) = ([b], 3) := by
  have hdigits : ∀ b : UInt8, hexValue (hexDigit (b / 16)) = some (b / 16) ∧
      hexValue (hexDigit (b % 16)) = some (b % 16) ∧ 16 * (b / 16) + b % 16 = b := by
    decide +kernel
  obtain ⟨hhigh, hlow, hvalue⟩ := hdigits b
  simp [readEscape, hhigh, hlow, hvalue]

theorem hexEscape_readsAs : ReadsAs hexEscape := by
  intro b rest
  change unescapeSqlString
    (byte '\\' :: byte 'x' :: hexDigit (b / 16) :: hexDigit (b % 16) :: rest) = _
  rw [unescapeSqlString_cons]
  have hread : readByte (byte '\\')
      (byte 'x' :: hexDigit (b / 16) :: hexDigit (b % 16) :: rest) = ([b], 3) :=
    readEscape_hexEscape b rest
  rw [hread]
  rfl

theorem quote_notMem_hexEscape (s : Bytes) : byte '\'' ∉ s.flatMap hexEscape := by
  have hdigit : ∀ b : UInt8, byte '\'' ∉ hexEscape b := by decide +kernel
  simp only [List.mem_flatMap, not_exists, not_and]
  exact fun b _ => hdigit b

end Units

section Visit

/-- The literal is read as the string: visiting it appends the string to the
constants and a node for it. -/
def LiteralReads (token text : Bytes) : Prop :=
  ∀ (env : Environment) (s : VisitorState), visitLiteralExpr env (.string token) s =
    let (nodeId, g) := s.outGraph.appendStringConstant text
    .returned (some nodeId) { s with outGraph := g }

theorem literalReads_quoted {body : Bytes} (hlength : (quoted body).length < 2 ^ 64) :
    LiteralReads (quoted body) (unescapeSqlString body) := by
  intro env s
  have hsubstr : substr (quoted body) 1 (sizeT ((quoted body).length + (2 ^ 64 - 2))) =
      .ok body := by
    have hlen : (quoted body).length = body.length + 2 := by simp [quoted]
    have hcount : sizeT ((quoted body).length + (2 ^ 64 - 2)) = body.length := by
      unfold sizeT
      omega
    rw [substr, if_neg (by omega), hcount]
    simp [quoted]
  rw [visitLiteralExpr, hsubstr]
  rfl

/-- A byte string is read back from its quotes and backslashes doubled. It is so
as a literal, and one token of the grammar reads as it. -/
theorem unescapeSqlString_doubled (s : Bytes) :
    unescapeSqlString (s.flatMap doubled) = s ∧
      ((quoted (s.flatMap doubled)).length < 2 ^ 64 →
        LiteralReads (quoted (s.flatMap doubled)) s) ∧
      ((quoted (s.flatMap hexEscape)).length < 2 ^ 64 →
        ∃ token, IsStringToken token ∧ LiteralReads token s) := by
  have hdoubled := unescapeSqlString_flatMap doubled_readsAs s
  have hhex := unescapeSqlString_flatMap hexEscape_readsAs s
  refine ⟨hdoubled, fun hlength => ?_, fun hlength => ?_⟩
  · simpa only [hdoubled] using literalReads_quoted hlength
  · exact ⟨_, ⟨_, quote_notMem_hexEscape s, rfl⟩,
      by simpa only [hhex] using literalReads_quoted hlength⟩

theorem unescapeSqlString_doubled_sample :
    unescapeSqlString ((bytes "it's \\x41").flatMap doubled) = bytes "it's \\x41" ∧
      LiteralReads (quoted ((bytes "it's \\x41").flatMap doubled)) (bytes "it's \\x41") ∧
      ∃ token, IsStringToken token ∧ LiteralReads token (bytes "it's \\x41") :=
  have h := unescapeSqlString_doubled (bytes "it's \\x41")
  ⟨h.1, h.2.1 (by decide), h.2.2 (by decide)⟩

end Visit

end Parse

end DistStorage
