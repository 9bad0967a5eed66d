import DistStorage.Parse.Tree
import DistStorage.Query.QueryGraph

/-!
# Texts of tokens

How the texts of literals and operators are read: the escapes of a string
literal, the integer of a number, and the operation of an operator. The reading
of a floating point number is the one of the C++ library and stays a parameter
of the visitor.
-/

namespace DistStorage

namespace Parse

open Query

/-- The exceptions that can leave a visitor, with the texts the source gives. -/
inductive Exception
  | sqlCompileError (what : Bytes)
  | badAnyCast
  | outOfRange
  | invalidArgument
  deriving DecidableEq, Repr

def byte (c : Char) : UInt8 := UInt8.ofNat c.toNat

def isDigit (b : UInt8) : Bool := byte '0' ≤ b && b ≤ byte '9'

def isOctalDigit (b : UInt8) : Bool := byte '0' ≤ b && b ≤ byte '7'

def hexValue (b : UInt8) : Option UInt8 :=
  if isDigit b then some (b - byte '0')
  else if byte 'a' ≤ b && b ≤ byte 'f' then some (b - byte 'a' + 10)
  else if byte 'A' ≤ b && b ≤ byte 'F' then some (b - byte 'A' + 10)
  else none

/-- The escape of a backslash before a byte that starts no number. -/
def standardEscape (nextChar : UInt8) : Bytes :=
  if nextChar = byte 'n' then [10]
  else if nextChar = byte 't' then [9]
  else if nextChar = byte 'r' then [13]
  else if nextChar = byte '\\' then [byte '\\']
  else if nextChar = byte '\'' then [byte '\'']
  else if nextChar = byte '"' then [byte '"']
  else [byte '\\', nextChar]

/-- What the bytes after a backslash stand for and how many of them are read:
`\xNN`, up to three octal digits reduced to a byte, or a standard escape. -/
def readEscape (nextChar : UInt8) (rest : Bytes) : Bytes × ℕ :=
  if nextChar = byte 'x' || nextChar = byte 'X' then
    match (rest.take 2).map hexValue with
    | [some h, some l] => ([16 * h + l], 3)
    | _ => (standardEscape nextChar, 1)
  else if isOctalDigit nextChar then
    let digits := ((nextChar :: rest).take 3).takeWhile isOctalDigit
    ([digits.foldl (fun octalValue d => 8 * octalValue + (d - byte '0')) 0], digits.length)
  else (standardEscape nextChar, 1)

/-- What a byte stands for and how many of the bytes after it are read with
it. -/
def readByte (b : UInt8) : Bytes → Bytes × ℕ
  | [] => ([b], 0)
  | nextChar :: rest =>
      if b = byte '\'' && nextChar = byte '\'' then ([byte '\''], 1)
      else if b = byte '\\' then readEscape nextChar rest
      else ([b], 0)

/-- The loop of `unescapeSqlString`, with the number of bytes still to skip. -/
def unescapeFrom : ℕ → Bytes → Bytes
  | _, [] => []
  | skip + 1, _ :: rest => unescapeFrom skip rest
  | 0, b :: rest =>
      let (result, skip) := readByte b rest
      result ++ unescapeFrom skip rest

def unescapeSqlString (rawInput : Bytes) : Bytes := unescapeFrom 0 rawInput

example : unescapeSqlString (bytes "a''b\\x41\\101\\n\\q") = bytes "a'bAA\n\\q" := by decide

/-- `std::string::substr`, which throws past the end of the string. -/
def substr (s : Bytes) (pos count : ℕ) : Except Exception Bytes :=
  if s.length < pos then .error .outOfRange else .ok ((s.drop pos).take count)

def digitsValue (digits : Bytes) : ℕ :=
  digits.foldl (fun n b => 10 * n + (b - byte '0').toNat) 0

def stoll (text : Bytes) : Except Exception ℤ :=
  let text := text.dropWhile fun b => b = 32 || (9 ≤ b && b ≤ 13)
  let negative := text.head? = some (byte '-')
  let signed := negative || text.head? = some (byte '+')
  let digits := (if signed then text.drop 1 else text).takeWhile isDigit
  if digits = [] then .error .invalidArgument
  else
    let value : ℤ := if negative then -(digitsValue digits : ℤ) else digitsValue digits
    if -2 ^ 63 ≤ value ∧ value < 2 ^ 63 then .ok value else .error .outOfRange

theorem digit_bounds {b : UInt8} (h : isDigit b = true) : 48 ≤ b.toNat ∧ b.toNat ≤ 57 := by
  simp only [isDigit, Bool.and_eq_true, decide_eq_true_eq, UInt8.le_iff_toNat_le] at h
  exact h

/-- The number of a literal, which is a minus sign at most and digits. -/
theorem stoll_digits (minus : Bool) {token : Bytes} (hne : token ≠ [])
    (hdigits : ∀ b ∈ token, isDigit b = true) :
    stoll ((if minus then bytes "-" else []) ++ token) =
      let value : ℤ := if minus then -(digitsValue token : ℤ) else digitsValue token
      if -2 ^ 63 ≤ value ∧ value < 2 ^ 63 then .ok value else .error .outOfRange := by
  have htake : token.takeWhile isDigit = token := List.takeWhile_eq_self_iff.mpr hdigits
  cases minus with
  | true =>
      have hdrop : (bytes "-" ++ token).dropWhile
          (fun b => b = 32 || (9 ≤ b && b ≤ 13)) = byte '-' :: token := rfl
      simp only [stoll, if_true, hdrop]
      simp [htake, hne]
  | false =>
      obtain ⟨b, rest, rfl⟩ := List.exists_cons_of_ne_nil hne
      have hb := digit_bounds (hdigits b List.mem_cons_self)
      have hspace : (decide (b = 32) || (decide (9 ≤ b) && decide (b ≤ 13))) = false := by
        simp only [UInt8.le_iff_toNat_le, ← UInt8.toNat_inj, Bool.or_eq_false_iff,
          Bool.and_eq_false_iff, decide_eq_false_iff_not]
        have h32 : (32 : UInt8).toNat = 32 := rfl
        have h13 : (13 : UInt8).toNat = 13 := rfl
        omega
      have hminus : b ≠ byte '-' := by
        rintro rfl
        exact absurd hb.1 (by decide)
      have hplus : b ≠ byte '+' := by
        rintro rfl
        exact absurd hb.1 (by decide)
      have hdrop : (b :: rest).dropWhile (fun b => b = 32 || (9 ≤ b && b ≤ 13)) = b :: rest :=
        List.dropWhile_cons_of_neg (by rw [hspace]; exact Bool.false_ne_true)
      simp only [stoll, Bool.false_eq_true, if_false, List.nil_append, hdrop]
      simp [htake, hminus, hplus]

def normalizeOp (op : Bytes) : Bytes :=
  (op.filter fun b => b ≠ 32).map fun b =>
    if byte 'a' ≤ b && b ≤ byte 'z' then b - 32 else b

def MulDivOp.text : MulDivOp → Bytes
  | .star => bytes "*"
  | .slash => bytes "/"

def AddSubOp.text : AddSubOp → Bytes
  | .plus => bytes "+"
  | .minus => bytes "-"

def NotOp.text : NotOp → Bytes
  | .keyword => bytes "NOT"
  | .tilde => bytes "~"
  | .exclamation => bytes "!"

def CmpOp.text : CmpOp → Bytes
  | .equal => bytes "="
  | .doubleEqual => bytes "=="
  | .less => bytes "<"
  | .greater => bytes ">"
  | .lessEqual => bytes "<="
  | .greaterEqual => bytes ">="
  | .notEqual => bytes "!="
  | .lessGreater => bytes "<>"

def IsNullOp.text (op : IsNullOp) : Bytes :=
  bytes "IS" ++ (if op.notKw then bytes "NOT" else []) ++ bytes "NULL"

def LikeOp.text (op : LikeOp) : Bytes :=
  (if op.notKw then bytes "NOT" else []) ++
    match op.kw with
    | .like => bytes "LIKE"
    | .ilike => bytes "ILIKE"

def opMap : List (Bytes × ColumnOperation) :=
  [(bytes "+", .ADD), (bytes "-", .SUB), (bytes "*", .MUL), (bytes "/", .DIV),
    (bytes "|", .OR), (bytes "||", .OR), (bytes "OR", .OR),
    (bytes "&", .AND), (bytes "&&", .AND), (bytes "AND", .AND),
    (bytes "^", .XOR), (bytes "XOR", .XOR),
    (bytes "~", .NOT), (bytes "!", .NOT), (bytes "NOT", .NOT),
    (bytes "!=", .NEQ), (bytes "<>", .NEQ), (bytes "<=", .LTE), (bytes ">=", .GTE),
    (bytes "<", .LT), (bytes ">", .GT), (bytes "=", .EQ), (bytes "==", .EQ),
    (bytes "IN", .IN), (bytes "NOTIN", .NOT_IN),
    (bytes "LIKE", .LIKE), (bytes "NOTLIKE", .NOT_LIKE),
    (bytes "ILIKE", .ILIKE), (bytes "NOTILIKE", .NOT_ILIKE),
    (bytes "ISNULL", .IS_NULL), (bytes "ISNOTNULL", .IS_NOT_NULL),
    (bytes "NULL", .NULL_), (bytes "TRUE", .TRUE), (bytes "FALSE", .FALSE)]

end Parse

end DistStorage
