import Polish.Integer

/-
  Integer literals — decimal texts of values

  A literal is an optional `-` and one or more decimal digits, with any number
  of leading zeros. It is read exactly: a literal outside the 64-bit range is an
  error, never a wrapped number.

  Correspondence (dendron ↔ Lean):
    `IsInteger` ↔ `isLiteral`
    `Parse`     ↔ `read`
    `Format`    ↔ `write`
-/

namespace Polish

/-- Why a text is not the literal of a value. -/
inductive LiteralError where
  | notInteger
  | outOfRange
  deriving DecidableEq, Repr

def LiteralError.message : LiteralError → Text
  | .notInteger => ascii "value: not an integer literal"
  | .outOfRange => ascii "value: integer literal out of range"

namespace Literal

/-- Whether the text is a non-empty run of digits. -/
def isNumeral (t : Text) : Bool := !t.isEmpty && t.all Text.isDigit

def isLiteral : Text → Bool
  | [] => false
  | b :: rest => if b = 45 then isNumeral rest else isNumeral (b :: rest)

/-- The integer that a text of the shape of a literal spells. -/
def spelled : Text → Int
  | [] => 0
  | b :: rest =>
    if b = 45 then -(Text.ofDigits rest : Int) else (Text.ofDigits (b :: rest) : Int)

def read (t : Text) : Except LiteralError Int64 :=
  if isLiteral t then
    let n := spelled t
    if Int64.minValue.toInt ≤ n ∧ n ≤ Int64.maxValue.toInt then .ok (Int64.ofInt n)
    else .error .outOfRange
  else .error .notInteger

/-- Writes a value as a literal, without leading zeros. -/
def write (v : Int64) : Text := Text.decimalInt v.toInt

end Literal

end Polish
