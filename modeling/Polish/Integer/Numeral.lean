import Polish.Integer

/-
  Numerals — integers as they are given on the command line

  A numeral is an optional sign and digits. The digits are decimal, or binary,
  octal or hexadecimal after `0b`, `0o` or `0x`, or octal after a mere `0`.
  Single underscores may stand between digits, and between a prefix and the
  digits after it. The digits are read from the left, and a numeral that grows
  past 64 bits is out of range whatever follows.
-/

namespace Polish

/-- Why a text is no numeral of a 64-bit integer. -/
inductive NumeralError where
  | malformed
  | outOfRange
  deriving DecidableEq, Repr

def NumeralError.message : NumeralError → Text
  | .malformed => ascii "parse error"
  | .outOfRange => ascii "value out of range"

namespace Numeral

def underscore : UInt8 := 95

/-- A letter in lower case; other bytes of a numeral are not changed. -/
def lower (b : UInt8) : UInt8 := if 65 ≤ b && b ≤ 90 then b + 32 else b

/-- The value of a digit, where letters count from ten. -/
def digitValue? (b : UInt8) : Option Nat :=
  if Text.isDigit b then some (b.toNat - 48)
  else if Text.isLetter b then some ((lower b).toNat - 87)
  else none

/-- The base that the letter after a zero announces. -/
def baseOf? (b : UInt8) : Option Nat :=
  if lower b = 98 then some 2
  else if lower b = 111 then some 8
  else if lower b = 120 then some 16
  else none

/-- The base of a numeral without its sign, and its digits. -/
def split : Text → Nat × Text
  | 48 :: b :: c :: rest =>
    match baseOf? b with
    | some base => (base, c :: rest)
    | none => (8, b :: c :: rest)
  | 48 :: rest => (8, rest)
  | t => (10, t)

/-- Reads digits in a base, underscores aside, after a number already read. -/
def readDigits (base : Nat) (number : Nat) : Text → Except NumeralError Nat
  | [] => .ok number
  | b :: rest =>
    if b = underscore then readDigits base number rest
    else match digitValue? b with
      | none => .error .malformed
      | some d =>
        if base ≤ d then .error .malformed
        else if UInt64.size ≤ number * base + d then .error .outOfRange
        else readDigits base (number * base + d) rest

/-- What stands before an underscore or after it. -/
inductive Neighbour where
  | nothing
  | digit
  | underscore
  | other
  deriving DecidableEq, Repr

/-- Whether every underscore has a digit on both sides, after `before`. -/
def wellSeparated (hexadecimal : Bool) (before : Neighbour) : Text → Bool
  | [] => before != .underscore
  | b :: rest =>
    if Text.isDigit b || (hexadecimal && 97 ≤ lower b && lower b ≤ 102) then
      wellSeparated hexadecimal .digit rest
    else if b = underscore then before == .digit && wellSeparated hexadecimal .underscore rest
    else before != .underscore && wellSeparated hexadecimal .other rest

/-- Whether the underscores of a numeral without its sign stand where they may.
A prefix counts as a digit. -/
def underscoresFit : Text → Bool
  | 48 :: b :: rest =>
    match baseOf? b with
    | some base => wellSeparated (base == 16) .digit rest
    | none => wellSeparated false .nothing (48 :: b :: rest)
  | t => wellSeparated false .nothing t

def readMagnitude (t : Text) : Except NumeralError Nat :=
  if t.isEmpty then .error .malformed
  else
    let (base, digits) := split t
    match readDigits base 0 digits with
    | .error e => .error e
    | .ok n => if digits.contains underscore && !underscoresFit t then .error .malformed else .ok n

/-- The sign of a numeral, true for `-`, and what follows it. -/
def signed : Text → Bool × Text
  | 43 :: rest => (false, rest)
  | 45 :: rest => (true, rest)
  | t => (false, t)

def read (t : Text) : Except NumeralError Int64 :=
  let (negative, digits) := signed t
  match readMagnitude digits with
  | .error e => .error e
  | .ok n =>
    let value : Int := if negative then -n else n
    if Int64.minValue.toInt ≤ value ∧ value ≤ Int64.maxValue.toInt then .ok (Int64.ofInt value)
    else .error .outOfRange

end Numeral

end Polish
