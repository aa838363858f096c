/-
  Text — byte sequences and their decimal and hexadecimal spellings

  A text is a list of bytes. Most texts are UTF-8, but a source file or an
  input line may hold any bytes at all, and offsets and lengths count bytes,
  so nothing below asks for more than that.

  Contents:
    1. `Text` and `ascii`, the bytes of a literal.
    2. `decimal` and `decimalInt`, a number with as few digits as it takes.
    3. `joinWith`, texts with a separator between them.
-/

namespace Polish

/-- A text is a sequence of bytes. -/
abbrev Text := List UInt8

/-- The bytes of an ASCII literal. -/
def ascii (s : String) : Text := s.toList.map Char.toUInt8

namespace Text

/-- The byte `'\n'`, which ends a line. -/
def newline : UInt8 := 10

def carriageReturn : UInt8 := 13

/-- The byte of the decimal digit `d`, for `d < 10`. -/
def digit (d : Nat) : UInt8 := 48 + d.toUInt8

def isDigit (b : UInt8) : Bool := 48 ≤ b && b ≤ 57

def isLetter (b : UInt8) : Bool := (97 ≤ b && b ≤ 122) || (65 ≤ b && b ≤ 90)

/-- A natural number in decimal, without leading zeros. -/
def decimal (n : Nat) : Text :=
  if n < 10 then [digit n] else decimal (n / 10) ++ [digit (n % 10)]
termination_by n

/-- An integer in decimal: a `-` in front of a negative one. -/
def decimalInt (n : Int) : Text :=
  if n < 0 then 45 :: decimal n.natAbs else decimal n.natAbs

/-- The number that a run of decimal digits spells, most significant digit first. -/
def ofDigits (t : Text) : Nat :=
  t.foldl (fun n b => 10 * n + (b.toNat - 48)) 0

/-- The lower-case hexadecimal digit `d`, for `d < 16`. -/
def hexDigit (d : Nat) : UInt8 := if d < 10 then digit d else (87 + d).toUInt8

/-- The lowest `width` hexadecimal digits of `n`, most significant first. -/
def hex (width n : Nat) : Text :=
  ((List.range width).map fun i => hexDigit (n >>> (4 * i) % 16)).reverse

/-- The texts one after the other, with `separator` between neighbours. -/
def joinWith (separator : Text) (parts : List Text) : Text := List.intercalate separator parts

def unlines (parts : List Text) : Text := parts.flatMap fun part => part ++ [newline]

end Text

end Polish
