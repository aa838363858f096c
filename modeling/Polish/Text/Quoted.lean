import Polish.Text.Rune
import Polish.Text.Printable

/-
  Quoted texts — any bytes on one readable line

  A quoted text stands between double quotes. Printable characters are shown as
  they are, a quote and a backslash after a backslash, the seven control
  characters that have a letter by it, and all else by its number in hexadecimal:
  two digits after `\x` for an ASCII control and for a byte that is no
  character, four after `\u` or eight after `\U` for other characters.
-/

namespace Polish.Text

/-- The letter that names a control character after a backslash. -/
def controlLetter (code : Nat) : Option UInt8 :=
  match code with
  | 7 => some 97
  | 8 => some 98
  | 9 => some 116
  | 10 => some 110
  | 11 => some 118
  | 12 => some 102
  | 13 => some 114
  | _ => none

def Rune.quoted (r : Rune) : Text :=
  match r.code with
  | none => r.bytes.flatMap fun b => ascii "\\x" ++ hex 2 b.toNat
  | some code =>
    if code = 34 ∨ code = 92 then 92 :: r.bytes
    else if isPrintableCode code then r.bytes
    else match controlLetter code with
      | some letter => [92, letter]
      | none =>
        if code < 0x80 then ascii "\\x" ++ hex 2 code
        else if code < 0x10000 then ascii "\\u" ++ hex 4 code
        else ascii "\\U" ++ hex 8 code

def quoted (t : Text) : Text := 34 :: ((runes t).flatMap Rune.quoted ++ [34])

end Polish.Text
