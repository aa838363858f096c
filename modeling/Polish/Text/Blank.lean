import Polish.Text.Rune

/-
  Blanks — white space, trimming and fields

  White space is the Unicode property of that name. It is a property of
  characters, so a lone byte 0x85 or 0xA0, which is no character, is not blank.
-/

namespace Polish.Text

/-- The white-space characters. -/
def isBlankCode (c : Nat) : Bool :=
  (0x09 ≤ c && c ≤ 0x0D) || c == 0x20 || c == 0x85 || c == 0xA0 || c == 0x1680
    || (0x2000 ≤ c && c ≤ 0x200A) || c == 0x2028 || c == 0x2029 || c == 0x202F
    || c == 0x205F || c == 0x3000

def Rune.isBlank (r : Rune) : Bool := r.code.any isBlankCode

def trim (t : Text) : Text :=
  let front := (runes t).dropWhile Rune.isBlank
  ofRunes (front.reverse.dropWhile Rune.isBlank).reverse

/-- The maximal runs of runes that are not blank. -/
def fields (t : Text) : List Text :=
  (((runes t).splitOnP Rune.isBlank).map ofRunes).filter fun field => !field.isEmpty

end Polish.Text
