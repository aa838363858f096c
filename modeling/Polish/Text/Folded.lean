import Polish.Text.Rune

/-
  Folding case — for comparing a word with a fixed ASCII word

  Every character whose lower case is an ASCII letter is replaced by that
  letter. Besides the ASCII capitals these are the dotted capital I and the
  Kelvin sign. All other characters are left alone, so a folded text is equal to
  an ASCII word in lower case exactly when the lower case of the text is.
-/

namespace Polish.Text

def Rune.folded (r : Rune) : Text :=
  match r.code with
  | some code =>
    if 65 ≤ code && code ≤ 90 then [(code + 32).toUInt8]
    else if code = 0x130 then [105]
    else if code = 0x212A then [107]
    else r.bytes
  | none => r.bytes

def folded (t : Text) : Text := (runes t).flatMap Rune.folded

end Polish.Text
