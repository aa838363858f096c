import Polish.Text

/-
  Runes — the characters of a text, with the bytes that are none

  A text is read from the left. Where a well-formed UTF-8 character starts, the
  rune is that character; where none starts, the rune is the one byte that
  stands there. Surrogates and overlong forms are not well formed. The bytes of
  the runes, one after the other, are the text again.
-/

namespace Polish.Text

/-- One step of reading a text: the bytes taken, and the character they spell
if they spell one. -/
structure Rune where
  bytes : Text
  code : Option Nat
  deriving DecidableEq, Repr

/-- What a leading byte announces: how many bytes follow it, and the range of
the first of them. -/
def announced (b : UInt8) : Option (Nat × UInt8 × UInt8) :=
  if b < 0xC2 then none
  else if b ≤ 0xDF then some (1, 0x80, 0xBF)
  else if b = 0xE0 then some (2, 0xA0, 0xBF)
  else if b = 0xED then some (2, 0x80, 0x9F)
  else if b ≤ 0xEF then some (2, 0x80, 0xBF)
  else if b = 0xF0 then some (3, 0x90, 0xBF)
  else if b ≤ 0xF3 then some (3, 0x80, 0xBF)
  else if b = 0xF4 then some (3, 0x80, 0x8F)
  else none

/-- Whether a byte may follow a leading byte. -/
def isTrailing (b : UInt8) : Bool := 0x80 ≤ b && b ≤ 0xBF

/-- The character number spelled by a leading byte and the bytes after it: the
low bits of each, six for every byte that follows. -/
def characterNumber (first : UInt8) (rest : Text) : Nat :=
  rest.foldl (fun n b => 64 * n + b.toNat % 64) (first.toNat % (64 >>> rest.length))

/-- The rune at the front of the text `b :: rest`. -/
def frontRune (b : UInt8) (rest : Text) : Rune :=
  if b < 0x80 then ⟨[b], some b.toNat⟩
  else match announced b with
    | none => ⟨[b], none⟩
    | some (n, low, high) =>
      let tail := rest.take n
      if tail.length = n && tail.all isTrailing
          && (tail.head?.any fun c => low ≤ c && c ≤ high) then
        ⟨b :: tail, some (characterNumber b tail)⟩
      else ⟨[b], none⟩

/-- The runes of a text, after those already read. -/
def runesOnto (read : Array Rune) : Text → Array Rune
  | [] => read
  | b :: rest =>
    let rune := frontRune b rest
    runesOnto (read.push rune) (rest.drop (rune.bytes.length - 1))
termination_by t => t.length
decreasing_by simp only [List.length_drop, List.length_cons]; omega

def runes (t : Text) : List Rune := (runesOnto #[] t).toList

def ofRunes (rs : List Rune) : Text := rs.flatMap Rune.bytes

def isUtf8 (t : Text) : Bool := (runes t).all fun r => r.code.isSome

end Polish.Text
