import Polish.Token

/-
  Scanning — source text to tokens

  Words stand between spaces, tabs, carriage returns and newlines. A word that
  would start with `;` starts a comment instead, which runs up to the end of the
  line. A scanner holds what is still to be read and the place where it stands;
  at the end of the text it keeps returning the same empty word.

  Correspondence (dendron ↔ Lean):
    `NewScanner`                    ↔ `ofText`
    `skipWhitespace`, `skipComment` ↔ `skipFrom`, `skip`
    `Next`                          ↔ `next`
-/

namespace Polish

/-- The text still to be read, the number of bytes read, and the line. -/
structure Scanner where
  rest : Text
  offset : Nat := 0
  line : Nat := 1
  deriving DecidableEq, Repr

namespace Scanner

/-- Whether a byte stands between words. -/
def isSpace (b : UInt8) : Bool := b == 32 || b == 9 || b == 13 || b == 10

/-- The byte `;`, which starts a comment. -/
def commentMark : UInt8 := 59

def ofText (source : Text) : Scanner := ⟨source, 0, 1⟩

/-- Passes over space, and over the rest of the line inside a comment. -/
def skipFrom (inComment : Bool) (offset line : Nat) : Text → Scanner
  | [] => ⟨[], offset, line⟩
  | b :: rest =>
    if b = Text.newline then skipFrom false (offset + 1) (line + 1) rest
    else if inComment || isSpace b then skipFrom inComment (offset + 1) line rest
    else if b = commentMark then skipFrom true (offset + 1) line rest
    else ⟨b :: rest, offset, line⟩

/-- The scanner at the next word, or at the end of the text. -/
def skip (s : Scanner) : Scanner := skipFrom false s.offset s.line s.rest

def nextWord (s : Scanner) : Word × Scanner :=
  let here := s.skip
  let word := here.rest.takeWhile fun b => !isSpace b
  (⟨word, here.offset, here.line⟩,
    ⟨here.rest.dropWhile fun b => !isSpace b, here.offset + word.length, here.line⟩)

/-- The next word as its lexeme, and the scanner after it. -/
def next (s : Scanner) : Lexeme × Scanner :=
  let (word, after) := s.nextWord
  (word.lexeme, after)

theorem length_skipFrom (inComment : Bool) (offset line : Nat) (t : Text) :
    (skipFrom inComment offset line t).rest.length ≤ t.length := by
  induction t generalizing inComment offset line with
  | nil => simp [skipFrom]
  | cons b rest ih =>
    unfold skipFrom
    split
    · exact Nat.le_succ_of_le (ih ..)
    · split
      · exact Nat.le_succ_of_le (ih ..)
      · split
        · exact Nat.le_succ_of_le (ih ..)
        · exact Nat.le_refl _

theorem length_nextWord (s : Scanner) :
    s.nextWord.1.text.length + s.nextWord.2.rest.length ≤ s.rest.length := by
  have h := congrArg List.length
    (List.takeWhile_append_dropWhile (p := fun b => !isSpace b) (l := s.skip.rest))
  rw [List.length_append] at h
  have := length_skipFrom false s.offset s.line s.rest
  simp only [nextWord]
  rw [h]
  exact this

/-- The words up to the end, after those already read, and the scanner there. -/
def drainOnto (read : Array Word) (s : Scanner) : Array Word × Scanner :=
  match _ : s.nextWord with
  | (word, after) =>
    if _ : word.text = [] then (read, after) else drainOnto (read.push word) after
termination_by s.rest.length
decreasing_by
  rename_i hnext hend
  have hlength := length_nextWord s
  have hword := List.length_pos_iff.mpr hend
  rw [hnext] at hlength
  simp only at hlength
  omega

/-- The words up to the end, without the empty one, and the scanner there. -/
def drain (s : Scanner) : List Word × Scanner :=
  let (read, last) := drainOnto #[] s
  (read.toList, last)

end Scanner

def words (source : Text) : List Word := (Scanner.ofText source).drain.1

/-- The tokens of a text: its words, read again at the places of their lexemes. -/
def tokenize (source : Text) : List Token :=
  let bytes := source.toArray
  (words source).map fun word => ⟨word.lexeme, word.lexeme.slice bytes⟩

end Polish
