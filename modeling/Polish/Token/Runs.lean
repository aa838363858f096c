import Polish.Token.Scanner

/-
  Runs — long sources that are not written out

  A text is given by its runs of equal bytes. All bytes of a run are space, or none
  is, so a scanner passes over a run in one step and takes a word in whole runs. The
  tokens are those of the text that the runs stand for.
-/

namespace Polish

/-- A byte, a number of times, and at least once. -/
structure Run where
  byte : UInt8
  count : Nat
  pos : 0 < count := by decide
  deriving DecidableEq, Repr

/-- A text as runs of equal bytes. Neighbouring runs may have the same byte. -/
abbrev Runs := List Run

namespace Runs

def text (runs : Runs) : Text := runs.flatMap fun run => List.replicate run.count run.byte

def ofText (t : Text) : Runs := t.map fun b => { byte := b, count := 1 }

def size : Runs → Nat
  | [] => 0
  | run :: rest => run.count + size rest

def take : Nat → Runs → Runs
  | 0, _ | _ + 1, [] => []
  | k + 1, run :: rest =>
    if k < run.count then [⟨run.byte, k + 1, Nat.succ_pos k⟩]
    else run :: take (k + 1 - run.count) rest

def drop : Nat → Runs → Runs
  | _, [] => []
  | k, run :: rest =>
    if h : k < run.count then ⟨run.byte, run.count - k, Nat.sub_pos_of_lt h⟩ :: rest
    else drop (k - run.count) rest

/-- The bytes at the place of a lexeme. -/
def slice (source : Runs) (l : Lexeme) : Text :=
  ((source.take (l.offset + l.length).toNat).drop l.offset.toNat).text

/-- The runs still to be read, the number of bytes read, and the line. -/
structure Cursor where
  rest : Runs
  offset : Nat := 0
  line : Nat := 1
  deriving DecidableEq, Repr

namespace Cursor

/-- Passes over space, and over the rest of the line inside a comment. -/
def skipFrom (inComment : Bool) (offset line : Nat) : Runs → Cursor
  | [] => ⟨[], offset, line⟩
  | run :: rest =>
    if run.byte = Text.newline then
      skipFrom false (offset + run.count) (line + run.count) rest
    else if inComment || Scanner.isSpace run.byte then
      skipFrom inComment (offset + run.count) line rest
    else if run.byte = Scanner.commentMark then
      skipFrom true (offset + run.count) line rest
    else ⟨run :: rest, offset, line⟩

/-- The next word, and the cursor after it. -/
def nextWord (c : Cursor) : Word × Cursor :=
  let here := skipFrom false c.offset c.line c.rest
  let word : Runs := here.rest.takeWhile fun run => !Scanner.isSpace run.byte
  (⟨word.text, here.offset, here.line⟩,
    ⟨here.rest.dropWhile fun run => !Scanner.isSpace run.byte, here.offset + word.size,
      here.line⟩)

theorem length_skipFrom (inComment : Bool) (offset line : Nat) (runs : Runs) :
    (skipFrom inComment offset line runs).rest.length ≤ runs.length := by
  induction runs generalizing inComment offset line with
  | nil => simp [skipFrom]
  | cons run rest ih =>
    unfold skipFrom
    split
    · exact Nat.le_succ_of_le (ih ..)
    · split
      · exact Nat.le_succ_of_le (ih ..)
      · split
        · exact Nat.le_succ_of_le (ih ..)
        · exact Nat.le_refl _

theorem length_nextWord {c : Cursor} (h : c.nextWord.1.text ≠ []) :
    c.nextWord.2.rest.length < c.rest.length := by
  have hskip := length_skipFrom false c.offset c.line c.rest
  have hspan := congrArg List.length (List.takeWhile_append_dropWhile
    (p := fun run : Run => !Scanner.isSpace run.byte)
    (l := (skipFrom false c.offset c.line c.rest).rest))
  rw [List.length_append] at hspan
  have hword : 0 < ((skipFrom false c.offset c.line c.rest).rest.takeWhile
      fun run => !Scanner.isSpace run.byte).length := by
    rw [List.length_pos_iff]
    intro hnil
    exact h (by simp [nextWord, hnil, text])
  simp only [nextWord]
  omega

/-- The words up to the end. -/
def words (c : Cursor) : List Word :=
  match _ : c.nextWord with
  | (word, after) => if _ : word.text = [] then [] else word :: after.words
termination_by c.rest.length
decreasing_by
  rename_i hnext hend
  have hlength := length_nextWord (c := c) (by rw [hnext]; exact hend)
  rwa [hnext] at hlength

end Cursor

/-- The tokens of the text that the runs stand for. -/
def tokenize (source : Runs) : List Token :=
  (Cursor.mk source 0 1).words.map fun word => ⟨word.lexeme, source.slice word.lexeme⟩

end Runs

end Polish
