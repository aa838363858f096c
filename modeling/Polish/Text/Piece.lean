import Polish.Text.Lines

/-
  Pieces — lines as a reader of limited width sees them

  The reader looks at 4096 bytes at a time. A line that ends within them is read
  whole, without its newline and a carriage return before it. Of a longer line
  it reads the bytes it sees and comes back for the rest, except that it leaves
  a carriage return at the end of them for the next time, since a newline may
  follow it.
-/

namespace Polish.Text

/-- How many bytes the reader sees. -/
def pieceWidth : Nat := 4096

/-- What one look yields, whether the line goes on after it, and what is left. -/
structure Piece where
  text : Text
  goesOn : Bool
  rest : Text
  deriving DecidableEq, Repr

/-- The first piece of a text that is not empty. -/
def firstPiece (t : Text) : Piece :=
  let seen := t.take pieceWidth
  let front := seen.takeWhile fun b => b != newline
  if front.length < seen.length then ⟨chomp front, false, t.drop (front.length + 1)⟩
  else if seen.length < pieceWidth then ⟨seen, false, []⟩
  else if seen.getLast? = some carriageReturn then
    ⟨seen.dropLast, true, t.drop (pieceWidth - 1)⟩
  else ⟨seen, true, t.drop pieceWidth⟩

theorem length_rest_firstPiece {t : Text} (h : t ≠ []) :
    (firstPiece t).rest.length < t.length := by
  have hpos := List.length_pos_iff.mpr h
  unfold firstPiece
  extract_lets seen front
  by_cases h₁ : front.length < seen.length
  · rw [if_pos h₁, List.length_drop]
    omega
  · rw [if_neg h₁]
    by_cases h₂ : seen.length < pieceWidth
    · rw [if_pos h₂]
      exact hpos
    · rw [if_neg h₂]
      by_cases h₃ : seen.getLast? = some carriageReturn
      · rw [if_pos h₃, List.length_drop, pieceWidth]
        omega
      · rw [if_neg h₃, List.length_drop, pieceWidth]
        omega

/-- The pieces of a text, after those already read. -/
def piecesOnto (read : Array Piece) (t : Text) : Array Piece :=
  if _ : t = [] then read
  else
    let piece := firstPiece t
    piecesOnto (read.push piece) piece.rest
termination_by t.length
decreasing_by exact length_rest_firstPiece (by assumption)

def pieces (t : Text) : List Piece := (piecesOnto #[] t).toList

end Polish.Text
