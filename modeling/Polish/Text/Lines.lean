import Polish.Text

/-
  Lines — texts cut at newlines

  A line ends at a newline or at the end of the text; an empty rest after the
  last newline is no line. A carriage return right before the newline belongs to
  the line's end.
-/

namespace Polish.Text

/-- The pieces between newlines. An empty last piece is dropped. -/
def lines (t : Text) : List Text :=
  let pieces := t.splitOn newline
  if pieces.getLast? = some [] then pieces.dropLast else pieces

/-- The text without one carriage return at its end. -/
def chomp (t : Text) : Text := if t.getLast? = some carriageReturn then t.dropLast else t

end Polish.Text
