import Polish.Session.Conversation
import Polish.Text.Piece

/-
  Histories — an editor for input that is no terminal

  A line ends at a newline or where the reader's width ends. The history holds at most
  1000 entries, and a line that repeats the entry before it is not added. A stored
  history is read up to the first line that is too wide for the reader or is not UTF-8.
-/

namespace Polish

/-- The lines typed before, oldest first. -/
structure History where
  entries : List Text := []
  deriving DecidableEq, Repr

namespace History

def limit : Nat := 1000

/-- The newest entries, as many as a history holds. -/
def newest (entries : List Text) : List Text := entries.drop (entries.length - limit)

/-- Adds an entry, unless it repeats the last one. -/
def add (h : History) (line : Text) : History :=
  if h.entries.getLast? = some line then h else ⟨newest (h.entries ++ [line])⟩

def ofText (t : Text) : History :=
  let usable := (Text.pieces t).takeWhile fun piece => !piece.goesOn && Text.isUtf8 piece.text
  ⟨newest (usable.map Text.Piece.text)⟩

/-- The history as it is stored: one entry a line. -/
def text (h : History) : Text := Text.unlines h.entries

end History

/-- The editor for input that is no terminal. -/
def Editor.plain : Editor History where
  prompts input := (Text.pieces input).map fun piece => .line piece.text
  shown prompt := prompt
  new := {}
  restore := History.ofText
  add := History.add
  store := History.text

end Polish
