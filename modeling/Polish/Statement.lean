import Polish.Diagnostic
import Polish.Token.Scanner

/-
  Statements — the tokens of one line

  A program is a sequence of statements, one for each line that holds a token.
  A statement knows its line, so that a diagnostic can name it; the line of a
  statement that was typed rather than read from a file is set by whoever
  numbers the lines.

  Correspondence (dendron ↔ Lean):
    `Split`        ↔ `ofSource`
    `SplitLines`   ↔ `ofLines`
    `NewStatement` ↔ `ofText`
    `Text`         ↔ `Token.text`
    `String`       ↔ `text`
    `Errorf`       ↔ `diagnostic`
-/

namespace Polish

/-- The tokens of one line. A line that is not positive is unknown. -/
structure Statement where
  line : Int
  tokens : List Token
  deriving DecidableEq, Repr

namespace Statement

/-- The words of the statement with single spaces between them. -/
def text (st : Statement) : Text := Text.joinWith [32] (st.tokens.map Token.text)

/-- All tokens of a text as one statement, on line one. -/
def ofText (source : Text) : Statement := ⟨1, tokenize source⟩

/-- A run of tokens as a statement on the line of the first one. -/
def ofRun? (run : List Token) : Option Statement :=
  run.head?.map fun first => ⟨first.line.toNat, run⟩

/-- The statements that tokens make up, one for each run of tokens on one line. -/
def ofTokens (tokens : List Token) : List Statement :=
  (tokens.splitBy fun a b => a.line == b.line).filterMap ofRun?

/-- The statements of a source text, one for each line that holds a token. -/
def ofSource (source : Text) : List Statement := ofTokens (tokenize source)

/-- One statement for each text that holds a token, numbered by its place in
the list. -/
def ofLines (lines : List Text) : List Statement :=
  (lines.zipIdx 1).filterMap fun (source, number) =>
    let tokens := tokenize source
    if tokens.isEmpty then none else some ⟨number, tokens⟩

/-- A diagnostic about the statement, at a token of it if one is given. -/
def diagnostic (st : Statement) (kind : Kind) (token : Option Token) (message : Text) :
    Diagnostic :=
  { kind, message, line := st.line, statement := st.text,
    token := (token.map Token.text).getD [] }

end Statement

end Polish
