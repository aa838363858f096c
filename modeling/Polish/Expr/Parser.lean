import Polish.Expr
import Polish.Statement

/-
  Parsing — tokens to commands

  A command is `:=`, a name and an expression, or `@` and an expression. An
  expression is written in prefix order: a number, a name, or an operator and
  its operands. Parsing reads the tokens once from the left and stops at the
  first one that cannot be right. It does not ask whether names have values.

  Correspondence (dendron ↔ Lean):
    `parseExpr`      ↔ `parseExpr`
    `ParseStatement` ↔ `parseCommand`, `Statement.parse`
    `Parse`          ↔ `Statement.parseAll`
-/

namespace Polish

/-- Why tokens are no command, with the token at fault. -/
inductive GrammarError where
  | emptyStatement
  | missingTarget
  | targetNotName (token : Token)
  | unknownKeyword (token : Token)
  | unexpectedToken (token : Token)
  | missingOperand
  | outOfRange (token : Token)
  | malformedNumber (token : Token)
  | notOperand (token : Token)
  deriving DecidableEq, Repr

namespace GrammarError

def kind : GrammarError → Kind
  | .emptyStatement | .missingTarget | .missingOperand | .unexpectedToken _ => .arityMismatch
  | .unknownKeyword _ => .unknownStatement
  | .targetNotName _ | .outOfRange _ | .malformedNumber _ | .notOperand _ => .illegalValue

/-- The token at fault; none where the statement ends too early. -/
def token? : GrammarError → Option Token
  | .emptyStatement | .missingTarget | .missingOperand => none
  | .targetNotName t | .unknownKeyword t | .unexpectedToken t | .outOfRange t
  | .malformedNumber t | .notOperand t => some t

def message : GrammarError → Text
  | .emptyStatement => ascii "empty statement"
  | .missingTarget => ascii "assignment has no target"
  | .targetNotName _ => ascii "assignment target is not a name"
  | .unknownKeyword _ => ascii "statement must start with := or @"
  | .unexpectedToken _ => ascii "unexpected token after expression"
  | .missingOperand => ascii "missing operand"
  | .outOfRange _ => ascii "integer out of range"
  | .malformedNumber _ => ascii "malformed integer"
  | .notOperand _ => ascii "expected a number, a name or an operator"

def diagnostic (st : Statement) (e : GrammarError) : Diagnostic :=
  st.diagnostic e.kind e.token? e.message

end GrammarError

/-- What is left of `tokens` after something was read from it. -/
abbrev Shorter (tokens : List Token) := { rest : List Token // rest.length < tokens.length }

/-- Reads one expression from the front of the tokens. -/
def parseExpr (tokens : List Token) :
    Except GrammarError (Expr Token × Shorter tokens) :=
  match tokens with
  | [] => .error .missingOperand
  | t :: rest =>
    match t.kind with
    | .number =>
      match Literal.read t.text with
      | .ok value => .ok (.number t value, ⟨rest, by simp⟩)
      | .error .outOfRange => .error (.outOfRange t)
      | .error .notInteger => .error (.malformedNumber t)
    | .name => .ok (.name t t.text, ⟨rest, by simp⟩)
    | .unary op =>
      match parseExpr rest with
      | .error e => .error e
      | .ok (operand, ⟨rest₁, h₁⟩) =>
        .ok (.unary t op operand, ⟨rest₁, by simp only [List.length_cons]; omega⟩)
    | .binary op =>
      match parseExpr rest with
      | .error e => .error e
      | .ok (left, ⟨rest₁, h₁⟩) =>
        match parseExpr rest₁ with
        | .error e => .error e
        | .ok (right, ⟨rest₂, h₂⟩) =>
          .ok (.binary t op left right, ⟨rest₂, by simp only [List.length_cons]; omega⟩)
    | .finish | .unknown | .assign | .print => .error (.notOperand t)
termination_by tokens.length

/-- Reads an expression that takes up all the tokens. -/
def parseWholeExpr (tokens : List Token) : Except GrammarError (Expr Token) :=
  match parseExpr tokens with
  | .error e => .error e
  | .ok (e, ⟨[], _⟩) => .ok e
  | .ok (_, ⟨extra :: _, _⟩) => .error (.unexpectedToken extra)

/-- Reads a command that takes up all the tokens. -/
def parseCommand : List Token → Except GrammarError (Command Token)
  | [] => .error .emptyStatement
  | keyword :: rest =>
    match keyword.kind with
    | .assign =>
      match rest with
      | [] => .error .missingTarget
      | target :: rest =>
        match target.kind with
        | .name => (parseWholeExpr rest).map (.assign keyword target target.text)
        | _ => .error (.targetNotName target)
    | .print => (parseWholeExpr rest).map (.print keyword)
    | _ => .error (.unknownKeyword keyword)

namespace Statement

def parse (st : Statement) : Except Diagnostic (Command Token) :=
  (parseCommand st.tokens).mapError (GrammarError.diagnostic st)

/-- The commands of statements, up to the first that has none. -/
def parseAll (program : List Statement) : Except Diagnostic (List (Command Token)) :=
  program.mapM parse

end Statement

end Polish
