import Polish.Expr.Parser

/-
  Outlines — commands in infix form, for people

  An outline is what is shown of an expression: numbers, names, operators by
  their labels, and holes where something is missing. Every binary operation
  stands in parentheses, so the text says how the operands belong together. A
  negation is written in front of what cannot be mistaken for a part of it:
  a name, a root, a number that is not negative, or a parenthesis.

  Correspondence (dendron ↔ Lean):
    `Expr`, `bare` ↔ `Outline.text`, `Outline.isBare`
    `Statement`    ↔ `CommandOutline.text`
    `Infix`        ↔ `Statement.outlineAll`
    `Walk`         ↔ `Outline.nodes`
-/

namespace Polish

/-- What is shown of an expression. An operator may be of any kind, and of none. -/
inductive Outline where
  | hole
  | number (value : Int64)
  | name (name : Text)
  | unary (op : Option TokenKind) (operand : Outline)
  | binary (op : Option TokenKind) (left right : Outline)
  deriving DecidableEq, Repr

namespace Outline

def holeText : Text := ascii "<<nil>>"

/-- Whether a negation can be written directly in front. -/
def isBare : Outline → Bool
  | .hole => false
  | .number value => 0 ≤ value
  | .name _ => true
  | .unary op _ => op == some (.unary .sqrt)
  | .binary _ _ _ => true

/-- The infix text of an outline, followed by `rest`. A unary operator other
than the root is shown as a negation. -/
def textOnto : Outline → Text → Text
  | .hole, rest => holeText ++ rest
  | .number value, rest => Literal.write value ++ rest
  | .name word, rest => word ++ rest
  | .unary op operand, rest =>
    if op = some (.unary .sqrt) then
      ascii "sqrt(" ++ operand.textOnto (ascii ")" ++ rest)
    else if operand.isBare then
      ascii "-" ++ operand.textOnto rest
    else
      ascii "-(" ++ operand.textOnto (ascii ")" ++ rest)
  | .binary op left right, rest =>
    ascii "(" ++ left.textOnto
      (ascii " " ++ TokenKind.labelOf? op ++ ascii " " ++ right.textOnto (ascii ")" ++ rest))

def text (o : Outline) : Text := o.textOnto []

/-- The nodes in prefix order, each as the outline below it, followed by `rest`. -/
def nodesOnto : Outline → List Outline → List Outline
  | .unary op operand, rest => .unary op operand :: operand.nodesOnto rest
  | .binary op left right, rest => .binary op left right :: left.nodesOnto (right.nodesOnto rest)
  | o, rest => o :: rest

/-- The nodes in prefix order, each as the outline below it. -/
def nodes (o : Outline) : List Outline := o.nodesOnto []

end Outline

inductive CommandOutline where
  | hole
  | assign (target : Text) (value : Outline)
  | print (value : Outline)
  deriving DecidableEq, Repr

def CommandOutline.text : CommandOutline → Text
  | .hole => Outline.holeText
  | .assign target value => target ++ ascii " := " ++ value.text
  | .print value => ascii "PRINT " ++ value.text

def Expr.outline {α : Type} : Expr α → Outline
  | .number _ value => .number value
  | .name _ word => .name word
  | .unary _ op operand => .unary (some (.unary op)) operand.outline
  | .binary _ op left right => .binary (some (.binary op)) left.outline right.outline

def Command.outline {α : Type} : Command α → CommandOutline
  | .assign _ _ target value => .assign target value.outline
  | .print _ value => .print value.outline

/-- The infix form of a program, one line for each statement. -/
def Statement.outlineAll (program : List Statement) : Except Diagnostic Text :=
  (Statement.parseAll program).map fun commands =>
    Text.unlines (commands.map fun c => c.outline.text)

end Polish
