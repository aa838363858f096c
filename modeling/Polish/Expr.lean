import Polish.Token

/-
  Expressions and commands — what statements mean

  An expression is a tree of numbers, names and operators; a command assigns or
  prints the value of one. Each node carries a mark, which for a parsed tree is
  its token. `Expr.plain` and `Command.plain` forget the marks, so that trees
  can be compared without the places they came from.

  Correspondence (dendron ↔ Lean):
    `NumberLiteral`, `Identifier` ↔ `number`, `name`
    `UnaryExpr`, `BinaryExpr`     ↔ `unary`, `binary`
    `Assignment`, `Print`         ↔ `assign`, `print`
    `Pos`                         ↔ `mark`
-/

namespace Polish

/-- An expression whose nodes carry marks of type `α`. -/
inductive Expr (α : Type) where
  | number (mark : α) (value : Int64)
  | name (mark : α) (name : Text)
  | unary (mark : α) (op : UnaryOp) (operand : Expr α)
  | binary (mark : α) (op : BinaryOp) (left right : Expr α)
  deriving DecidableEq, Repr

namespace Expr

variable {α β : Type}

/-- The mark of the topmost node. -/
def mark : Expr α → α
  | .number m _ | .name m _ | .unary m _ _ | .binary m _ _ _ => m

def map (f : α → β) : Expr α → Expr β
  | .number m v => .number (f m) v
  | .name m n => .name (f m) n
  | .unary m op e => .unary (f m) op (e.map f)
  | .binary m op l r => .binary (f m) op (l.map f) (r.map f)

def plain (e : Expr α) : Expr Unit := e.map fun _ => ()

end Expr

/-- A command: an assignment, with the mark of its target, or a print. -/
inductive Command (α : Type) where
  | assign (mark targetMark : α) (target : Text) (value : Expr α)
  | print (mark : α) (value : Expr α)
  deriving DecidableEq, Repr

namespace Command

variable {α β : Type}

/-- The mark of the keyword. -/
def mark : Command α → α
  | .assign m _ _ _ | .print m _ => m

/-- The expression that is assigned or printed. -/
def value : Command α → Expr α
  | .assign _ _ _ e | .print _ e => e

def map (f : α → β) : Command α → Command β
  | .assign m tm target e => .assign (f m) (f tm) target (e.map f)
  | .print m e => .print (f m) (e.map f)

def plain (c : Command α) : Command Unit := c.map fun _ => ()

end Command

end Polish
