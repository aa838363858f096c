import Polish.Integer

/-
  Operators — the operations of expressions and their results
-/

namespace Polish

/-- Operators in front of one operand. -/
inductive UnaryOp where
  | negate
  | sqrt
  deriving DecidableEq, Repr

/-- Operators in front of two operands. -/
inductive BinaryOp where
  | add
  | subtract
  | multiply
  | divide
  deriving DecidableEq, Repr

def UnaryOp.apply (op : UnaryOp) (a : Int64) : Except ArithmeticError Int64 :=
  match op with
  | .negate => .ok (-a)
  | .sqrt => Integer.root a

def BinaryOp.apply (op : BinaryOp) (a b : Int64) : Except ArithmeticError Int64 :=
  match op with
  | .add => .ok (a + b)
  | .subtract => .ok (a - b)
  | .multiply => .ok (a * b)
  | .divide => Integer.quotient a b

end Polish
