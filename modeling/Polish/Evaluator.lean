import Polish.Expr.Parser
import Polish.Output
import Polish.Table

/-
  Evaluating trees — programs without a machine

  The evaluator parses and carries out one statement after the other, from an
  empty table. It evaluates the left operand before the right one and both
  before their operator, so it meets the same fault as compiled code does. All
  that came before a failing statement has taken effect.

  Correspondence (dendron ↔ Lean):
    `Interpreter`     ↔ `Evaluator`
    `Interpreter.Run` ↔ `evaluate`, `performAll`
    `exec`            ↔ `perform`
    `eval`            ↔ `Expr.eval`
-/

namespace Polish

/-- Why an expression has no value. -/
inductive EvalError where
  | unassigned (name : Text)
  | divisionByZero (dividend : Int64)
  | negativeRoot (radicand : Int64)
  deriving DecidableEq, Repr

namespace EvalError

def kind : EvalError → Kind
  | .unassigned _ => .uninitialized
  | .divisionByZero _ => .divideByZero
  | .negativeRoot _ => .negativeSqrt

/-- The word at fault: the name, or the operator. -/
def word : EvalError → Text
  | .unassigned name => name
  | .divisionByZero _ => (TokenKind.binary .divide).label
  | .negativeRoot _ => (TokenKind.unary .sqrt).label

def message : EvalError → Text
  | .unassigned _ => ascii "variable read before assignment"
  | .divisionByZero dividend => Literal.write dividend ++ ascii " / 0"
  | .negativeRoot radicand => ascii "sqrt of " ++ Literal.write radicand

def diagnostic (st : Statement) (e : EvalError) : Diagnostic :=
  { st.diagnostic e.kind none e.message with token := e.word }

end EvalError

def Expr.eval {α : Type} (table : Table) : Expr α → Except EvalError Int64
  | .number _ value => .ok value
  | .name _ word =>
    match table.get? word with
    | some value => .ok value
    | none => .error (.unassigned word)
  | .unary _ op operand =>
    match operand.eval table with
    | .error e => .error e
    | .ok a =>
      match op.apply a with
      | .ok value => .ok value
      | .error _ => .error (.negativeRoot a)
  | .binary _ op left right =>
    match left.eval table with
    | .error e => .error e
    | .ok a =>
      match right.eval table with
      | .error e => .error e
      | .ok b =>
        match op.apply a b with
        | .ok value => .ok value
        | .error _ => .error (.divisionByZero a)

/-- The table, the log of printed values, and the sink for printed lines. -/
structure Evaluator where
  table : Table := .empty
  printed : Array Int64 := #[]
  sink : Sink := {}
  deriving DecidableEq

namespace Evaluator

def printedLine (value : Int64) : Text :=
  ascii "=== " ++ Literal.write value ++ [Text.newline]

/-- Carries out a command, the command of statement `st`. -/
def perform {α : Type} (v : Evaluator) (st : Statement) (command : Command α) :
    Evaluator × Option Stop :=
  match command.value.eval v.table with
  | .error e => (v, some (.diagnosed (e.diagnostic st)))
  | .ok value =>
    match command with
    | .assign _ _ target _ => ({ v with table := v.table.insert target value }, none)
    | .print _ _ =>
      let refusal := v.sink.refusal
      let printed := v.printed.push value
      ({ v with printed, sink := v.sink.offer (printedLine value) }, refusal)

/-- Carries out statements in order, up to the first that fails. -/
def performAll (v : Evaluator) : List Statement → Evaluator × Option Stop
  | [] => (v, none)
  | st :: rest =>
    match st.parse with
    | .error d => (v, some (.diagnosed d))
    | .ok command =>
      match v.perform st command with
      | (v, none) => v.performAll rest
      | (v, some stop) => (v, some stop)

end Evaluator

/-- Evaluates a program from an empty table, with the given sink. -/
def evaluate (sink : Sink) (program : List Statement) : Evaluator × Option Stop :=
  Evaluator.performAll { sink } program

def Stop.evaluatorReport (stop : Stop) : Report := stop.report (ascii "interp")

end Polish
