import Polish.Instruction
import Polish.Output
import Polish.Table

/-
  The stack machine

  A machine has a stack, a table of names, a log of what it printed and a sink
  for the printed lines. An instruction that fails leaves the machine as it was,
  except that a line is logged before it is offered to the sink: a `PRINT` whose
  line is refused has taken its value from the stack and logged it.

  Correspondence (dendron ↔ Lean):
    `Reset`, `Push`, `Pop`, `Depth` ↔ `reset`, `push`, `pop`, `depth`
    `step`                          ↔ `step`
    `fault`                         ↔ `halt`
    `Run`                           ↔ `run`
    `Execute`                       ↔ `execute`
-/

namespace Polish

/-- The state of a machine. The top of the stack comes first. -/
structure Machine where
  stack : List Int64 := []
  table : Table := .empty
  printed : Array Int64 := #[]
  sink : Sink := {}
  deriving DecidableEq

namespace Machine

def depth (m : Machine) : Nat := m.stack.length

/-- The machine with nothing on its stack, in its table and in its log. -/
def reset (m : Machine) : Machine := { sink := m.sink }

def push (m : Machine) (value : Int64) : Machine := { m with stack := value :: m.stack }

def pop (m : Machine) : Except Diagnostic (Int64 × Machine) :=
  match m.stack with
  | [] => .error { kind := .stackUnderflow, pc := 0 }
  | value :: rest => .ok (value, { m with stack := rest })

def drain (m : Machine) : Machine := { m with stack := [] }

def printedLine (value : Int64) : Text :=
  ascii "*** " ++ Literal.write value ++ [Text.newline]

/-- Why an instruction cannot be carried out. -/
inductive Fault where
  | underflow (needed found : Nat)
  | unbound (name : Text)
  | divisionByZero (dividend : Int64)
  | negativeRoot (radicand : Int64)
  | unknownOpcode (code : UInt8)
  deriving DecidableEq, Repr

namespace Fault

def kind : Fault → Kind
  | .underflow _ _ => .stackUnderflow
  | .unbound _ => .undefinedVariable
  | .divisionByZero _ => .divideByZero
  | .negativeRoot _ => .negativeSqrt
  | .unknownOpcode _ => .internal

def message : Fault → Text
  | .underflow needed found =>
    ascii "needs " ++ Text.decimal needed ++ ascii " operand(s), stack has " ++ Text.decimal found
  | .unbound name => ascii "variable " ++ name ++ ascii " has no value"
  | .divisionByZero dividend => Literal.write dividend ++ ascii " / 0"
  | .negativeRoot radicand => ascii "sqrt of " ++ Literal.write radicand
  | .unknownOpcode code => ascii "unknown opcode 0x" ++ Text.hex 2 code.toNat

end Fault

/-- The diagnostic of a fault at instruction `i`, number `pc` of its program. -/
def diagnostic (m : Machine) (pc : Nat) (i : Instruction) (fault : Fault) : Diagnostic :=
  { kind := fault.kind, message := fault.message, pc, instruction := i.text, depth := m.depth }

/-- Stops the machine at a fault, as it is. -/
def halt (m : Machine) (pc : Nat) (i : Instruction) (fault : Fault) : Machine × Option Stop :=
  (m, some (.diagnosed (m.diagnostic pc i fault)))

/-- Carries out instruction `i`, number `pc` of its program. -/
def step (pc : Nat) (i : Instruction) (m : Machine) : Machine × Option Stop :=
  match i.op, m.stack with
  | .push, stack => ({ m with stack := i.const :: stack }, none)
  | .load, stack =>
    match m.table.get? i.name with
    | some value => ({ m with stack := value :: stack }, none)
    | none => m.halt pc i (.unbound i.name)
  | .store, value :: stack =>
    ({ m with stack, table := m.table.insert i.name value }, none)
  | .add, b :: a :: stack => ({ m with stack := (a + b) :: stack }, none)
  | .sub, b :: a :: stack => ({ m with stack := (a - b) :: stack }, none)
  | .mul, b :: a :: stack => ({ m with stack := (a * b) :: stack }, none)
  | .div, b :: a :: stack =>
    match Integer.quotient a b with
    | .ok value => ({ m with stack := value :: stack }, none)
    | .error _ => m.halt pc i (.divisionByZero a)
  | .neg, a :: stack => ({ m with stack := (-a) :: stack }, none)
  | .sqrt, a :: stack =>
    match Integer.root a with
    | .ok value => ({ m with stack := value :: stack }, none)
    | .error _ => m.halt pc i (.negativeRoot a)
  | .print, value :: stack =>
    let refusal := m.sink.refusal
    let printed := m.printed.push value
    ({ m with stack, printed, sink := m.sink.offer (printedLine value) }, refusal)
  | .unlisted code, _ => m.halt pc i (.unknownOpcode code)
  | op, stack => m.halt pc i (.underflow op.pops stack.length)

/-- Runs instructions, the first of them number `pc` of their program, up to the
first that fails. -/
def runFrom (pc : Nat) : List Instruction → Machine → Machine × Option Stop
  | [], m => (m, none)
  | i :: rest, m =>
    match m.step pc i with
    | (m, none) => runFrom (pc + 1) rest m
    | (m, some stop) => (m, some stop)

def run (m : Machine) (program : List Instruction) : Machine × Option Stop :=
  runFrom 0 program m

/-- Runs a program from an empty state. -/
def execute (m : Machine) (program : List Instruction) : Machine × Option Stop :=
  m.reset.run program

end Machine

def Stop.machineReport (stop : Stop) : Report := stop.report (ascii "vm")

end Polish
