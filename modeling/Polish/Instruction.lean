import Polish.Integer.Literal

/-
  Instructions — the code of the stack machine

  An instruction is an opcode with room for a constant and a name; `PUSH` uses
  the constant, `LOAD` and `STORE` the name. An opcode number that is not in the
  instruction set is kept as it is, so that a machine can refuse it.

  Correspondence (dendron ↔ Lean):
    `Opcode.String`, `Opcode.Valid` ↔ `Opcode.name`, `Opcode.isListed`
    `StackEffect`                   ↔ `Opcode.pops`, `Opcode.pushes`
    `Push`, `Load`, `Store`, `Op`   ↔ `push`, `load`, `store`, `plain`
    `Instruction.String`            ↔ `Instruction.text`
    `Instructions`                  ↔ `listing`
-/

namespace Polish

inductive Opcode where
  | push
  | load
  | store
  | add
  | sub
  | mul
  | div
  | neg
  | sqrt
  | print
  /-- A number that is not in the instruction set. -/
  | unlisted (code : UInt8)
  deriving DecidableEq, Repr

namespace Opcode

/-- The instruction set. -/
def listed : List Opcode := [.push, .load, .store, .add, .sub, .mul, .div, .neg, .sqrt, .print]

def code : Opcode → UInt8
  | .push => 0x01
  | .load => 0x02
  | .store => 0x03
  | .add => 0x10
  | .sub => 0x11
  | .mul => 0x12
  | .div => 0x13
  | .neg => 0x14
  | .sqrt => 0x15
  | .print => 0x20
  | .unlisted code => code

def ofCode (code : UInt8) : Opcode :=
  (listed.find? fun op => op.code == code).getD (.unlisted code)

def name : Opcode → Text
  | .push => ascii "PUSH"
  | .load => ascii "LOAD"
  | .store => ascii "STORE"
  | .add => ascii "ADD"
  | .sub => ascii "SUB"
  | .mul => ascii "MUL"
  | .div => ascii "DIV"
  | .neg => ascii "NEG"
  | .sqrt => ascii "SQRT"
  | .print => ascii "PRINT"
  | .unlisted _ => ascii "UNKNOWN"

/-- The opcode of the instruction set with the given name. -/
def ofName? (word : Text) : Option Opcode := listed.find? fun op => op.name == word

def isListed : Opcode → Bool
  | .unlisted _ => false
  | _ => true

def pops : Opcode → Nat
  | .push | .load => 0
  | .store | .print => 1
  | .add | .sub | .mul | .div => 2
  | .neg | .sqrt => 1
  | .unlisted _ => 0

def pushes : Opcode → Nat
  | .push | .load => 1
  | .store | .print => 0
  | .add | .sub | .mul | .div => 1
  | .neg | .sqrt => 1
  | .unlisted _ => 0

/-- How many operands follow the opcode in a listing. -/
def operands : Opcode → Nat
  | .push | .load | .store => 1
  | _ => 0

end Opcode

/-- An opcode with its constant and its name. -/
structure Instruction where
  op : Opcode
  const : Int64 := 0
  name : Text := []
  deriving DecidableEq, Repr

namespace Instruction

def push (value : Int64) : Instruction := { op := .push, const := value }

def load (name : Text) : Instruction := { op := .load, name }

def store (name : Text) : Instruction := { op := .store, name }

/-- An opcode without a constant or a name. -/
def plain (op : Opcode) : Instruction := { op }

/-- The text of an instruction: the opcode, and its operand if it has one. -/
def text (i : Instruction) : Text :=
  match i.op with
  | .push => ascii "PUSH " ++ Literal.write i.const
  | .load => ascii "LOAD " ++ i.name
  | .store => ascii "STORE " ++ i.name
  | op => op.name

end Instruction

/-- The text of a program, one instruction a line. -/
def listing (program : List Instruction) : Text := Text.unlines (program.map Instruction.text)

end Polish
