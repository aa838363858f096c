import Polish.Expr.Parser
import Polish.Instruction
import Polish.Table

/-
  Compiling — statements to instructions

  The compiler reads the tokens of a statement once and writes the code of each
  operand before that of its operator, so the code is the expression in postfix
  order, followed by `STORE` or `PRINT`. It knows which names have been
  assigned, and refuses to read any other. Beside the code it works out the
  value that each name will hold. A value that the program will fail to reach is
  unknown, and so is every value made from it; the code is the same either way,
  and a value comes with what stands in the table for it.

  A statement that does not compile changes nothing.

  Correspondence (dendron ↔ Lean):
    `Emitter`  ↔ `Compiler`
    `Emit`     ↔ `extend`
    `emitExpr` ↔ `compileExpr`
    `fold`     ↔ `Folded.unary`, `Folded.binary`
    `EmitAll`  ↔ `extendAll`
    `Compile`  ↔ `compile`
    `Constant` ↔ `constant?`
-/

namespace Polish

/-- Why a statement does not compile. -/
inductive CompileError where
  | grammar (reason : GrammarError)
  | badNumber (token : Token) (reason : LiteralError)
  | unassigned (token : Token)
  deriving DecidableEq, Repr

namespace CompileError

def kind : CompileError → Kind
  | .grammar reason => reason.kind
  | .badNumber _ _ => .illegalValue
  | .unassigned _ => .uninitialized

/-- The token at fault; none where the statement ends too early. -/
def token? : CompileError → Option Token
  | .grammar reason => reason.token?
  | .badNumber t _ => some t
  | .unassigned t => some t

def message : CompileError → Text
  | .grammar reason => reason.message
  | .badNumber _ reason => ascii "bad integer: " ++ reason.message
  | .unassigned _ => ascii "variable read before assignment"

def diagnostic (st : Statement) (e : CompileError) : Diagnostic :=
  st.diagnostic e.kind e.token? e.message

end CompileError

def UnaryOp.opcode : UnaryOp → Opcode
  | .negate => .neg
  | .sqrt => .sqrt

def BinaryOp.opcode : BinaryOp → Opcode
  | .add => .add
  | .subtract => .sub
  | .multiply => .mul
  | .divide => .div

/-- The code written so far, the names assigned so far with the values worked out
for them, and those names whose value is not known. -/
structure Compiler where
  program : Array Instruction := #[]
  symbols : Table := .empty
  unknown : List Text := []
  deriving DecidableEq

/-- A value worked out before the code runs, and whether it is known to be the one
that running gives. -/
structure Folded where
  value : Int64
  known : Bool
  deriving DecidableEq, Repr

namespace Folded

def ofResult : Except ArithmeticError Int64 → Folded
  | .ok value => ⟨value, true⟩
  | .error _ => ⟨0, false⟩

def unary (op : UnaryOp) (a : Folded) : Folded :=
  if a.known then ofResult (op.apply a.value) else ⟨0, false⟩

def binary (op : BinaryOp) (a b : Folded) : Folded :=
  if a.known && b.known then ofResult (op.apply a.value b.value) else ⟨0, false⟩

end Folded

/-- Code that leaves one value on the stack, and that value as it is worked out. -/
structure Compiled where
  code : Array Instruction
  folded : Folded
  deriving DecidableEq

namespace Compiled

/-- A unary operation behind the code of its operand. -/
def unary (op : UnaryOp) (operand : Compiled) : Compiled where
  code := operand.code.push (.plain op.opcode)
  folded := .unary op operand.folded

/-- A binary operation behind the code of its right operand, which stands behind
that of the left one. -/
def binary (op : BinaryOp) (left : Folded) (right : Compiled) : Compiled where
  code := right.code.push (.plain op.opcode)
  folded := .binary op left right.folded

end Compiled

namespace Compiler

/-- The value that a name is known to hold after the code so far. -/
def constant? (c : Compiler) (name : Text) : Option Int64 :=
  if c.unknown.contains name then none else c.symbols.get? name

/-- What the table has for a name that has been assigned. -/
def folded? (c : Compiler) (name : Text) : Option Folded :=
  (c.symbols.get? name).map fun value => ⟨value, !c.unknown.contains name⟩

/-- Compiles one expression from the front of the tokens and puts its code behind
`code`. -/
def compileExpr (c : Compiler) (code : Array Instruction) (tokens : List Token) :
    Except CompileError (Compiled × Shorter tokens) :=
  match tokens with
  | [] => .error (.grammar .missingOperand)
  | t :: rest =>
    match t.kind with
    | .number =>
      match Literal.read t.text with
      | .ok value => .ok (⟨code.push (.push value), ⟨value, true⟩⟩, ⟨rest, by simp⟩)
      | .error reason => .error (.badNumber t reason)
    | .name =>
      match c.folded? t.text with
      | some folded => .ok (⟨code.push (.load t.text), folded⟩, ⟨rest, by simp⟩)
      | none => .error (.unassigned t)
    | .unary op =>
      match compileExpr c code rest with
      | .error e => .error e
      | .ok (operand, ⟨rest₁, h₁⟩) =>
        .ok (.unary op operand, ⟨rest₁, by simp only [List.length_cons]; omega⟩)
    | .binary op =>
      match compileExpr c code rest with
      | .error e => .error e
      | .ok (⟨code, left⟩, ⟨rest₁, h₁⟩) =>
        match compileExpr c code rest₁ with
        | .error e => .error e
        | .ok (right, ⟨rest₂, h₂⟩) =>
          .ok (.binary op left right, ⟨rest₂, by simp only [List.length_cons]; omega⟩)
    | .finish | .unknown | .assign | .print => .error (.grammar (.notOperand t))
termination_by tokens.length

def compileWholeExpr (c : Compiler) (tokens : List Token) : Except CompileError Compiled :=
  match c.compileExpr #[] tokens with
  | .error e => .error e
  | .ok (e, ⟨[], _⟩) => .ok e
  | .ok (_, ⟨extra :: _, _⟩) => .error (.grammar (.unexpectedToken extra))

/-- What a statement adds: its code, and the name it assigns with its value. -/
structure Addition where
  code : List Instruction
  assigned : Option (Text × Folded) := none
  deriving DecidableEq, Repr

/-- Records that a name has been assigned a value, known or not. -/
def assign (c : Compiler) (name : Text) (folded : Folded) : Compiler :=
  let others := c.unknown.filter fun n => n != name
  { c with
    symbols := c.symbols.insert name folded.value
    unknown := if folded.known then others else name :: others }

/-- The compiler after it took in what a statement adds. -/
def commit (c : Compiler) (addition : Addition) : Compiler :=
  let c := { c with program := c.program ++ addition.code }
  match addition.assigned with
  | none => c
  | some (name, folded) => c.assign name folded

/-- Compiles a command that takes up all the tokens. -/
def compileCommand (c : Compiler) : List Token → Except CompileError Addition
  | [] => .error (.grammar .emptyStatement)
  | keyword :: rest =>
    match keyword.kind with
    | .assign =>
      match rest with
      | [] => .error (.grammar .missingTarget)
      | target :: rest =>
        match target.kind with
        | .name =>
          match c.compileWholeExpr rest with
          | .error e => .error e
          | .ok e => .ok ⟨(e.code.push (.store target.text)).toList, some (target.text, e.folded)⟩
        | _ => .error (.grammar (.targetNotName target))
    | .print =>
      match c.compileWholeExpr rest with
      | .error e => .error e
      | .ok e => .ok ⟨(e.code.push (.plain .print)).toList, none⟩
    | _ => .error (.grammar (.unknownKeyword keyword))

/-- Compiles one statement: the code it adds, and the compiler after it. -/
@[inline]
def extend (c : Compiler) (st : Statement) : Except Diagnostic (List Instruction × Compiler) :=
  match c.compileCommand st.tokens with
  | .error e => .error (e.diagnostic st)
  | .ok addition => .ok (addition.code, c.commit addition)

/-- Compiles statements in order. The compiler keeps what came before the first
that does not compile. -/
def extendAll (c : Compiler) : List Statement → Compiler × Option Diagnostic
  | [] => (c, none)
  | st :: rest =>
    match c.extend st with
    | .error d => (c, some d)
    | .ok (_, c) => c.extendAll rest

end Compiler

def compile (program : List Statement) : Except Diagnostic (List Instruction) :=
  match Compiler.extendAll {} program with
  | (_, some d) => .error d
  | (c, none) => .ok c.program.toList

end Polish
