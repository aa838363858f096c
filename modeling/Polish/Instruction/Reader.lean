import Polish.Instruction
import Polish.Text.Blank
import Polish.Text.Lines
import Polish.Text.Quoted

/-
  Reading listings — text to instructions

  A listing has one instruction a line: the opcode, and its operand if it takes
  one, with white space around them. Blank lines and lines that start with `;`
  are passed over. A line of 65536 bytes or more is refused, whatever it holds.

  Correspondence (dendron ↔ Lean):
    `ParseInstruction` ↔ `Instruction.read`
    `ParseProgram`     ↔ `readListing`
-/

namespace Polish

/-- Why a line is no instruction. -/
inductive InstructionError where
  | emptyLine
  | unknownOpcode (word : Text)
  | operandCount (op : Opcode) (found : Nat)
  | badConstant (word : Text) (reason : LiteralError)
  deriving DecidableEq, Repr

def InstructionError.message : InstructionError → Text
  | .emptyLine => ascii "vm: empty instruction"
  | .unknownOpcode word => ascii "vm: unknown opcode " ++ Text.quoted word
  | .operandCount op found =>
    ascii "vm: " ++ op.name ++ ascii " takes " ++ Text.decimal op.operands
      ++ ascii " operand(s), got " ++ Text.decimal found
  | .badConstant word reason =>
    ascii "vm: bad PUSH operand " ++ Text.quoted word ++ ascii ": " ++ reason.message

/-- Reads an instruction from the fields of a line. -/
def Instruction.ofFields : List Text → Except InstructionError Instruction
  | [] => .error .emptyLine
  | word :: operands =>
    match Opcode.ofName? word with
    | none => .error (.unknownOpcode word)
    | some op =>
      if operands.length ≠ op.operands then .error (.operandCount op operands.length)
      else match op, operands with
        | .push, [operand] =>
          match Literal.read operand with
          | .ok value => .ok (.push value)
          | .error reason => .error (.badConstant operand reason)
        | .load, [operand] => .ok (.load operand)
        | .store, [operand] => .ok (.store operand)
        | op, _ => .ok (.plain op)

def Instruction.read (line : Text) : Except InstructionError Instruction :=
  ofFields (Text.fields line)

/-- Why a text is no listing. -/
inductive ListingError where
  | atLine (number : Nat) (reason : InstructionError)
  | lineTooLong
  deriving DecidableEq, Repr

def ListingError.message : ListingError → Text
  | .atLine number reason =>
    ascii "line " ++ Text.decimal number ++ ascii ": " ++ reason.message
  | .lineTooLong => ascii "bufio.Scanner: token too long"

/-- Lines of this many bytes, the newline not counted, are too long. -/
def longLine : Nat := 65536

/-- Reads the lines from number `number` on, after the instructions already read. -/
def readLinesOnto (read : Array Instruction) (number : Nat) :
    List Text → Except ListingError (Array Instruction)
  | [] => .ok read
  | line :: rest =>
    if longLine ≤ line.length then .error .lineTooLong
    else
      let content := Text.trim (Text.chomp line)
      if content.isEmpty || content.head? == some 59 then readLinesOnto read (number + 1) rest
      else match Instruction.read content with
        | .ok i => readLinesOnto (read.push i) (number + 1) rest
        | .error reason => .error (.atLine number reason)

def readListing (t : Text) : Except ListingError (List Instruction) :=
  (readLinesOnto #[] 1 (Text.lines t)).map Array.toList

end Polish
