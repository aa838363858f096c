import Polish.Integer.Literal
import Polish.Text.Quoted

/-
  Diagnostics — what went wrong, and where

  A diagnostic has a kind and as much of the context as is known: the statement
  and the token at fault, or the instruction and the depth of the stack. Its
  text names only what is known.

  A report is a diagnostic or a plain message with the contexts that were put
  in front of it on the way to the user.

  Correspondence (dendron ↔ Lean):
    `Kind.String`, `Kind.Runtime` ↔ `Kind.name`, `Kind.isRuntime`
    `Error`                       ↔ `Diagnostic`
    `Error.Error`                 ↔ `Diagnostic.text`
    `KindOf`, `Error.Is`          ↔ `Report.kind`, `Report.isKind`
-/

namespace Polish

/-- The kinds of failure. The first stands for a failure without a kind; the next
four arise before a program runs, the four after them while it runs. -/
inductive Kind where
  | none
  | uninitialized
  | illegalValue
  | unknownStatement
  | arityMismatch
  | stackUnderflow
  | undefinedVariable
  | divideByZero
  | negativeSqrt
  | internal
  /-- A number that names no kind. -/
  | unlisted (code : UInt8)
  deriving DecidableEq, Repr

namespace Kind

/-- The kind with the given number. -/
def ofCode (code : UInt8) : Kind :=
  match code.toNat with
  | 0 => .none
  | 1 => .uninitialized
  | 2 => .illegalValue
  | 3 => .unknownStatement
  | 4 => .arityMismatch
  | 5 => .stackUnderflow
  | 6 => .undefinedVariable
  | 7 => .divideByZero
  | 8 => .negativeSqrt
  | 9 => .internal
  | _ => .unlisted code

/-- The kinds a failure is tested for, in the order of their numbers. -/
def tested : List Kind :=
  [.uninitialized, .illegalValue, .unknownStatement, .arityMismatch, .stackUnderflow,
    .undefinedVariable, .divideByZero, .negativeSqrt]

def name : Kind → Text
  | .none => ascii "NONE"
  | .uninitialized => ascii "UNINITIALIZED"
  | .illegalValue => ascii "ILLEGAL_VALUE"
  | .unknownStatement => ascii "UNKNOWN_STATEMENT"
  | .arityMismatch => ascii "ARITY_MISMATCH"
  | .stackUnderflow => ascii "STACK_UNDERFLOW"
  | .undefinedVariable => ascii "UNDEFINED_VARIABLE"
  | .divideByZero => ascii "DIVIDE_BY_ZERO"
  | .negativeSqrt => ascii "NEGATIVE_SQRT"
  | .internal => ascii "INTERNAL"
  | .unlisted code => ascii "Kind(" ++ Text.decimal code.toNat ++ ascii ")"

/-- Whether the kind is raised by a running program. -/
def isRuntime : Kind → Bool
  | .stackUnderflow | .undefinedVariable | .divideByZero | .negativeSqrt => true
  | _ => false

end Kind

/-- A failure with its context. A text that is not known is empty, a line that
is not known is not positive, and `pc` is `-1` unless an instruction failed. -/
structure Diagnostic where
  kind : Kind
  message : Text := []
  line : Int := 0
  statement : Text := []
  token : Text := []
  pc : Int := -1
  instruction : Text := []
  depth : Int := 0
  deriving DecidableEq, Repr

namespace Diagnostic

def showIf (shown : Bool) (part : Text) : Text := if shown then part else []

def text (d : Diagnostic) : Text :=
  d.kind.name
    ++ showIf (!d.message.isEmpty) (ascii ": " ++ d.message)
    ++ showIf (!d.token.isEmpty) (ascii " (token " ++ Text.quoted d.token ++ ascii ")")
    ++ showIf (0 < d.line) (ascii " at line " ++ Text.decimalInt d.line)
    ++ showIf (!d.statement.isEmpty) (ascii ": " ++ d.statement)
    ++ showIf (!d.instruction.isEmpty)
      (ascii " [pc " ++ Text.decimalInt d.pc ++ ascii ": " ++ d.instruction
        ++ ascii ", stack depth " ++ Text.decimalInt d.depth ++ ascii "]")

end Diagnostic

/-- A failure on its way to the user. -/
inductive Report where
  | plain (message : Text)
  | diagnosed (d : Diagnostic)
  | inContext (context : Text) (inner : Report)
  deriving DecidableEq, Repr

namespace Report

def text : Report → Text
  | .plain message => message
  | .diagnosed d => d.text
  | .inContext context inner => context ++ ascii ": " ++ inner.text

/-- The diagnostic inside a report. -/
def diagnostic? : Report → Option Diagnostic
  | .plain _ => none
  | .diagnosed d => some d
  | .inContext _ inner => inner.diagnostic?

/-- The kind of a report; a plain message has the kind `none`. -/
def kind (r : Report) : Kind := (r.diagnostic?.map Diagnostic.kind).getD .none

/-- Whether the report holds a diagnostic of the given kind. -/
def isKind (k : Kind) (r : Report) : Bool := r.diagnostic?.any fun d => d.kind == k

end Report

end Polish
