import Polish.Compiler
import Polish.Machine
import Polish.Outline
import Polish.Text.Blank
import Polish.Text.Folded

/-
  Sessions — programs typed line by line

  A session compiles each line into a growing program and runs only what the
  line adds, on a machine that lives as long as the session. A line that does not
  compile is forgotten. A line that fails while it runs stays in the program;
  what it left on the stack is dropped, and the table keeps what was stored.

  A line that starts with `:` but not with `:=` is a request to the session
  itself.

  Correspondence (dendron ↔ Lean):
    `eval`     ↔ `respond`
    `command`  ↔ `serve`
    `reset`    ↔ the request `restart`
    `replHelp` ↔ `helpText`
-/

namespace Polish

/-- The compiler, the machine and the lines accepted so far. -/
structure Session where
  compiler : Compiler := {}
  machine : Machine := {}
  lines : Array Text := #[]
  deriving DecidableEq

/-- What a line brings about: whether the session ends, what the output has kept of
the texts for it, and the text for the error output. -/
structure Reply where
  quit : Bool := false
  out : Text := []
  err : Text := []
  deriving DecidableEq, Repr

namespace Session

/-- What can be asked of a session. -/
inductive Request where
  | quit
  | showListing
  | showOutline
  | showTable
  | restart
  | help
  deriving DecidableEq, Repr

/-- The request that a line spells, in any case. -/
def Request.ofLine? (line : Text) : Option Request :=
  let word := Text.folded line
  if word = ascii ":quit" ∨ word = ascii ":q" ∨ word = ascii ":exit" then some .quit
  else if word = ascii ":list" then some .showListing
  else if word = ascii ":infix" then some .showOutline
  else if word = ascii ":table" then some .showTable
  else if word = ascii ":reset" then some .restart
  else if word = ascii ":help" then some .help
  else none

def helpText : Text := ascii
  "Enter one statement per line (\":= name expr\" or \"@ expr\").
REPL commands:
  :list    show the compiled instructions
  :infix   show the program in infix notation
  :table   show the variable table
  :reset   start a new session
  :quit    exit
"

def messageLine (label message : Text) : Text := label ++ ascii ": " ++ message ++ [Text.newline]

/-- The line for a diagnostic that keeps a program from running. -/
def compilationError (d : Diagnostic) : Text := messageLine (ascii "Compilation Error") d.text

def runtimeError (stop : Stop) : Text :=
  messageLine (ascii "Runtime Error") stop.machineReport.text

/-- Writes texts to the output, one write each. It is not asked whether a write fails. -/
def tell (s : Session) (texts : List Text) : Reply × Session :=
  let sink := s.machine.sink.offerAll texts
  ({ out := sink.text }, { s with machine := { s.machine with sink := sink.emptied } })

def serve (s : Session) (line : Text) : Reply × Session :=
  match Request.ofLine? line with
  | some .quit => ({ quit := true }, s)
  | some .showListing => s.tell [listing s.compiler.program.toList]
  | some .showOutline =>
    match Statement.outlineAll (Statement.ofLines s.lines.toList) with
    | .ok t => s.tell [t]
    | .error d => ({ err := compilationError d }, s)
  | some .showTable => s.tell s.machine.table.dumpLines
  | some .restart => ({}, { machine := { sink := s.machine.sink } })
  | some .help => s.tell [helpText]
  | none =>
    ({ err := ascii "unknown command " ++ line ++ ascii ". Type :help for help."
        ++ [Text.newline] }, s)

/-- Compiles a statement and runs what it adds. -/
def enter (s : Session) (line : Text) : Reply × Session :=
  match s.compiler.extend { Statement.ofText line with line := s.lines.size + 1 } with
  | .error d => ({ err := compilationError d }, s)
  | .ok (code, compiler) =>
    let (machine, stop) := s.machine.run code
    let out := machine.sink.text
    let machine := { machine with sink := machine.sink.emptied }
    let lines := s.lines.push line
    match stop with
    | none => ({ out }, { compiler, machine, lines })
    | some stop =>
      ({ out, err := runtimeError stop }, { compiler, machine := machine.drain, lines })

def isRequest (line : Text) : Bool :=
  (ascii ":").isPrefixOf line && !(ascii ":=").isPrefixOf line

/-- Whether there is nothing to do for a line: it is empty or a comment. -/
def isIdle (line : Text) : Bool := line.isEmpty || (ascii ";").isPrefixOf line

def respond (s : Session) (input : Text) : Reply × Session :=
  let line := Text.trim input
  if isIdle line then ({}, s)
  else if isRequest line then s.serve line
  else s.enter line

end Session

end Polish
