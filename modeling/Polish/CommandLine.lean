import Polish.Evaluator
import Polish.Flag
import Polish.Instruction.Reader
import Polish.Loader
import Polish.Session.Conversation

/-
  The command line

  The first argument names a command. Four of them work on a program file, whose
  name may stand before or after the flags: `run`, `list`, `infix` and
  `interpret`. The fifth, `repl`, reads statements from the input.

  What a command line asks for is worked out first, as a plan: a finished
  outcome, a file to load and what to do with it, or a conversation. Carrying
  out a plan needs the files and the input.

  Correspondence (dendron ↔ Lean):
    `dispatch`                             ↔ `plan`, `perform`
    `parseArgs`                            ↔ `leadingFile`, `readArguments`
    `addLoaderFlags`, `loaderFlags.loader` ↔ `loaderFlags`, `loaderOf`
    `cmdRun`                               ↔ `runFlags`, `runListing`, `runSource`
    `cmdList`, `printListing`              ↔ `list`, `listingSection`
    `cmdInfix`, `printInfix`               ↔ `outline`, `outlineSection`
    `cmdInterpret`                         ↔ `interpret`
    `cmdRepl`                              ↔ `planConversation`, `conversation`
-/

namespace Polish

/-- What a command leaves: its exit code, its output and its error output. -/
structure Outcome where
  exit : UInt32 := 0
  out : Text := []
  err : Text := []
  deriving DecidableEq, Repr

/-- Where a command runs: the working directory, and the home directory if there
is one. -/
structure Place where
  directory : Path
  home : Option Path
  deriving DecidableEq, Repr

/-- What a command line asks for. -/
inductive Plan where
  | finish (outcome : Outcome)
  | load (loader : Loader) (file : Text) (use : Text → Outcome)
  | converse (keepHistory : Bool)

namespace CommandLine

def failed : UInt32 := 1

def misused : UInt32 := 2

def usage : Text := ascii
  "Usage: dendron <command> [flags] <source.dd>

Commands:
  run        compile and execute a program
  list       print the compiled instructions
  infix      print the program in infix notation
  interpret  evaluate the parse tree directly
  repl       interactive session
"

/-! ## Flags -/

def maxSizeFlag : Flag :=
  ⟨ascii "max-size", .number Loader.defaultMaxSize, ascii "maximum program size in bytes"⟩

def rootFlag (p : Place) : Flag :=
  ⟨ascii "root", .word p.directory.text, ascii "directory programs must live under"⟩

def switch (name help : String) : Flag := ⟨ascii name, .switch, ascii help⟩

def runFlags (p : Place) : FlagSet where
  command := ascii "run"
  flags := [
    switch "asm" "treat the file as an instruction listing",
    switch "infix" "print the program in infix notation before running",
    switch "list" "print the compiled instructions before running",
    maxSizeFlag,
    switch "quiet" "only print program output",
    rootFlag p]

def listFlags (p : Place) : FlagSet where
  command := ascii "list"
  flags := [
    maxSizeFlag,
    switch "raw" "omit the header so the output can be fed to run -asm",
    rootFlag p]

/-- The flags of a command that has only those of the loader. -/
def loaderFlags (p : Place) (command : Text) : FlagSet where
  command
  flags := [maxSizeFlag, rootFlag p]

def replFlags : FlagSet where
  command := ascii "repl"
  flags := [switch "no-history" "do not read or write the history file"]

def loaderOf (p : Place) (a : Arguments) : Loader :=
  .ofRoot p.directory (a.word (ascii "root") p.directory.text)
    (a.number (ascii "max-size") Loader.defaultMaxSize)

/-- A file name in front of the flags, and the other arguments. -/
def leadingFile : List Text → Text × List Text
  | [] => ([], [])
  | first :: rest =>
    if first.head? = some Argument.dash then ([], first :: rest) else (first, rest)

/-- Reads the file name and the flags of a command. The first positional argument
is the file if none stands in front of the flags. -/
def readArguments (fs : FlagSet) (args : List Text) : Except Outcome (Text × Arguments) :=
  let (leading, args) := leadingFile args
  match fs.parse args with
  | .error e => .error { exit := misused, err := fs.complaint e }
  | .ok a =>
    let file := if leading.isEmpty then a.positional.head?.getD [] else leading
    if file.isEmpty then
      .error { exit := misused, err := fs.command ++ ascii ": missing source file\n" ++ usage }
    else .ok (file, a)

/-! ## What is shown of a program -/

/-- The compiled program under its header. -/
def listingSection (program : List Instruction) : Text :=
  ascii "\nCompiled code:\n" ++ listing program ++ [Text.newline]

/-- The infix form of a program under its header. -/
def outlineSection (outline : Text) : Text :=
  ascii "The Program, with expressions in infix notation:\n\n" ++ outline ++ [Text.newline]

/-- The outcome of a program that does not compile, after what was shown. -/
def notCompiled (out : Text) (d : Diagnostic) : Outcome :=
  { exit := failed, out, err := Session.compilationError d }

/-! ## Commands on a program -/

structure RunOptions where
  asListing : Bool
  showOutline : Bool
  showListing : Bool
  quiet : Bool
  deriving DecidableEq, Repr

def RunOptions.ofArguments (a : Arguments) : RunOptions where
  asListing := a.isOn (ascii "asm")
  showOutline := a.isOn (ascii "infix")
  showListing := a.isOn (ascii "list")
  quiet := a.isOn (ascii "quiet")

/-- Runs a program, after what was shown. -/
def execution (o : RunOptions) (shown : Text) (program : List Instruction) : Outcome :=
  let (m, stop) := ({} : Machine).execute program
  let before := if o.quiet then [] else ascii "Executing compiled code...\n"
  let verb := if stop.isSome then ascii "halted" else ascii "ended"
  let after :=
    if o.quiet then []
    else ascii "Machine: execution " ++ verb ++ ascii " with " ++ Text.decimal m.depth
      ++ ascii " items left on the stack.\n\n" ++ m.table.dump
  let out := shown ++ (if o.showListing then listingSection program else [])
    ++ before ++ m.sink.text ++ after
  match stop with
  | none => { out }
  | some stop => { exit := failed, out, err := Session.runtimeError stop }

def runListing (o : RunOptions) (content : Text) : Outcome :=
  match readListing content with
  | .error e =>
    { exit := failed, err := Session.messageLine (ascii "Assembly Error") e.message }
  | .ok program => execution o [] program

/-- Compiles and runs a program, after what was shown. -/
def runCompiled (o : RunOptions) (shown : Text) (program : List Statement) : Outcome :=
  match compile program with
  | .error d => notCompiled shown d
  | .ok code => execution o shown code

def runSource (o : RunOptions) (content : Text) : Outcome :=
  let program := Statement.ofSource content
  if o.showOutline then
    match Statement.outlineAll program with
    | .error d => notCompiled [] d
    | .ok outline => runCompiled o (outlineSection outline) program
  else runCompiled o [] program

/-- Shows the compiled program of a source text, with or without its header. -/
def list (raw : Bool) (content : Text) : Outcome :=
  match compile (Statement.ofSource content) with
  | .error d => notCompiled [] d
  | .ok code => { out := if raw then listing code else listingSection code }

def outline (content : Text) : Outcome :=
  match Statement.outlineAll (Statement.ofSource content) with
  | .error d => notCompiled [] d
  | .ok text => { out := outlineSection text }

def interpret (content : Text) : Outcome :=
  let (v, stop) := evaluate {} (Statement.ofSource content)
  let out := ascii "Interpreting the parse tree...\n" ++ v.sink.text
  match stop with
  | none => { out := out ++ ascii "Interpretation complete\n\n" ++ v.table.dump }
  | some stop =>
    let report := stop.evaluatorReport
    let label :=
      if report.kind.isRuntime then ascii "Runtime Error" else ascii "Compilation Error"
    { exit := failed, out, err := Session.messageLine label report.text }

/-! ## Plans -/

def planFile (p : Place) (fs : FlagSet) (args : List Text) (use : Arguments → Text → Outcome) :
    Plan :=
  match readArguments fs args with
  | .error outcome => .finish outcome
  | .ok (file, a) => .load (loaderOf p a) file (use a)

def planConversation (args : List Text) : Plan :=
  match replFlags.parse args with
  | .error e => .finish { exit := misused, err := replFlags.complaint e }
  | .ok a => .converse (!a.isOn (ascii "no-history"))

def plan (p : Place) : List Text → Plan
  | [] => .finish { exit := misused, err := usage }
  | command :: args =>
    if command = ascii "run" then
      planFile p (runFlags p) args fun a =>
        let o := RunOptions.ofArguments a
        if o.asListing then runListing o else runSource o
    else if command = ascii "list" then
      planFile p (listFlags p) args fun a => list (a.isOn (ascii "raw"))
    else if command = ascii "infix" then
      planFile p (loaderFlags p command) args fun _ => outline
    else if command = ascii "interpret" then
      planFile p (loaderFlags p command) args fun _ => interpret
    else if command = ascii "repl" then planConversation args
    else if ["-h", "-help", "--help", "help"].any fun s => ascii s == command then
      .finish { out := usage }
    else
      .finish
        { exit := misused,
          err := ascii "unknown command " ++ Text.quoted command ++ [Text.newline] ++ usage }

/-! ## Carrying out plans -/

/-- The outcome of a file that cannot be loaded. -/
def notLoaded (e : LoadError) : Outcome :=
  { exit := failed, err := Session.messageLine (ascii "Error reading file") e.message }

def historyPath (p : Place) : Option Path :=
  p.home.map fun home => home.join (ascii ".dendron_history")

section Carrying

variable {η : Type} (editor : Editor η)

def storedHistory (v : Volume) (path : Path) : η :=
  match v.openPath path with
  | .ok (.file content) => editor.restore content
  | _ => editor.new

def conversation (history : η) (input : Text) : Outcome × η :=
  let (exit, out, err, c) :=
    Conversation.converse editor { history } #[Conversation.greeting] #[] (editor.prompts input)
  ({ exit, out := out.toList.flatten, err := err.toList.flatten }, c.history)

/-- Carries out a plan with the files of a volume and all of the input. -/
def carryOut (p : Place) (v : Volume) (input : Text) : Plan → Outcome × Volume
  | .finish outcome => (outcome, v)
  | .load loader file use =>
    match loader.read v file with
    | .error e => (notLoaded e, v)
    | .ok content => (use content, v)
  | .converse keepHistory =>
    match if keepHistory then historyPath p else none with
    | none => ((conversation editor editor.new input).1, v)
    | some path =>
      let (outcome, history) := conversation editor (storedHistory editor v path) input
      (outcome, v.writeFile path (editor.store history))

/-- The outcome of a command line, and the files after it. -/
def perform (p : Place) (v : Volume) (input : Text) (args : List Text) : Outcome × Volume :=
  carryOut editor p v input (plan p args)

end Carrying

end CommandLine

end Polish
