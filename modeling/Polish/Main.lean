import Polish.CommandLine
import Polish.Session.History

/-
  The program — plans carried out with real files and the real input
-/

namespace Polish

namespace Program

def bytesOf (s : String) : Text := s.toUTF8.data.toList

def stringOf? (t : Text) : Option String := String.fromUTF8? ⟨t.toArray⟩

def put (stream : IO.FS.Stream) (t : Text) : IO Unit := do
  stream.write ⟨t.toArray⟩
  stream.flush

/-- Writes what an outcome holds, and yields its exit code. -/
def finish (outcome : Outcome) : IO UInt32 := do
  put (← IO.getStdout) outcome.out
  put (← IO.getStderr) outcome.err
  return outcome.exit

/-- What stands at a path of the file system. -/
def entryAt (p : Path) : IO (Option Entry) := do
  match stringOf? p.text with
  | none => return none
  | some name =>
    let file := (← IO.currentDir) / name
    if ← file.isDir then return some .directory
    try
      return some (.file (← IO.FS.readBinFile file).data.toList)
    catch _ => return none

/-- The part of the file system that opening a path looks at. -/
def volumeAt (p : Path) : IO Volume := do
  let mut v : Volume := {}
  for n in List.range p.parts.length do
    let parts := p.parts.take (n + 1)
    if let some entry ← entryAt ⟨true, parts⟩ then
      v := v.put parts entry
  return v

/-- Reads on until there is a whole line, or as much of one as is read at once. -/
partial def fill (input : IO.FS.Stream) (pending : Array UInt8) : IO (Array UInt8) := do
  if pending.contains Text.newline || Text.pieceWidth ≤ pending.size then return pending
  let more ← input.read 1
  if more.isEmpty then return pending
  fill input (pending ++ more.data)

/-- Takes lines from the input until one ends the session or there are no more. -/
partial def converse (c : Conversation History) (pending : Text) :
    IO (Conversation History) := do
  let output ← IO.getStdout
  put output Conversation.prompt
  let pending := (← fill (← IO.getStdin) pending.toArray).toList
  if pending.isEmpty then
    put output [Text.newline]
    return c
  let piece := Text.firstPiece pending
  let (reply, c) := c.turn .plain piece.text
  put output reply.out
  put (← IO.getStderr) reply.err
  if reply.quit then return c
  converse c piece.rest

/-- Converses, with the history kept in a file if there is one. -/
def converseWithHistory (path : Option Path) : IO UInt32 := do
  put (← IO.getStdout) Conversation.greeting
  match path with
  | none => discard (converse { history := {} } [])
  | some path =>
    let v ← volumeAt path
    let c ← converse { history := CommandLine.storedHistory .plain v path } []
    if let some name := stringOf? path.text then
      try IO.FS.writeBinFile name ⟨c.history.text.toArray⟩ catch _ => pure ()
  return 0

def place : IO Place := do
  let directory := Path.ofText (bytesOf (← IO.currentDir).toString)
  let home := (← IO.getEnv "HOME").filter fun name => !name.isEmpty
  return ⟨directory, home.map fun name => .ofText (bytesOf name)⟩

def run (args : List String) : IO UInt32 := do
  let p ← place
  match CommandLine.plan p (args.map bytesOf) with
  | .finish outcome => finish outcome
  | .converse keepHistory =>
    converseWithHistory (if keepHistory then CommandLine.historyPath p else none)
  | .load loader file use =>
    let v ← match loader.resolve file with
      | .ok path => volumeAt path
      | .error _ => pure {}
    match loader.read v file with
    | .error e => finish (CommandLine.notLoaded e)
    | .ok content => finish (use content)

end Program

end Polish

def main (args : List String) : IO UInt32 := Polish.Program.run args
