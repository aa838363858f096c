import Polish.Session

/-
  Conversations — a session at the prompt, with a history

  The lines come from an editor, which also keeps the history of what was typed.
  What an editor does is its own affair, and the conversation is told of it. Before
  each line the prompt is shown. The lines that were typed are put into the history,
  except blank ones and the one that ends the session. A prompt that is called off is
  made again, and one that fails ends the conversation.

  Correspondence (dendron ↔ Lean):
    `cmdRepl` ↔ `converse`
-/

namespace Polish

/-- What a prompt comes to, as long as there is input. -/
inductive Prompted where
  | line (text : Text)
  | calledOff
  | failed (reason : Text)
  deriving DecidableEq, Repr

/-- An editor with histories of type `η`. -/
structure Editor (η : Type) where
  /-- What the prompts come to, one after the other, until the input ends. -/
  prompts : Text → List Prompted
  /-- What is seen of a prompt on the output. -/
  shown : Text → Text
  new : η
  /-- A history as it was stored. -/
  restore : Text → η
  add : η → Text → η
  /-- A history as it is stored. -/
  store : η → Text

/-- A session and the history of what was typed. -/
structure Conversation (η : Type) where
  session : Session := {}
  history : η

namespace Conversation

variable {η : Type}

def greeting : Text :=
  ascii "Dendron REPL. Ctrl+C cancels input, Ctrl+D exits. Type :help for help.\n"

def prompt : Text := ascii "dendron> "

/-- The exit code of a conversation that could not go on. -/
def broken : UInt32 := 1

def turn (editor : Editor η) (c : Conversation η) (line : Text) : Reply × Conversation η :=
  match c.session.respond line with
  | (reply, session) =>
    if reply.quit || (Text.trim line).isEmpty then (reply, { c with session })
    else (reply, ⟨session, editor.add c.history line⟩)

/-- Prompts until a line ends the session, a prompt fails or the input ends. Yields
the exit code, what was shown and reported, after what already was, and the last
state. -/
def converse (editor : Editor η) (c : Conversation η) (out err : Array Text) :
    List Prompted → UInt32 × Array Text × Array Text × Conversation η
  | [] => (0, (out.push (editor.shown prompt)).push [Text.newline], err, c)
  | .calledOff :: rest => c.converse editor (out.push (editor.shown prompt)) err rest
  | .failed reason :: _ =>
    (broken, out.push (editor.shown prompt),
      err.push (Session.messageLine (ascii "read error") reason), c)
  | .line line :: rest =>
    match c.turn editor line with
    | (reply, c) =>
      let out := (out.push (editor.shown prompt)).push reply.out
      let err := err.push reply.err
      if reply.quit then (0, out, err, c) else c.converse editor out err rest

end Conversation

end Polish
