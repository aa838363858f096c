import Polish.Integer.Literal
import Polish.Integer.Numeral
import Polish.Text.Quoted

/-
  Flags — named settings among the arguments of a command

  A flag is an argument `-name` or `--name`. A switch is on when it is named, and
  takes a value only as `-name=value`; other flags take the next argument if no
  value is given that way. Flags end at the first argument that is none, or
  after `--`. What is left are the positional arguments. Of two settings of the
  same flag the later one counts.
-/

namespace Polish

/-- What a flag sets, with the value it has if it is not given. -/
inductive FlagKind where
  | switch
  | number (default : Int64)
  | word (default : Text)
  deriving DecidableEq, Repr

structure Flag where
  name : Text
  kind : FlagKind
  help : Text
  deriving DecidableEq, Repr

/-- The value that a flag was given. -/
inductive Setting where
  | switch (on : Bool)
  | number (value : Int64)
  | word (value : Text)
  deriving DecidableEq, Repr

/-- The flags of a command, in alphabetical order. -/
structure FlagSet where
  command : Text
  flags : List Flag
  deriving DecidableEq, Repr

/-- Why arguments cannot be read. -/
inductive FlagError where
  | badForm (argument : Text)
  | undefined (name : Text)
  | missingValue (name : Text)
  | badSwitch (name value : Text)
  | badNumber (name value : Text) (reason : NumeralError)
  | helpWanted
  deriving DecidableEq, Repr

/-- The wording of a flag error; a call for help has none. -/
def FlagError.message : FlagError → Text
  | .badForm argument => ascii "bad flag syntax: " ++ argument ++ [Text.newline]
  | .undefined name => ascii "flag provided but not defined: -" ++ name ++ [Text.newline]
  | .missingValue name => ascii "flag needs an argument: -" ++ name ++ [Text.newline]
  | .badSwitch name value =>
    ascii "invalid boolean value " ++ Text.quoted value ++ ascii " for -" ++ name
      ++ ascii ": parse error" ++ [Text.newline]
  | .badNumber name value reason =>
    ascii "invalid value " ++ Text.quoted value ++ ascii " for flag -" ++ name ++ ascii ": "
      ++ reason.message ++ [Text.newline]
  | .helpWanted => []

/-- What an argument is. -/
inductive Argument where
  | positional
  | terminator
  | malformed
  | flag (name : Text) (value : Option Text)
  deriving DecidableEq, Repr

namespace Argument

def dash : UInt8 := 45

def equals : UInt8 := 61

/-- Reads a flag without its dashes: a name, and a value after the first `=`. -/
def ofNamed : Text → Argument
  | [] => .malformed
  | b :: rest =>
    if b = dash ∨ b = equals then .malformed
    else match rest.dropWhile (fun c => c != equals) with
      | [] => .flag (b :: rest) none
      | _ :: value => .flag (b :: rest.takeWhile fun c => c != equals) (some value)

/-- What a text is as an argument. -/
def ofText : Text → Argument
  | [] => .positional
  | [_] => .positional
  | a :: b :: rest =>
    if a ≠ dash then .positional
    else if b ≠ dash then ofNamed (b :: rest)
    else if rest.isEmpty then .terminator
    else ofNamed rest

end Argument

/-- The settings that were made, latest first, and the positional arguments. -/
structure Arguments where
  settings : List (Text × Setting) := []
  positional : List Text := []
  deriving DecidableEq, Repr

namespace Arguments

/-- The last setting of a flag. -/
def setting? (a : Arguments) (name : Text) : Option Setting :=
  (a.settings.find? fun s => s.1 == name).map Prod.snd

def isOn (a : Arguments) (name : Text) : Bool := a.setting? name == some (.switch true)

def number (a : Arguments) (name : Text) (default : Int64) : Int64 :=
  match a.setting? name with
  | some (.number value) => value
  | _ => default

def word (a : Arguments) (name : Text) (default : Text) : Text :=
  match a.setting? name with
  | some (.word value) => value
  | _ => default

end Arguments

namespace Setting

def readSwitch? (value : Text) : Option Bool :=
  if ["1", "t", "T", "true", "TRUE", "True"].any fun s => ascii s == value then some true
  else if ["0", "f", "F", "false", "FALSE", "False"].any fun s => ascii s == value then some false
  else none

def read (flag : Flag) (value : Text) : Except FlagError Setting :=
  match flag.kind with
  | .switch =>
    match readSwitch? value with
    | some on => .ok (.switch on)
    | none => .error (.badSwitch flag.name value)
  | .number _ =>
    match Numeral.read value with
    | .ok n => .ok (.number n)
    | .error reason => .error (.badNumber flag.name value reason)
  | .word _ => .ok (.word value)

end Setting

namespace FlagSet

def find? (fs : FlagSet) (name : Text) : Option Flag := fs.flags.find? fun f => f.name == name

/-- The error for a name that no flag has. Help can be called for all the same. -/
def unknown (name : Text) : FlagError :=
  if name = ascii "help" ∨ name = ascii "h" then .helpWanted else .undefined name

/-- The value of a flag, given with it or as the next argument, and the arguments
that are left. -/
def takeValue (flag : Flag) (given : Option Text) (rest : List Text) :
    Except FlagError (Text × List Text) :=
  match given with
  | some value => .ok (value, rest)
  | none =>
    match flag.kind, rest with
    | .switch, rest => .ok (ascii "true", rest)
    | _, value :: rest => .ok (value, rest)
    | _, [] => .error (.missingValue flag.name)

theorem length_takeValue {flag : Flag} {given : Option Text} {rest : List Text}
    {taken : Text × List Text} (h : takeValue flag given rest = .ok taken) :
    taken.2.length ≤ rest.length := by
  unfold takeValue at h
  split at h
  · cases h
    exact Nat.le_refl _
  · split at h
    · cases h
      exact Nat.le_refl _
    · cases h
      exact Nat.le_succ _
    · cases h

/-- Reads arguments, after settings already made. -/
def parseFrom (fs : FlagSet) (settings : List (Text × Setting)) (args : List Text) :
    Except FlagError Arguments :=
  match args with
  | [] => .ok { settings }
  | argument :: rest =>
    match Argument.ofText argument with
    | .positional => .ok ⟨settings, argument :: rest⟩
    | .terminator => .ok ⟨settings, rest⟩
    | .malformed => .error (.badForm argument)
    | .flag name given =>
      match fs.find? name with
      | none => .error (unknown name)
      | some flag =>
        match _ : takeValue flag given rest with
        | .error e => .error e
        | .ok (value, rest₁) =>
          match Setting.read flag value with
          | .error e => .error e
          | .ok setting => fs.parseFrom ((name, setting) :: settings) rest₁
termination_by args.length
decreasing_by
  rename_i h
  have := length_takeValue h
  simp only [List.length_cons] at this ⊢
  omega

def parse (fs : FlagSet) (args : List Text) : Except FlagError Arguments := fs.parseFrom [] args

/-- What the usage text calls the value of a flag. -/
def valueName : FlagKind → Text
  | .switch => []
  | .number _ => ascii " int"
  | .word _ => ascii " string"

/-- The note on a default, if it is worth one. -/
def defaultNote : FlagKind → Text
  | .switch => []
  | .number n => if n = 0 then [] else ascii " (default " ++ Literal.write n ++ ascii ")"
  | .word w => if w.isEmpty then [] else ascii " (default " ++ Text.quoted w ++ ascii ")"

/-- The usage text: every flag with its help. -/
def usage (fs : FlagSet) : Text :=
  ascii "Usage of " ++ fs.command ++ ascii ":\n"
    ++ fs.flags.flatMap fun f =>
      ascii "  -" ++ f.name ++ valueName f.kind ++ ascii "\n    \t" ++ f.help ++ defaultNote f.kind
        ++ [Text.newline]

/-- What is reported when arguments cannot be read. -/
def complaint (fs : FlagSet) (e : FlagError) : Text := e.message ++ fs.usage

end FlagSet

end Polish
