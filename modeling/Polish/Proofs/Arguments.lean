import Mathlib.Data.List.Basic
import Polish.CommandLine
import Polish.Session.History

/-
  Arguments — a file may stand before or after the flags

  A file in front of the flags is taken off before they are read. A file behind
  them is what the flags leave over. The two orders take different ways through
  `readArguments`, and the flags are read from different lists: behind a flag that
  takes the next argument, or behind `--`, the file must not be taken for something
  else.

  What is proved:
    1. `takeValue_append` — a flag that finds its value takes the same one whatever
       follows.
    2. `parseFrom_append` — arguments that leave nothing over are read alike in
       front of a positional argument, which they leave over.
    3. `readArguments_first` and `readArguments_last` — the file in either place,
       with the same settings.
    4. `file_first_or_last` — every command on a file then does the same.
-/

namespace Polish

namespace Argument

/-- Only a text that starts with a dash can be anything but a positional argument. -/
theorem ofText_of_head {t : Text} (h : t.head? ≠ some dash) : ofText t = .positional := by
  cases t with
  | nil => rfl
  | cons a rest =>
    have ha : a ≠ dash := fun heq => h (by rw [heq, List.head?_cons])
    cases rest with
    | nil => rfl
    | cons b rest => rw [ofText, if_pos ha]

end Argument

namespace FlagSet

theorem takeValue_append {flag : Flag} {given : Option Text} {rest rest₁ : List Text}
    {value : Text} (h : takeValue flag given rest = .ok (value, rest₁)) (more : List Text) :
    takeValue flag given (rest ++ more) = .ok (value, rest₁ ++ more) := by
  unfold takeValue at h ⊢
  cases given with
  | some given =>
    cases h
    rfl
  | none =>
    cases hkind : flag.kind with
    | switch =>
      rw [hkind] at h
      cases h
      rfl
    | number _ | word _ =>
      rw [hkind] at h
      cases rest with
      | nil => cases h
      | cons first rest =>
        cases h
        rfl

theorem parseFrom_flag {fs : FlagSet} {argument name value : Text} {given : Option Text}
    {flag : Flag} {setting : Setting} {rest rest₁ : List Text}
    (hargument : Argument.ofText argument = .flag name given) (hfind : fs.find? name = some flag)
    (htake : takeValue flag given rest = .ok (value, rest₁))
    (hread : Setting.read flag value = .ok setting) (settings : List (Text × Setting)) :
    fs.parseFrom settings (argument :: rest) =
      fs.parseFrom ((name, setting) :: settings) rest₁ := by
  rw [parseFrom, hargument]
  simp only [hfind]
  split
  · next e herror =>
    rw [htake] at herror
    cases herror
  · next value' rest' htaken =>
    rw [htake] at htaken
    cases htaken
    simp only [hread]

/-- Arguments that leave nothing over are read alike in front of a positional
argument, and leave it over with all that follows. -/
theorem parseFrom_append {fs : FlagSet} {settings settings' : List (Text × Setting)}
    {args : List Text} (h : fs.parseFrom settings args = .ok ⟨settings', []⟩) {file : Text}
    (hfile : Argument.ofText file = .positional) (more : List Text) :
    fs.parseFrom settings (args ++ file :: more) = .ok ⟨settings', file :: more⟩ := by
  fun_induction FlagSet.parseFrom fs settings args with
  | case1 settings =>
    cases h
    rw [List.nil_append, parseFrom, hfile]
  | case3 settings argument rest hargument =>
    -- nothing stands behind the terminator
    cases h
    rw [List.cons_append, parseFrom, hargument, List.nil_append]
  | case8 settings argument rest name given hargument flag hfind value rest₁ htake setting hread
      ih =>
    rw [List.cons_append,
      parseFrom_flag hargument hfind (takeValue_append htake (file :: more)) hread]
    exact ih h
  | case2 | case4 | case5 | case6 | case7 => cases h

theorem head_of_parseFrom {fs : FlagSet} {settings settings' : List (Text × Setting)}
    {first : Text} {rest : List Text}
    (h : fs.parseFrom settings (first :: rest) = .ok ⟨settings', []⟩) :
    first.head? = some Argument.dash := by
  by_contra hdash
  rw [parseFrom, Argument.ofText_of_head hdash] at h
  cases h

end FlagSet

namespace CommandLine

/-- A text that can name a file in front of the flags. -/
structure IsFileName (file : Text) : Prop where
  nonempty : file ≠ []
  undashed : file.head? ≠ some Argument.dash

variable {fs : FlagSet} {file : Text} {args : List Text} {settings : List (Text × Setting)}

theorem IsFileName.leadingFile (h : IsFileName file) (args : List Text) :
    leadingFile (file :: args) = (file, args) := by
  rw [CommandLine.leadingFile, if_neg h.undashed]

theorem readArguments_first (hfile : IsFileName file) {a : Arguments} (h : fs.parse args = .ok a) :
    readArguments fs (file :: args) = .ok (file, a) := by
  have hnonempty : file.isEmpty = false := List.isEmpty_eq_false_iff.mpr hfile.nonempty
  simp only [readArguments, hfile.leadingFile, h, hnonempty, Bool.false_eq_true, if_false]

/-- A file behind the flags, with the same settings. Without any flags it stands in
front of them as well, and is not left over. -/
theorem readArguments_last (hfile : IsFileName file) (h : fs.parse args = .ok ⟨settings, []⟩) :
    ∃ positional, readArguments fs (args ++ [file]) = .ok (file, ⟨settings, positional⟩) := by
  cases args with
  | nil => exact ⟨[], readArguments_first hfile h⟩
  | cons first rest =>
    have hnonempty : file.isEmpty = false := List.isEmpty_eq_false_iff.mpr hfile.nonempty
    have hparse : fs.parse (first :: (rest ++ [file])) = .ok ⟨settings, [file]⟩ :=
      FlagSet.parseFrom_append h (Argument.ofText_of_head hfile.undashed) []
    refine ⟨[file], ?_⟩
    simp only [List.cons_append, readArguments, leadingFile, FlagSet.head_of_parseFrom h, if_true,
      hparse, List.isEmpty_nil, List.head?_cons, Option.getD_some, hnonempty, Bool.false_eq_true,
      if_false]

/-! ## Commands on a file -/

inductive FileCommand where
  | run
  | list
  | outline
  | interpret
  deriving DecidableEq, Repr

namespace FileCommand

def word : FileCommand → Text
  | .run => ascii "run"
  | .list => ascii "list"
  | .outline => ascii "infix"
  | .interpret => ascii "interpret"

def flags (p : Place) : FileCommand → FlagSet
  | .run => runFlags p
  | .list => listFlags p
  | .outline => loaderFlags p (word .outline)
  | .interpret => loaderFlags p (word .interpret)

/-- What a command does with the content of its file. -/
def use : FileCommand → Arguments → Text → Outcome
  | .run, a =>
    let o := RunOptions.ofArguments a
    if o.asListing then runListing o else runSource o
  | .list, a => CommandLine.list (a.isOn (ascii "raw"))
  | .outline, _ => CommandLine.outline
  | .interpret, _ => CommandLine.interpret

theorem plan_word (p : Place) (command : FileCommand) (args : List Text) :
    plan p (command.word :: args) = planFile p (command.flags p) args command.use := by
  cases command <;> rfl

/-- What is left over beside the settings makes no difference. -/
theorem use_positional (command : FileCommand) (settings : List (Text × Setting))
    (positional : List Text) :
    command.use ⟨settings, positional⟩ = command.use ⟨settings, []⟩ := by
  cases command <;> rfl

theorem plan_of_readArguments {p : Place} {command : FileCommand} {positional : List Text}
    (h : readArguments (command.flags p) args = .ok (file, ⟨settings, positional⟩)) :
    plan p (command.word :: args) =
      .load (loaderOf p ⟨settings, []⟩) file (command.use ⟨settings, []⟩) := by
  rw [plan_word, planFile, h]
  show Plan.load (loaderOf p ⟨settings, []⟩) file (command.use ⟨settings, positional⟩) = _
  rw [use_positional]

end FileCommand

/-- For every command on a file, in every place, with any files and any editor: if its
flags are read from `args` and leave nothing over, then a file in front of `args` and
the same file behind them ask for the same, namely to load it with the settings of
`args`. So exit code, output, error output and the files afterwards are the same. -/
theorem file_first_or_last {η : Type} (editor : Editor η) (p : Place) (v : Volume) (input : Text)
    (command : FileCommand) {file : Text} {args : List Text} {a : Arguments}
    (hfile : IsFileName file) (hparse : (command.flags p).parse args = .ok a)
    (hnone : a.positional = []) :
    perform editor p v input (command.word :: file :: args) =
      perform editor p v input (command.word :: (args ++ [file])) ∧
    plan p (command.word :: file :: args) = .load (loaderOf p a) file (command.use a) := by
  obtain ⟨settings, positional⟩ := a
  cases hnone
  obtain ⟨positional, hlast⟩ := readArguments_last hfile hparse
  have hplanFirst := FileCommand.plan_of_readArguments (readArguments_first hfile hparse)
  have hplanLast := FileCommand.plan_of_readArguments hlast
  refine ⟨?_, hplanFirst⟩
  rw [perform, perform, hplanFirst, hplanLast]

/-- A working directory with one program in it. -/
def workshop : Place := ⟨⟨true, [ascii "srv"]⟩, none⟩

def workshopFiles : Volume := Volume.addFile {} [ascii "srv", ascii "a.dd"] (ascii "@ 7\n")

/-- Flags of each kind, some of them given twice, and the end of the flags. -/
def mixedFlags : List Text :=
  ["-max-size", "0x10", "--quiet=f", "-root=/", "-list", "-max-size=4", "-quiet", "--"].map ascii

def mixedSettings : List (Text × Setting) :=
  [(ascii "quiet", .switch true), (ascii "max-size", .number 4), (ascii "list", .switch true),
    (ascii "root", .word (ascii "/")), (ascii "quiet", .switch false),
    (ascii "max-size", .number 16)]

/-- The file is loaded from behind the end of the flags, and from in front of them
with the same output. -/
theorem file_first_or_last_mixedFlags :
    IsFileName (ascii "/srv/a.dd") ∧
    (FileCommand.run.flags workshop).parse mixedFlags = .ok ⟨mixedSettings, []⟩ ∧
    perform .plain workshop workshopFiles [] (ascii "run" :: ascii "/srv/a.dd" :: mixedFlags) =
      perform .plain workshop workshopFiles []
        (ascii "run" :: (mixedFlags ++ [ascii "/srv/a.dd"])) ∧
    (perform .plain workshop workshopFiles [] (ascii "run" :: ascii "/srv/a.dd" :: mixedFlags)).1 =
      { out := ascii "\nCompiled code:\nPUSH 7\nPRINT\n\n*** 7\n" } := by
  have hfile : IsFileName (ascii "/srv/a.dd") := ⟨by decide, by decide⟩
  have hparse : (FileCommand.run.flags workshop).parse mixedFlags = .ok ⟨mixedSettings, []⟩ := by
    decide +kernel
  have hsame := (file_first_or_last .plain workshop workshopFiles [] .run hfile hparse rfl).1
  refine ⟨hfile, hparse, hsame, ?_⟩
  rw [show ascii "run" = FileCommand.run.word from rfl, hsame]
  decide +kernel

end CommandLine

end Polish
