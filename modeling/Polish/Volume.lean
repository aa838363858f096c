import Polish.Path

/-
  Volumes — files and directories

  A volume holds files and directories by the parts of their paths; the root is
  always a directory. Opening a path walks it part by part and fails at the
  first part that cannot be entered or found.
-/

namespace Polish

/-- A file with its content, or a directory. -/
inductive Entry where
  | file (content : Text)
  | directory
  deriving DecidableEq, Repr

/-- Why a path cannot be opened. -/
inductive OpenError where
  | notFound
  | notDirectory
  | invalidArgument
  | nameTooLong
  deriving DecidableEq, Repr

def OpenError.message : OpenError → Text
  | .notFound => ascii "no such file or directory"
  | .notDirectory => ascii "not a directory"
  | .invalidArgument => ascii "invalid argument"
  | .nameTooLong => ascii "file name too long"

/-- The entries of a volume, each with the parts of its path. -/
structure Volume where
  entries : List (List Text × Entry) := []
  deriving DecidableEq, Repr

namespace Volume

def longestName : Nat := 255

def longestPath : Nat := 4095

def get? (v : Volume) (parts : List Text) : Option Entry :=
  if parts = [] then some .directory
  else (v.entries.find? fun entry => entry.1 == parts).map Prod.snd

/-- Walks on from the entry at `walked`. -/
def walk (v : Volume) (walked : List Text) (entry : Entry) :
    List Text → Except OpenError Entry
  | [] => .ok entry
  | part :: rest =>
    if entry ≠ .directory then .error .notDirectory
    else if longestName < part.length then .error .nameTooLong
    else match v.get? (walked ++ [part]) with
      | none => .error .notFound
      | some next => v.walk (walked ++ [part]) next rest

/-- The entry at a path from the root. -/
def openPath (v : Volume) (p : Path) : Except OpenError Entry :=
  if p.text.contains 0 then .error .invalidArgument
  else if longestPath < p.text.length then .error .nameTooLong
  else v.walk [] .directory p.parts

def put (v : Volume) (parts : List Text) (entry : Entry) : Volume :=
  ⟨(parts, entry) :: v.entries.filter fun e => e.1 != parts⟩

/-- The volume with a directory at a path, and at every path above it. -/
def addDirectory (v : Volume) (parts : List Text) : Volume :=
  (List.range (parts.length + 1)).foldl (fun v n =>
    if (v.get? (parts.take n)).isSome then v else v.put (parts.take n) .directory) v

/-- The volume with a file at a path, and directories above it. -/
def addFile (v : Volume) (parts : List Text) (content : Text) : Volume :=
  (v.addDirectory parts.dropLast).put parts (.file content)

/-- The volume after an attempt to write a file: nothing changes if the path is
that of a directory or is not in one. -/
def writeFile (v : Volume) (p : Path) (content : Text) : Volume :=
  match v.openPath p, v.openPath ⟨p.rooted, p.parts.dropLast⟩ with
  | .ok .directory, _ => v
  | .ok (.file _), _ => v.put p.parts (.file content)
  | .error .notFound, .ok .directory => v.put p.parts (.file content)
  | .error _, _ => v

end Volume

end Polish
