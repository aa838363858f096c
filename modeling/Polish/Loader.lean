import Polish.Statement
import Polish.Volume

/-
  Loading — program files below a root directory

  A loader reads files below its root and no others, and refuses a file that is
  larger than its limit. Whether a file lies below the root is decided by its
  path alone.

  Correspondence (dendron ↔ Lean):
    `NewLoader` ↔ `ofRoot`
    `Resolve`   ↔ `resolve`
    `ReadFile`  ↔ `read`
    `Load`      ↔ `load`
-/

namespace Polish

/-- The root directory of a loader, and the most bytes of a file. -/
structure Loader where
  root : Path
  maxSize : Int64
  deriving DecidableEq, Repr

/-- Why a file cannot be loaded. -/
inductive LoadError where
  | pathEscape
  | fileTooLarge
  | unopened (path : Path) (reason : OpenError)
  | unread (given : Text) (path : Path)
  deriving DecidableEq, Repr

def LoadError.message : LoadError → Text
  | .pathEscape => ascii "source: path escape violation"
  | .fileTooLarge => ascii "source: file size limit exceeded"
  | .unopened path reason =>
    ascii "source: open " ++ path.text ++ ascii ": " ++ reason.message
  | .unread given path =>
    ascii "source: read " ++ given ++ ascii ": read " ++ path.text ++ ascii ": is a directory"

namespace Loader

def defaultMaxSize : Int64 := 5242880

/-- The loader for a root directory, as seen from the working directory. A limit
that is not positive stands for the default. -/
def ofRoot (workingDirectory : Path) (root : Text) (maxSize : Int64) : Loader where
  root := workingDirectory.absolute root
  maxSize := if maxSize ≤ 0 then defaultMaxSize else maxSize

/-- The path of the file that a text names, which must lie below the root. -/
def resolve (l : Loader) (given : Text) : Except LoadError Path :=
  let path :=
    if Path.isRooted given then Path.ofText given else l.root.join (Path.ofText given).text
  if Path.climbs (l.root.relative path).text then .error .pathEscape else .ok path

/-- Reads at most `maxSize + 1` bytes, which is enough to tell whether there are
more than `maxSize`. Beyond the largest integer that number wraps around to a
negative one, and nothing is read. -/
def readEntry (l : Loader) (given : Text) (path : Path) (entry : Entry) : Except LoadError Text :=
  let most := l.maxSize + 1
  if most ≤ 0 then .ok []
  else match entry with
    | .directory => .error (.unread given path)
    | .file content =>
      let data := content.take most.toInt.toNat
      if l.maxSize.toInt < data.length then .error .fileTooLarge else .ok data

def read (l : Loader) (v : Volume) (given : Text) : Except LoadError Text :=
  match l.resolve given with
  | .error e => .error e
  | .ok path =>
    match v.openPath path with
    | .error reason => .error (.unopened path reason)
    | .ok entry => l.readEntry given path entry

def load (l : Loader) (v : Volume) (given : Text) : Except LoadError (List Statement) :=
  (l.read v given).map Statement.ofSource

end Loader

end Polish
