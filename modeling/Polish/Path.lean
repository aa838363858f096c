import Polish.Text

/-
  Paths — file names, by their text alone

  A path is rooted or not, and has parts. Reading a path drops empty parts and
  `.`, and lets `..` take away the part before it; at the root there is nothing
  to take away, and elsewhere a `..` with nothing before it is kept. No file is
  looked at.
-/

namespace Polish

/-- A path: whether it starts at the root, and its parts. -/
structure Path where
  rooted : Bool
  parts : List Text
  deriving DecidableEq, Repr

namespace Path

/-- The byte `/`, which stands between parts. -/
def separator : UInt8 := 47

/-- The part that stands for the directory itself. -/
def here : Text := ascii "."

/-- The part that stands for the directory above. -/
def above : Text := ascii ".."

/-- Takes one more part; `parts` holds those before it, last first. -/
def follow (rooted : Bool) (parts : List Text) (part : Text) : List Text :=
  if part = [] ∨ part = here then parts
  else if part = above then
    match parts with
    | [] => if rooted then [] else [above]
    | last :: before => if last = above then above :: parts else before
  else part :: parts

def isRooted (t : Text) : Bool := t.head? == some separator

def ofText (t : Text) : Path :=
  let rooted := isRooted t
  ⟨rooted, ((t.splitOn separator).foldl (follow rooted) []).reverse⟩

/-- The shortest text of a path. -/
def text (p : Path) : Text :=
  let joined := Text.joinWith [separator] p.parts
  if p.rooted then separator :: joined
  else if p.parts.isEmpty then here
  else joined

/-- The path that a text names as seen from the directory `base`. -/
def join (base : Path) (t : Text) : Path := ofText (base.text ++ [separator] ++ t)

/-- The path that a text names when `base` is the working directory. -/
def absolute (base : Path) (t : Text) : Path := if isRooted t then ofText t else base.join t

/-- The parts of two paths after those that they share. -/
def dropShared : List Text → List Text → List Text × List Text
  | a :: as, b :: bs => if a = b then dropShared as bs else (a :: as, b :: bs)
  | as, bs => (as, bs)

/-- The way from one path to another: up as far as needed, then down. -/
def relative (base target : Path) : Path :=
  let (up, down) := dropShared base.parts target.parts
  ⟨false, up.map (fun _ => above) ++ down⟩

/-- Whether the text of a path starts with the directory above. -/
def climbs (t : Text) : Bool := t == above || (above ++ [separator]).isPrefixOf t

end Path

end Polish
