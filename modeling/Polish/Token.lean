import Polish.Integer.Literal
import Polish.Operator

/-
  Tokens — the words of a program

  The kind of a word depends on its bytes alone: an operator, a keyword, a number,
  a name, or a word that is none of these. The empty word marks the end.

  A token keeps the kind of its word and the place of the word, in numbers of 32
  bits, and its text is what the source has at that place. In a source of 2³² bytes
  or more this can be another text than the word.

  Correspondence (dendron ↔ Lean):
    `Kind`                     ↔ `TokenKind`
    `classify`                 ↔ `TokenKind.ofWord`
    `isNumber`, `isIdentifier` ↔ `TokenKind.isNumber`, `TokenKind.isName`
    `Token`                    ↔ `Lexeme`
    `Statement.Text`           ↔ `Lexeme.slice`
-/

namespace Polish

inductive TokenKind where
  | finish
  | unknown
  | name
  | number
  | assign
  | print
  | unary (op : UnaryOp)
  | binary (op : BinaryOp)
  deriving DecidableEq, Repr

namespace TokenKind

/-- All kinds, in the order of their numbers. -/
def all : List TokenKind :=
  [.finish, .unknown, .name, .number, .assign, .print, .unary .negate, .unary .sqrt,
    .binary .add, .binary .subtract, .binary .multiply, .binary .divide]

def ofCode? (code : Nat) : Option TokenKind := all[code]?

/-- The label of a kind. That of a keyword or an operator is the word itself. -/
def label : TokenKind → Text
  | .finish => ascii "EOF"
  | .unknown => ascii "ERROR"
  | .name => ascii "IDENT"
  | .number => ascii "NUMBER"
  | .assign => ascii ":="
  | .print => ascii "@"
  | .unary .negate => ascii "_"
  | .unary .sqrt => ascii "#"
  | .binary .add => ascii "+"
  | .binary .subtract => ascii "-"
  | .binary .multiply => ascii "*"
  | .binary .divide => ascii "/"

def labelOf? (kind : Option TokenKind) : Text := (kind.map label).getD (ascii "?")

def ofLabel? (label : Text) : Option TokenKind := all.find? fun kind => kind.label == label

def isUnary : TokenKind → Bool
  | .unary _ => true
  | _ => false

def isBinary : TokenKind → Bool
  | .binary _ => true
  | _ => false

def isKeyword : TokenKind → Bool
  | .assign | .print => true
  | _ => false

/-- The kinds that are fixed words. -/
def fixedWords : List TokenKind :=
  [.assign, .print, .unary .negate, .unary .sqrt, .binary .add, .binary .subtract,
    .binary .multiply, .binary .divide]

/-- Whether a byte may stand in a name after its first letter. -/
def isNameByte (b : UInt8) : Bool := Text.isLetter b || Text.isDigit b || b == 95

/-- Whether the word is a name: a letter, then letters, digits and underscores. -/
def isName : Text → Bool
  | [] => false
  | b :: rest => Text.isLetter b && rest.all isNameByte

/-- Whether the word is a number: digits, and at least one, behind a `-` or not. -/
def isNumber (word : Text) : Bool :=
  let digits := if word.head? = some 45 then word.tail else word
  !digits.isEmpty && digits.all Text.isDigit

def ofWord (word : Text) : TokenKind :=
  if word.isEmpty then .finish
  else match fixedWords.find? fun kind => kind.label == word with
    | some kind => kind
    | none =>
      if isNumber word then .number
      else if isName word then .name
      else .unknown

end TokenKind

/-- A word of the source text, the number of bytes before it, and its line,
counted from one. -/
structure Word where
  text : Text
  offset : Nat
  line : Nat
  deriving DecidableEq, Repr

/-- A word as the scanner returns it: its kind and its place. The numbers have 32 bits,
so one that does not fit is cut. -/
structure Lexeme where
  kind : TokenKind
  offset : UInt32
  length : UInt32
  line : UInt32
  deriving DecidableEq, Repr

namespace Word

def length (w : Word) : Nat := w.text.length

def lexeme (w : Word) : Lexeme :=
  ⟨.ofWord w.text, .ofNat w.offset, .ofNat w.length, .ofNat w.line⟩

end Word

/-- The bytes of the source from the offset on, as many as the length says. Where they
end is a number of 32 bits too, and there are none if that is cut. -/
def Lexeme.slice (source : Array UInt8) (l : Lexeme) : Text :=
  (source.extract l.offset.toNat (l.offset + l.length).toNat).toList

/-- A lexeme and the bytes at its place. -/
structure Token extends Lexeme where
  text : Text
  deriving DecidableEq, Repr

/-- The token of a word that stands where its lexeme says. -/
def Word.token (w : Word) : Token := ⟨w.lexeme, w.text⟩

end Polish
