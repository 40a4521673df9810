import BareC.Syntax
import BareC.Token

/-!
# Reading tokens

A parser reads from a cursor, which holds the tokens ahead and how many braces are open behind it. A
parser that fails says where it was: the cursor at the place of failure is what recovery starts
from. The end of the source is never passed, so there is always a token to look at.
-/

namespace BareC.Grammar

/-- A place among the tokens. -/
structure Cursor where
  /-- The tokens that are left; the end of the source is the last of them. -/
  ahead : List Token
  /-- The number of braces open. -/
  depth : Nat := 0
  deriving Repr

namespace Cursor

/-- The tokens up to the first end of source, one being supplied on the last line if there is
none. -/
def cut (line : LineNumber) : List Token → List Token
  | [] => [.endOfSource line]
  | t :: ts => if t.kind = .eof then [t] else t :: cut t.line ts

def ofTokens (ts : List Token) : Cursor :=
  ⟨cut 1 ts, 0⟩

/-- The next token. -/
def next (c : Cursor) : Token :=
  c.ahead.headD (.endOfSource 1)

def atEnd (c : Cursor) : Bool :=
  c.next.kind == .eof

/-- The braces open behind a token. -/
def depthAfter (depth : Nat) (t : Token) : Nat :=
  if t.is "\x7b" then depth + 1 else if t.is "\x7d" then depth - 1 else depth

/-- The place behind the next token, or the same place at the end. -/
def advance (c : Cursor) : Cursor :=
  match c.ahead with
  | [] => c
  | t :: ts => if t.kind = .eof then c else ⟨ts, depthAfter c.depth t⟩

end Cursor

/-- Why and where a parser failed. -/
structure Failure where
  diagnostic : Diagnostic
  cursor : Cursor
  deriving Repr

/-- A parser of values of type `α`. -/
abbrev Parser := StateT Cursor (Except Failure)

namespace Parser

/-- The next token, left where it is. -/
def peek : Parser Token := do
  return (← get).next

/-- Takes the next token. -/
def advance : Parser Token := do
  let c ← get
  set c.advance
  return c.next

/-- Fails with a fault on a given line. -/
def failOn {α : Type} (line : LineNumber) (fault : SyntaxFault) : Parser α := do
  throw ⟨⟨fault, line⟩, ← get⟩

/-- Fails at the next token. If that is a marker, its message is the one to report. -/
def fail {α : Type} (fault : SyntaxFault) : Parser α := do
  let t ← peek
  failOn t.line (if t.kind = .error then .marker t.text else fault)

/-- The next token is spelled so. -/
def sees (s : String) : Parser Bool := do
  return (← peek).is s

/-- Takes the next token if it is spelled so. -/
def accept (s : String) : Parser Bool := do
  if ← sees s then
    let _ ← advance
    return true
  else return false

/-- Takes a token that has to be there. -/
def expect (s : String) : Parser Unit := do
  unless ← accept s do fail (.expected s)

/-- Passes over tokens as long as `p` holds of them. -/
def skipWhile (p : Token → Bool) : Parser Unit :=
  modify fun c => { c with ahead := c.ahead.dropWhile p }

/-- Takes the next token if it is one of those listed, and returns what it is listed with. -/
def acceptOne {α : Type} (table : List (String × α)) : Parser (Option α) := do
  let t ← peek
  match table.find? fun entry => t.is entry.1 with
  | none => return none
  | some (_, a) =>
    let _ ← advance
    return some a

/-- The same without taking it. -/
def seesOne {α : Type} (table : List (String × α)) : Parser (Option α) := do
  let t ← peek
  return (table.find? fun entry => t.is entry.1).map (·.2)

end Parser

/-! ## Words -/

/-- The words that a type is made of. -/
def typeWords : List String :=
  ["int", "char", "short", "long", "void", "signed", "unsigned"]

/-- Words of C for which there is no meaning here. -/
def unsupportedWords : List String :=
  ["switch", "case", "default", "goto", "struct", "union", "enum", "typedef", "static", "extern",
   "const", "volatile", "sizeof", "float", "double"]

/-- The words of statements. -/
def controlWords : List String :=
  ["return", "if", "else", "while", "do", "for", "break", "continue"]

/-- A word that cannot be a name. -/
def isKeyword (word : String) : Bool :=
  typeWords.contains word || unsupportedWords.contains word || controlWords.contains word

def isTypeWord (t : Token) : Bool :=
  typeWords.any t.is

/-- The unsupported word that a token is. -/
def unsupportedWord? (t : Token) : Option String :=
  unsupportedWords.find? t.is

/-- A token that can be a name. -/
def isName (t : Token) : Bool :=
  t.kind = .ident && !isKeyword t.text

namespace Parser

/-- Takes a name. -/
def name : Parser Token := do
  if isName (← peek) then advance else fail .expectedIdentifier

/-- Fails on a word that has no meaning here. -/
def refuseUnsupported : Parser Unit := do
  if let some word := unsupportedWord? (← peek) then fail (.unsupported word)

end Parser

end BareC.Grammar
