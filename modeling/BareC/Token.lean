/-!
# Tokens

A C source file is read as a list of tokens. A token keeps its spelling, the line it stands on
and the two facts about the space before it that directives depend on: whether it is the first
token of its line, and whether blank space separates it from the token before.

Failures travel inside the list. A token of kind `error` is a *marker*: its text is the message,
and every later stage hands it on until it becomes a diagnostic of the program. That is why no
stage returns an error of its own.
-/

namespace BareC

/-- The number of a line. Lines are counted in 32 bits, so line 0 comes behind line 2³² - 1. -/
abbrev LineNumber := UInt32

/-- Where tokens come from outside, their lines are plain numbers. -/
instance : Coe Nat LineNumber where
  coe := UInt32.ofNat

instance : Coe LineNumber Nat where
  coe := UInt32.toNat

/-- What a token stands for. -/
inductive Token.Kind where
  /-- A name or a keyword. -/
  | ident
  /-- An operator or a single punctuation character. -/
  | punct
  /-- A number or a character constant. -/
  | num
  /-- A string literal; the text holds its decoded contents. -/
  | str
  /-- A marker for something that went wrong; the text holds the message. -/
  | error
  /-- The end of the source. -/
  | eof
  deriving DecidableEq, Repr

/-- One token of the source. -/
structure Token where
  kind : Token.Kind
  text : String
  /-- What a number denotes; nothing reads it from any other token. -/
  value : Int := 0
  line : LineNumber
  /-- No token stands before this one on its line. -/
  startsLine : Bool := false
  /-- Blank space or a comment stands before this token. -/
  spaced : Bool := false
  deriving DecidableEq, Repr

namespace Token

/-- A marker that carries `message`. -/
def marker (message : String) (line : LineNumber) : Token :=
  { kind := .error, text := message, line }

/-- The token that ends every list of tokens. -/
def endOfSource (line : LineNumber) : Token :=
  { kind := .eof, text := "", line, startsLine := true }

/-- The token is the name or operator spelled `s`. A string literal with the same contents is not,
and neither is a marker. -/
def is (t : Token) (s : String) : Bool :=
  (t.kind == .ident || t.kind == .punct) && t.text == s

/-- The first marker of a list of tokens. -/
def firstMarker? (ts : List Token) : Option Token :=
  ts.find? (·.kind == .error)

/-- Some token of the list is a marker. -/
def hasMarker (ts : List Token) : Bool :=
  (firstMarker? ts).isSome

end Token

end BareC
