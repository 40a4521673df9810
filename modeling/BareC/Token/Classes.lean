/-!
# Characters of C source

Which characters separate tokens, which build words, numbers and operators, and what an escape
inside a literal stands for. The source is a string of bytes and each byte is read as the character
of that code, so every class here is one of ASCII: a byte from 128 up belongs to none of them.
-/

namespace BareC.Token

/-- The byte with the code of the character it stands for. -/
def charOfByte (b : UInt8) : Char :=
  Char.ofNat b.toNat

/-- White space inside a line. -/
def isBlank (c : Char) : Bool :=
  c == ' ' || c == '\t' || c == '\r' || c == '\x0b' || c == '\x0c'

def isAscii (c : Char) : Bool :=
  c.toNat < 128

/-- A letter or an underscore begins a word. -/
def isWordStart (c : Char) : Bool :=
  c.isAlpha || c == '_'

/-- Digits may follow the first character of a word. -/
def isWordPart (c : Char) : Bool :=
  c.isAlphanum || c == '_'

/-- The four runs of ASCII punctuation. -/
def isPunctuation (c : Char) : Bool :=
  ('!' ≤ c && c ≤ '/') || (':' ≤ c && c ≤ '@') || ('[' ≤ c && c ≤ '\x60') || ('\x7b' ≤ c && c ≤ '~')

/-- The value of a digit in any of the radices up to sixteen. -/
def digitValue (c : Char) : Nat :=
  if c.isDigit then c.toNat - '0'.toNat
  else if 'a' ≤ c && c ≤ 'f' then c.toNat - 'a'.toNat + 10
  else if 'A' ≤ c && c ≤ 'F' then c.toNat - 'A'.toNat + 10
  else 16

/-- A digit of `radix`. -/
def isDigitOf (radix : Nat) (c : Char) : Bool :=
  digitValue c < radix

/-- The letters that may end an integer literal. -/
def isIntegerSuffix (c : Char) : Bool :=
  c == 'u' || c == 'U' || c == 'l' || c == 'L'

/-- A number that runs into one of these is not a number. -/
def continuesNumber (c : Char) : Bool :=
  isWordPart c || c == '.'

/-- What a backslash followed by the character stands for inside a literal. -/
def escape? : Char → Option Char
  | 'n' => some '\n'
  | 't' => some '\t'
  | 'r' => some '\r'
  | '0' => some '\x00'
  | 'a' => some '\x07'
  | 'b' => some '\x08'
  | 'f' => some '\x0c'
  | 'v' => some '\x0b'
  | '\\' => some '\\'
  | '\'' => some '\''
  | '"' => some '"'
  | '?' => some '?'
  | _ => none

/-- Operators of three characters. -/
def operators3 : List (List Char) :=
  [['<', '<', '='], ['>', '>', '='], ['.', '.', '.']]

/-- Operators of two characters. -/
def operators2 : List (List Char) :=
  [['=', '='], ['!', '='], ['<', '='], ['>', '='], ['&', '&'], ['|', '|'], ['<', '<'], ['>', '>'],
   ['+', '='], ['-', '='], ['*', '='], ['/', '='], ['%', '='], ['&', '='], ['|', '='], ['^', '='],
   ['+', '+'], ['-', '-'], ['-', '>'], ['#', '#']]

/-- The length of the longest operator at the head of the source; one character of punctuation is
always an operator of its own. -/
def operatorLength (s : List Char) : Nat :=
  if operators3.any (·.isPrefixOf s) then 3
  else if operators2.any (·.isPrefixOf s) then 2
  else 1

end BareC.Token
