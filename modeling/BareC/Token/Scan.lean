import BareC.Bytes
import BareC.Token
import BareC.Token.Classes

/-!
# From source bytes to tokens

`Token.scan` reads the longest item at the head of the source: a piece of white space, a token or a
fault. `Token.ofSource` repeats it and attaches to each token its line and the space before it.

Reading ends at the first fault. The tokens read so far then end in a marker with the fault's
message, and in every case the end-of-source token closes the list. The rest that an item leaves is
never longer than what followed its first character (`scan_rest_length_le`), which is why the
repetition ends.
-/

namespace BareC.Token

/-- What can be wrong with the bytes of a source. -/
inductive Fault where
  | unexpectedCharacter
  | unterminatedComment
  | literalTooLarge
  | noHexDigits
  | malformedNumber
  | unterminatedString
  | malformedCharacter
  | unterminatedCharacter
  deriving DecidableEq, Repr

/-- The wording of a fault. -/
def Fault.message : Fault → String
  | .unexpectedCharacter => "unexpected character"
  | .unterminatedComment => "unterminated block comment"
  | .literalTooLarge => "integer literal is too large"
  | .noHexDigits => "invalid hexadecimal literal"
  | .malformedNumber => "invalid numeric literal"
  | .unterminatedString => "unterminated string literal"
  | .malformedCharacter => "invalid character literal"
  | .unterminatedCharacter => "unterminated character literal"

/-- The first item of a source and the source behind it. -/
inductive Scan where
  /-- The end of a line. -/
  | newline (rest : List Char)
  /-- A backslash at the end of a line, which joins it to the next. -/
  | splice (rest : List Char)
  /-- White space or a comment, with the number of line ends inside it. -/
  | blank (lines : Nat) (rest : List Char)
  | token (kind : Kind) (text : List Char) (value : Nat) (rest : List Char)
  /-- Nothing can be read here. The fault is reported `lines` lines further down. -/
  | fault (cause : Fault) (lines : Nat)

/-- The source behind the item; a fault leaves nothing to read. -/
def Scan.rest : Scan → List Char
  | .newline rest | .splice rest | .blank _ rest | .token _ _ _ rest => rest
  | .fault _ _ => []

/-! ## The items -/

/-- The rest of a comment after its opening. The line ends inside it are counted, except that one at
the very end of a source is not when the comment is never closed. -/
def scanComment (lines : Nat) : List Char → Scan
  | '*' :: '/' :: rest => .blank lines rest
  | c :: d :: rest => scanComment (if c == '\n' then lines + 1 else lines) (d :: rest)
  | _ => .fault .unterminatedComment lines

/-- The first value that no integer literal may reach. -/
def literalLimit : Nat := 0x100000000

/-- The value of a run of digits after digits worth `start`. It stays at the limit once it has
reached it, so that a long run of digits costs no more than a short one. -/
def digitsValue (radix start : Nat) (digits : List Char) : Nat :=
  digits.foldl (fun v c => min (v * radix + digitValue c) literalLimit) start

/-- The rest of a number spelled so far as `lead`, which is worth `start`. -/
def scanDigits (radix : Nat) (lead : List Char) (start : Nat) (s : List Char) : Scan :=
  let digits := s.takeWhile (isDigitOf radix)
  let after := s.dropWhile (isDigitOf radix)
  let value := digitsValue radix start digits
  let suffix := after.takeWhile isIntegerSuffix
  let rest := after.dropWhile isIntegerSuffix
  if literalLimit ≤ value then .fault .literalTooLarge 0
  else if radix == 16 && digits.isEmpty then .fault .noHexDigits 0
  else if rest.head?.any continuesNumber then .fault .malformedNumber 0
  else .token .num (lead ++ digits ++ suffix) value rest

/-- A number that begins with the digit `c`: hexadecimal after `0x`, octal after any other zero. -/
def scanNumber (c : Char) (s : List Char) : Scan :=
  match c, s with
  | '0', 'x' :: rest => scanDigits 16 ['0', 'x'] 0 rest
  | '0', 'X' :: rest => scanDigits 16 ['0', 'X'] 0 rest
  | '0', rest => scanDigits 8 ['0'] 0 rest
  | c, rest => scanDigits 10 [c] (digitValue c) rest

/-- The contents of a string literal up to its closing quote, `read` being what was read so far in
reverse. -/
def scanString (read : List Char) : List Char → Scan
  | '"' :: rest => .token .str read.reverse 0 rest
  | '\\' :: c :: rest =>
    match escape? c with
    | some d => scanString (d :: read) rest
    | none => .fault .unterminatedString 0
  | c :: rest =>
    if c == '\n' || c == '\\' || !isAscii c then .fault .unterminatedString 0
    else scanString (c :: read) rest
  | [] => .fault .unterminatedString 0

/-- The closing quote of a character constant. -/
def closeCharacter (text : List Char) (c : Char) : List Char → Scan
  | '\'' :: rest => .token .num text c.toNat rest
  | _ => .fault .unterminatedCharacter 0

/-- A character constant after its opening quote. -/
def scanCharacter : List Char → Scan
  | '\\' :: c :: rest =>
    match escape? c with
    | some d => closeCharacter ['\'', '\\', c, '\''] d rest
    | none => .fault .malformedCharacter 0
  | c :: rest =>
    if c == '\'' || c == '\n' || c == '\\' || !isAscii c then .fault .malformedCharacter 0
    else closeCharacter ['\'', c, '\''] c rest
  | [] => .fault .malformedCharacter 0

/-- A word that begins with `c`. -/
def scanWord (c : Char) (s : List Char) : Scan :=
  .token .ident (c :: s.takeWhile isWordPart) 0 (s.dropWhile isWordPart)

/-- An operator that begins with `c`. -/
def scanOperator (c : Char) (s : List Char) : Scan :=
  let further := operatorLength (c :: s) - 1
  .token .punct (c :: s.take further) 0 (s.drop further)

/-- The item that begins with `c`. -/
def scan (c : Char) (s : List Char) : Scan :=
  match c, s with
  | '\n', rest => .newline rest
  | '\\', '\n' :: rest => .splice rest
  | '/', '/' :: rest => .blank 0 (rest.dropWhile (· != '\n'))
  | '/', '*' :: rest => scanComment 0 rest
  | '"', rest => scanString [] rest
  | '\'', rest => scanCharacter rest
  | c, rest =>
    if isBlank c then .blank 0 rest
    else if c.isDigit then scanNumber c rest
    else if isWordStart c then scanWord c rest
    else if isPunctuation c then scanOperator c rest
    else .fault .unexpectedCharacter 0

/-! ## What an item leaves -/

private theorem length_dropWhile_le (p : Char → Bool) (s : List Char) :
    (s.dropWhile p).length ≤ s.length :=
  (List.dropWhile_sublist p).length_le

/-- What is left behind a comment is no longer than what it began with. -/
theorem scanComment_rest_length_le (lines : Nat) (s : List Char) :
    (scanComment lines s).rest.length ≤ s.length := by
  fun_induction scanComment lines s <;> simp_all [Scan.rest] <;> omega

/-- As `scanComment_rest_length_le`, for digits with their suffix. -/
theorem scanDigits_rest_length_le (radix : Nat) (lead : List Char) (start : Nat) (s : List Char) :
    (scanDigits radix lead start s).rest.length ≤ s.length := by
  have h := Nat.le_trans (length_dropWhile_le isIntegerSuffix _)
    (length_dropWhile_le (isDigitOf radix) s)
  simp only [scanDigits]
  split
  · simp [Scan.rest]
  · split
    · simp [Scan.rest]
    · split
      · simp [Scan.rest]
      · exact h

/-- As `scanComment_rest_length_le`, for a number of any radix. -/
theorem scanNumber_rest_length_le (c : Char) (s : List Char) :
    (scanNumber c s).rest.length ≤ s.length := by
  unfold scanNumber
  split
  · exact Nat.le_succ_of_le (scanDigits_rest_length_le ..)
  · exact Nat.le_succ_of_le (scanDigits_rest_length_le ..)
  · exact scanDigits_rest_length_le ..
  · exact scanDigits_rest_length_le ..

/-- As `scanComment_rest_length_le`, for the text of a string. -/
theorem scanString_rest_length_le (read s : List Char) :
    (scanString read s).rest.length ≤ s.length := by
  fun_induction scanString read s <;> simp_all [Scan.rest] <;> omega

/-- As `scanComment_rest_length_le`, for the quote that ends a character. -/
theorem closeCharacter_rest_length_le (text : List Char) (c : Char) (s : List Char) :
    (closeCharacter text c s).rest.length ≤ s.length := by
  unfold closeCharacter
  split <;> simp [Scan.rest]

/-- As `scanComment_rest_length_le`, for a character. -/
theorem scanCharacter_rest_length_le (s : List Char) :
    (scanCharacter s).rest.length ≤ s.length := by
  unfold scanCharacter
  split
  · split
    · exact Nat.le_succ_of_le (Nat.le_succ_of_le (closeCharacter_rest_length_le ..))
    · simp [Scan.rest]
  · split
    · simp [Scan.rest]
    · exact Nat.le_succ_of_le (closeCharacter_rest_length_le ..)
  · simp [Scan.rest]

/-- An item takes at least its first character. -/
theorem scan_rest_length_le (c : Char) (s : List Char) :
    (scan c s).rest.length ≤ s.length := by
  unfold scan
  split
  · simp [Scan.rest]
  · simp [Scan.rest]
  · exact Nat.le_succ_of_le (length_dropWhile_le ..)
  · exact Nat.le_succ_of_le (scanComment_rest_length_le ..)
  · exact scanString_rest_length_le ..
  · exact scanCharacter_rest_length_le ..
  · split
    · simp [Scan.rest]
    · split
      · exact scanNumber_rest_length_le ..
      · split
        · exact length_dropWhile_le ..
        · split
          · simp [scanOperator, Scan.rest]
          · simp [Scan.rest]

/-! ## The whole source -/

/-- Where reading stands: the line, and what has come since the last token. -/
structure Position where
  line : LineNumber := 1
  startsLine : Bool := true
  spaced : Bool := false

/-- Reads the items of `s` from position `p` on and adds their tokens to those `read` so far. -/
def scanAll (p : Position) (s : List Char) (read : Array Token) : Array Token :=
  match s with
  | [] => read.push (endOfSource p.line)
  | c :: s =>
    match h : scan c s with
    | .newline rest => scanAll ⟨p.line + 1, true, false⟩ rest read
    | .splice rest => scanAll { p with line := p.line + 1 } rest read
    | .blank lines rest =>
      scanAll { p with line := p.line + .ofNat lines, spaced := true } rest read
    | .token kind text value rest =>
      let t : Token := ⟨kind, String.ofList text, value, p.line, p.startsLine, p.spaced⟩
      scanAll ⟨p.line, false, false⟩ rest (read.push t)
    | .fault cause lines =>
      let line := p.line + .ofNat lines
      (read.push { marker cause.message line with startsLine := p.startsLine }).push
        (endOfSource line)
termination_by s.length
decreasing_by
  all_goals
    have shorter := scan_rest_length_le c s
    rw [h] at shorter
    exact Nat.lt_succ_of_le shorter

/-- The tokens of a source. The last one is its end, and a marker can only stand before that. -/
def ofSource (source : Bytes) : List Token :=
  (scanAll {} (source.map charOfByte) #[]).toList

end BareC.Token
