import BareC.Proofs.Lexing.Readings
import Mathlib.Data.List.Induction
import Mathlib.Data.Nat.Digits.Defs

/-!
# Reading back what was written

Every class of tokens has a way to be written, and tokens written one behind the other with a blank
between them are read back as they were (`ofSource_written`). A blank is enough: no number, no word
and no operator reaches over it, and what is between quotes is closed before it.

`Lexeme` is what can be written. It is not the output of the scanner in another form: numbers are
kept as the digits of their radix, character constants and strings as what they mean.
`Lexeme.scan_chars` is the step, one case for each class, and the list follows from it.

All is written on one line, with escapes where a character needs one, and in the basic set of
characters. So the lines of the tokens are all the first, and of what a source could look like
otherwise nothing is shown: the same tokens can be written in many other ways.
-/

namespace BareC.Token

/-! ## What can be written -/

/-- How the digits of a number are to be read. -/
inductive Radix where
  | decimal
  | octal
  | hexadecimal (capital : Bool)
  deriving DecidableEq, Repr

namespace Radix

def base : Radix → Nat
  | decimal => 10
  | octal => 8
  | hexadecimal _ => 16

/-- What is written in front of the digits. -/
def lead : Radix → List Char
  | decimal => []
  | octal => ['0']
  | hexadecimal false => ['0', 'x']
  | hexadecimal true => ['0', 'X']

/-- The digits can stand behind the lead. A decimal number does not begin with a zero, since that
leads an octal one, which needs no digit besides. -/
def Admits (digits : List Char) : Radix → Prop
  | decimal => digits ≠ [] ∧ digits.head? ≠ some '0'
  | octal => True
  | hexadecimal _ => digits ≠ []

/-- The number that digits stand for, the highest first. -/
def valueOf (radix : Radix) (digits : List Char) : Nat :=
  Nat.ofDigits radix.base (digits.reverse.map digitValue)

end Radix

/-- A token as it is to be written. -/
inductive Lexeme where
  | word (w : List Char)
  | operator (op : List Char)
  | number (radix : Radix) (digits suffix : List Char)
  /-- A character constant: what is written between its quotes, and the character that is meant. -/
  | character (written : List Char) (meant : Char)
  | string (contents : List Char)
  deriving DecidableEq, Repr

/-- A character of a string with a backslash where it needs one. -/
def escaped (c : Char) : List Char :=
  if c = '\n' then ['\\', 'n'] else if c = '"' ∨ c = '\\' then ['\\', c] else [c]

namespace Lexeme

/-- How a lexeme is written. -/
def chars : Lexeme → List Char
  | word w => w
  | operator op => op
  | number radix digits suffix => radix.lead ++ digits ++ suffix
  | character written _ => '\'' :: (written ++ ['\''])
  | string contents => '"' :: (contents.flatMap escaped ++ ['"'])

def kind : Lexeme → Kind
  | word _ => .ident
  | operator _ => .punct
  | number .. | character .. => .num
  | string _ => .str

/-- The text of the token: what is written, except that a string is its contents. -/
def text : Lexeme → List Char
  | string contents => contents
  | lexeme => lexeme.chars

/-- The value of the token; only a number has one. -/
def value : Lexeme → Nat
  | number radix digits _ => radix.valueOf digits
  | character _ meant => meant.toNat
  | _ => 0

/-- The lexeme belongs to its class. -/
def Proper : Lexeme → Prop
  | word w => IsWord w
  | operator op => IsOperator op ∧ op ∉ [['"'], ['\''], ['_']]
  | number radix digits suffix =>
    (∀ d ∈ digits, isDigitOf radix.base d = true) ∧ radix.Admits digits ∧
      (∀ s ∈ suffix, isIntegerSuffix s = true) ∧ radix.valueOf digits < 2 ^ 32
  | character written meant => SpellsChar '\'' written meant
  | string contents => ∀ c ∈ contents, isAscii c = true

/-- The token of a lexeme on the first line. -/
def token (startsLine spaced : Bool) (lexeme : Lexeme) : Token :=
  ⟨lexeme.kind, String.ofList lexeme.text, lexeme.value, 1, startsLine, spaced⟩

/-- The tokens of lexemes that are written on one line. -/
def tokens : List Lexeme → List Token
  | [] => []
  | first :: others => first.token true false :: others.map (token false true)

/-- The source that has a blank between any two of the lexemes. Every character is one of ASCII, and
its code is its byte. -/
def written (lexemes : List Lexeme) : Bytes :=
  ([' '].intercalate (lexemes.map chars)).map (UInt8.ofNat ·.toNat)

end Lexeme

/-! ## In front of a blank -/

section

variable {p : Char → Bool} {s rest : List Char}

/-- A test that holds of some characters, and not of the next, takes them all. -/
theorem takeWhile_append_of_stops (all : ∀ c ∈ s, p c = true)
    (stops : ∀ c ∈ rest.head?, p c = false) : (s ++ rest).takeWhile p = s := by
  rw [List.takeWhile_append_of_pos all]
  cases rest with
  | nil => exact List.append_nil s
  | cons c cs => rw [List.takeWhile_cons_of_neg (by simp [stops c rfl]), List.append_nil]

/-- As `takeWhile_append_of_stops`, for what it leaves. -/
theorem dropWhile_append_of_stops (all : ∀ c ∈ s, p c = true)
    (stops : ∀ c ∈ rest.head?, p c = false) : (s ++ rest).dropWhile p = rest := by
  rw [List.dropWhile_append_of_pos all]
  cases rest with
  | nil => rfl
  | cons c cs => rw [List.dropWhile_cons_of_neg (by simp [stops c rfl])]

end

/-- Nothing follows, or a blank. -/
def Apart (rest : List Char) : Prop :=
  ∀ c ∈ rest.head?, c = ' '

namespace Apart

variable {rest s : List Char}

/-- The end of a source stands apart. -/
theorem nil : Apart [] := nofun

/-- A blank stands apart. -/
theorem blank (s : List Char) : Apart (' ' :: s) := fun _ same => (Option.some.inj same).symm

/-- What stands apart fails every test that a blank fails. -/
theorem stops (h : Apart rest) {p : Char → Bool} (no : p ' ' = false) :
    ∀ c ∈ rest.head?, p c = false :=
  fun c first => (congrArg p (h c first)).trans no

/-- What has no blank in it does not reach beyond `s`. -/
theorem prefix_of_append (h : Apart rest) {op : List Char} (noBlank : ' ' ∉ op)
    (atHead : op <+: s ++ rest) : op <+: s := by
  rcases List.prefix_or_prefix_of_prefix atHead (List.prefix_append s rest)
    with inside | ⟨beyond, rfl⟩
  · exact inside
  · cases beyond with
    | nil => simp
    | cons c cs =>
      obtain ⟨others, eq⟩ := (List.prefix_append_right_inj s).mp atHead
      have same : c = ' ' := h c (by rw [← eq]; rfl)
      exact absurd (by simp [same]) noBlank

end Apart

/-! ## Each class is recognised

The classes of first characters exclude each other, but for the underscore, which is punctuation
too. -/

section

variable {c : Char} {s rest : List Char}

/-- The first character of a lexeme is no blank. -/
theorem isBlank_eq_false (h : c.isDigit = true ∨ isWordStart c = true ∨ isPunctuation c = true) :
    isBlank c = false := by
  refine Bool.eq_false_iff.mpr fun blank => ?_
  simp only [isBlank, Bool.or_eq_true, beq_iff_eq, or_assoc] at blank
  rcases blank with rfl | rfl | rfl | rfl | rfl <;> exact absurd h (by decide)

/-- No word begins with a digit. -/
theorem isDigit_eq_false_of_isWordStart (start : isWordStart c = true) : c.isDigit = false := by
  rcases Bool.or_eq_true_iff.mp start with alpha | underscore
  · delta Char.isAlpha Char.isUpper Char.isLower at alpha
    grind [Char.isDigit]
  · rw [beq_iff_eq.mp underscore]
    decide

/-- Punctuation is neither a digit nor the start of a word, the underscore apart. -/
theorem class_of_isPunctuation (punctuation : isPunctuation c = true) (notWord : c ≠ '_') :
    c.isDigit = false ∧ isWordStart c = false := by
  have plain : c.isAlpha = false ∧ c.isDigit = false := by
    delta Char.isAlpha Char.isUpper Char.isLower
    grind [isPunctuation, Char.isDigit, Char.le_def]
  exact ⟨plain.2, by simp [isWordStart, plain.1, notWord]⟩

/-- A digit of radix ten is a decimal digit. -/
theorem isDigit_of_isDigitOf_ten (h : isDigitOf 10 c = true) : c.isDigit = true := by
  have below : digitValue c < 10 := of_decide_eq_true h
  unfold digitValue at below
  repeat' split at below
  all_goals first | assumption | omega

/-- No letter of a suffix is a digit. -/
theorem isDigitOf_eq_false_of_isIntegerSuffix {radix : Nat} (small : radix ≤ 16)
    (h : isIntegerSuffix c = true) : isDigitOf radix c = false := by
  simp only [isIntegerSuffix, Bool.or_eq_true, beq_iff_eq, or_assoc] at h
  have sixteen : digitValue c = 16 := by rcases h with rfl | rfl | rfl | rfl <;> decide
  exact decide_eq_false (by omega)

/-- What begins with no quote and no comment, and does not end or join a line, goes by its first
character. -/
theorem scan_eq (notQuote : c ≠ '"' ∧ c ≠ '\'') (notEnd : c ≠ '\n')
    (notSplice : ¬['\\', '\n'] <+: c :: s)
    (notComment : ¬['/', '/'] <+: c :: s ∧ ¬['/', '*'] <+: c :: s) :
    scan c s =
      if isBlank c then .blank 0 s
      else if c.isDigit then scanNumber c s
      else if isWordStart c then scanWord c s
      else if isPunctuation c then scanOperator c s
      else .fault .unexpectedCharacter 0 :=
  scan.eq_7 c s notEnd notQuote.1 notQuote.2
    (fun rest backslash eq => notSplice ⟨rest, by rw [backslash, eq]; rfl⟩)
    (fun rest slash eq => notComment.1 ⟨rest, by rw [slash, eq]; rfl⟩)
    (fun rest slash eq => notComment.2 ⟨rest, by rw [slash, eq]; rfl⟩)

/-- A letter, an underscore or a digit begins nothing but a word or a number. -/
theorem scan_of_isWordPart (part : isWordPart c = true) :
    scan c s = if c.isDigit then scanNumber c s else scanWord c s := by
  have other : ∀ d, isWordPart d = false → c ≠ d := fun d no same => by
    rw [same, no] at part
    cases part
  have notHead : ∀ {d e : Char}, isWordPart d = false → ¬[d, e] <+: c :: s := fun no atHead =>
    other _ no (List.cons_prefix_cons.mp atHead).1.symm
  have digitOrStart : c.isDigit = true ∨ isWordStart c = true := by
    simpa [isWordPart, isWordStart, Char.isAlphanum, or_assoc, or_comm, or_left_comm] using part
  rw [scan_eq ⟨other _ (by decide), other _ (by decide)⟩ (other _ (by decide)) (notHead (by decide))
    ⟨notHead (by decide), notHead (by decide)⟩,
    isBlank_eq_false (digitOrStart.imp_right .inl), if_neg Bool.false_ne_true]
  split
  next => rfl
  next notDigit => rw [if_pos (digitOrStart.resolve_left notDigit)]

/-! ### Words -/

/-- What begins a word may stand in it. -/
theorem isWordPart_of_isWordStart (start : isWordStart c = true) : isWordPart c = true := by
  simp only [isWordStart, isWordPart, Char.isAlphanum, Bool.or_eq_true] at start ⊢
  exact start.imp_left .inl

/-- A word is scanned whole. -/
theorem scan_word (start : isWordStart c = true) (parts : ∀ d ∈ s, isWordPart d = true)
    (apart : Apart rest) : scan c (s ++ rest) = .token .ident (c :: s) 0 rest := by
  have stops := apart.stops (by decide : isWordPart ' ' = false)
  rw [scan_of_isWordPart (isWordPart_of_isWordStart start), isDigit_eq_false_of_isWordStart start,
    if_neg Bool.false_ne_true, scanWord, takeWhile_append_of_stops parts stops,
    dropWhile_append_of_stops parts stops]

/-! ### Operators -/

/-- Every operator has a character. -/
theorem ne_nil_of_isOperator {op : List Char} (isOperator : IsOperator op) : op ≠ [] := by
  cases isOperator with
  | three mem => exact (by decide : ∀ op ∈ operators3, op ≠ []) _ mem
  | two mem => exact (by decide : ∀ op ∈ operators2, op ≠ []) _ mem
  | one => exact List.cons_ne_nil _ _

/-- No operator holds a blank. -/
theorem blank_not_mem {op : List Char} (isOperator : IsOperator op) : ' ' ∉ op := by
  cases isOperator with
  | three mem => exact (by decide : ∀ op ∈ operators3, ' ' ∉ op) _ mem
  | two mem => exact (by decide : ∀ op ∈ operators2, ' ' ∉ op) _ mem
  | one punctuation =>
    rintro mem
    rw [← List.mem_singleton.mp mem] at punctuation
    exact absurd punctuation (by decide)

/-- Behind an operator a blank ends it, whatever it could have been the beginning of. -/
theorem operatorLength_of_apart (punctuation : isPunctuation c = true)
    (isOperator : IsOperator (c :: s)) (apart : Apart rest) :
    operatorLength (c :: (s ++ rest)) = (c :: s).length := by
  obtain ⟨found, longest⟩ := operatorLength_sound punctuation (s ++ rest)
  have fits := operatorLength_le_length c (s ++ rest)
  have inside := apart.prefix_of_append (s := c :: s) (blank_not_mem found) (List.take_prefix _ _)
  have short := inside.length_le
  rw [List.length_take, Nat.min_eq_left fits] at short
  exact Nat.le_antisymm short (longest _ isOperator (List.prefix_append (c :: s) rest))

/-- The first character of an operator, and that no comment and no joined line begins with it. -/
theorem head_of_isOperator (isOperator : IsOperator (c :: s)) :
    isPunctuation c = true ∧ ¬['\\', '\n'] <+: c :: s ∧ ¬['/', '/'] <+: c :: s ∧
      ¬['/', '*'] <+: c :: s ∧ (c ∈ ['"', '\'', '_'] → s = []) := by
  have entries : ∀ op ∈ operators3 ++ operators2, op.head?.all isPunctuation = true ∧
      ¬['\\', '\n'] <+: op ∧ ¬['/', '/'] <+: op ∧ ¬['/', '*'] <+: op ∧
      op.head? ∉ ['"', '\'', '_'].map some := by decide
  have entry : c :: s ∈ operators3 ++ operators2 ∨ isPunctuation c = true ∧ s = [] := by
    cases isOperator with
    | three mem => exact .inl (List.mem_append_left _ mem)
    | two mem => exact .inl (List.mem_append_right _ mem)
    | one punctuation => exact .inr ⟨punctuation, rfl⟩
  rcases entry with mem | ⟨punctuation, rfl⟩
  · obtain ⟨punctuation, notSplice, notLine, notBlock, other⟩ := entries _ mem
    exact ⟨punctuation, notSplice, notLine, notBlock, fun quote =>
      absurd (List.mem_map_of_mem quote) other⟩
  · refine ⟨punctuation, ?_, ?_, ?_, fun _ => rfl⟩ <;> simp [List.cons_prefix_cons]

/-- An operator is scanned whole, quotes and the underscore apart. -/
theorem scan_operator (isOperator : IsOperator (c :: s)) (proper : c :: s ∉ [['"'], ['\''], ['_']])
    (apart : Apart rest) : scan c (s ++ rest) = .token .punct (c :: s) 0 rest := by
  obtain ⟨punctuation, notSplice, notLine, notBlock, alone⟩ := head_of_isOperator isOperator
  have other : c ∉ ['"', '\'', '_'] := fun quote => by
    rw [alone quote] at proper
    exact proper (by simpa using quote)
  have inside : ∀ {op : List Char}, ' ' ∉ op → ¬op <+: c :: s → ¬op <+: c :: (s ++ rest) :=
    fun noBlank no atHead => no (apart.prefix_of_append noBlank atHead)
  simp only [List.mem_cons, List.not_mem_nil, or_false, not_or] at other
  obtain ⟨notString, notCharacter, notWord⟩ := other
  have notEnd : c ≠ '\n' := fun same => by
    rw [same] at punctuation
    exact absurd punctuation (by decide)
  obtain ⟨notDigit, notStart⟩ := class_of_isPunctuation punctuation notWord
  rw [scan_eq ⟨notString, notCharacter⟩ notEnd (inside (by decide) notSplice)
    ⟨inside (by decide) notLine, inside (by decide) notBlock⟩,
    isBlank_eq_false (.inr (.inr punctuation)),
    notDigit, notStart, punctuation, if_neg Bool.false_ne_true, if_neg Bool.false_ne_true,
    if_neg Bool.false_ne_true, if_pos rfl, scanOperator,
    operatorLength_of_apart punctuation isOperator apart,
    List.length_cons, Nat.add_sub_cancel, List.take_left, List.drop_left]

/-! ### Numbers -/

/-- One digit more, the value staying at the limit. -/
theorem digitsValue_append_singleton (radix start : Nat) (digits : List Char) (d : Char) :
    digitsValue radix start (digits ++ [d]) =
      min (digitsValue radix start digits * radix + digitValue d) literalLimit := by
  rw [digitsValue, List.foldl_append]
  rfl

/-- No radix is zero. -/
theorem Radix.base_pos (radix : Radix) : 0 < radix.base := by
  cases radix <;> exact Nat.zero_lt_succ _

/-- No radix is over sixteen. -/
theorem Radix.base_le (radix : Radix) : radix.base ≤ 16 := by
  cases radix <;> simp [Radix.base]

/-- One digit more, without the limit. -/
theorem Radix.valueOf_append_singleton (radix : Radix) (digits : List Char) (d : Char) :
    radix.valueOf (digits ++ [d]) = radix.valueOf digits * radix.base + digitValue d := by
  rw [Nat.mul_comm, Nat.add_comm]
  simp [valueOf, Nat.ofDigits_cons]

/-- The value is that of the digits, up to the limit. Once it is there, no digit takes it back. -/
theorem digitsValue_eq_min (radix : Radix) (digits : List Char) :
    digitsValue radix.base 0 digits = min (radix.valueOf digits) literalLimit := by
  induction digits using List.reverseRecOn with
  | nil => rfl
  | append_singleton digits d ih =>
    rw [digitsValue_append_singleton, ih, Radix.valueOf_append_singleton]
    rcases Nat.le_total (radix.valueOf digits) literalLimit with below | above
    · rw [Nat.min_eq_left below]
    · have more : ∀ v, literalLimit ≤ v → literalLimit ≤ v * radix.base + digitValue d :=
        fun v large =>
        Nat.le_add_right_of_le (Nat.le_trans large (Nat.le_mul_of_pos_right v radix.base_pos))
      rw [Nat.min_eq_right above, Nat.min_eq_right (more _ (Nat.le_refl _)),
        Nat.min_eq_right (more _ above)]

/-- Nothing follows that a number would run into. -/
def Ends (rest : List Char) : Prop :=
  ∀ c ∈ rest.head?, continuesNumber c = false

/-- What stands apart ends a number. -/
theorem Apart.ends (h : Apart rest) : Ends rest :=
  h.stops (by decide)

/-- What only goes on with what a number could run into stops behind it. -/
theorem Ends.stops_append (h : Ends rest) {p : Char → Bool}
    (part : ∀ c, p c = true → continuesNumber c = true) (all : ∀ c ∈ s, p c = false) :
    ∀ c ∈ (s ++ rest).head?, p c = false := by
  cases s with
  | nil =>
    exact fun c first => Bool.eq_false_iff.mpr fun holds => by simpa [part c holds] using h c first
  | cons d s => exact fun c first => all c (Option.some.inj first ▸ List.mem_cons_self)

/-- What may stand in a word continues a number. -/
theorem continuesNumber_of_isWordPart (part : isWordPart c = true) : continuesNumber c = true :=
  Bool.or_eq_true_iff.mpr (.inl part)

/-- A letter of a suffix continues a number. -/
theorem continuesNumber_of_isIntegerSuffix (h : isIntegerSuffix c = true) :
    continuesNumber c = true :=
  continuesNumber_of_isWordPart (isWordPart_of_isIntegerSuffix h)

/-- What a number that is worth `value` is read as, if nothing is wrong with it but its size. -/
def Scan.number (text : List Char) (value : Nat) (rest : List Char) : Scan :=
  if value < literalLimit then .token .num text value rest else .fault .literalTooLarge 0

/-- A number is scanned as its value up to the limit. -/
theorem Scan.number_min (text : List Char) (value : Nat) (rest : List Char) :
    number text (min value literalLimit) rest = number text value rest := by
  rcases Nat.lt_or_ge value literalLimit with below | above
  · rw [Nat.min_eq_left (Nat.le_of_lt below)]
  · rw [Nat.min_eq_right above, number, number, if_neg (Nat.lt_irrefl _),
      if_neg (Nat.not_lt.mpr above)]

/-- The digits of a number, whatever leads it. -/
theorem scanDigits_of_ends {radix start : Nat} (small : radix ≤ 16) {lead digits suffix : List Char}
    (areDigits : ∀ d ∈ digits, isDigitOf radix d = true) (some : radix = 16 → digits ≠ [])
    (areSuffix : ∀ s ∈ suffix, isIntegerSuffix s = true) (ends : Ends rest) :
    scanDigits radix lead start (digits ++ (suffix ++ rest)) =
      .number (lead ++ digits ++ suffix) (digitsValue radix start digits) rest := by
  have endDigits := ends.stops_append
    (fun c digit => continuesNumber_of_isWordPart (isWordPart_of_isDigitOf small digit))
    fun c mem => isDigitOf_eq_false_of_isIntegerSuffix small (areSuffix c mem)
  have endSuffix : ∀ c ∈ rest.head?, isIntegerSuffix c = false :=
    ends.stops_append (s := []) (fun c => continuesNumber_of_isIntegerSuffix) nofun
  have endNumber : rest.head?.any continuesNumber = false := by
    cases rest with
    | nil => rfl
    | cons c cs => exact ends c rfl
  have someDigits : (radix == 16 && digits.isEmpty) = false := by
    simpa using some
  simp only [scanDigits, takeWhile_append_of_stops areDigits endDigits,
    dropWhile_append_of_stops areDigits endDigits, takeWhile_append_of_stops areSuffix endSuffix,
    dropWhile_append_of_stops areSuffix endSuffix, someDigits, endNumber]
  rw [if_neg Bool.false_ne_true, if_neg Bool.false_ne_true, Scan.number, ← ite_not]
  simp only [Nat.not_le]

/-- A digit begins a number. -/
theorem scan_of_isDigit (digit : c.isDigit = true) : scan c s = scanNumber c s := by
  have part : isWordPart c = true := by simp [isWordPart, Char.isAlphanum, digit]
  rw [scan_of_isWordPart part, if_pos digit]

/-- Behind the zero of an octal number nothing makes it a hexadecimal one. -/
theorem scanNumber_octal {digits suffix : List Char}
    (areDigits : ∀ d ∈ digits, isDigitOf 8 d = true)
    (areSuffix : ∀ s ∈ suffix, isIntegerSuffix s = true) (ends : Ends rest) :
    scanNumber '0' (digits ++ (suffix ++ rest)) =
      scanDigits 8 ['0'] 0 (digits ++ (suffix ++ rest)) := by
  have notHead : ∀ {x : Char}, isDigitOf 8 x = false → isIntegerSuffix x = false →
      continuesNumber x = true → ∀ s, digits ++ (suffix ++ rest) ≠ x :: s := by
    intro x noDigit noSuffix goesOn s eq
    rw [← List.append_assoc] at eq
    have other := ends.stops_append (p := (· == x)) (s := digits ++ suffix)
      (fun c same => beq_iff_eq.mp same ▸ goesOn)
      (fun c mem => beq_eq_false_iff_ne.mpr fun same => by
        rw [same, List.mem_append] at mem
        rcases mem with mem | mem
        · exact absurd (areDigits x mem) (by rw [noDigit]; decide)
        · exact absurd (areSuffix x mem) (by rw [noSuffix]; decide)) x (by rw [eq]; rfl)
    simp at other
  exact scanNumber.eq_3 _ (notHead (by decide) (by decide) (by decide))
    (notHead (by decide) (by decide) (by decide))

/-- A number is read in full, and it is a fault only from the limit on. -/
theorem scan_number {radix : Radix} {digits suffix : List Char}
    (areDigits : ∀ d ∈ digits, isDigitOf radix.base d = true) (admitted : radix.Admits digits)
    (areSuffix : ∀ s ∈ suffix, isIntegerSuffix s = true) (ends : Ends rest) :
    ∃ c s, radix.lead ++ digits ++ suffix = c :: s ∧
      scan c (s ++ rest) = .number (radix.lead ++ digits ++ suffix)
        (radix.valueOf digits) rest := by
  rw [← Scan.number_min, ← digitsValue_eq_min]
  cases radix with
  | decimal =>
    obtain ⟨some, notZero⟩ := admitted
    obtain ⟨d, ds, rfl⟩ := List.exists_cons_of_ne_nil some
    obtain ⟨digit, areDigits⟩ := List.forall_mem_cons.mp areDigits
    have notZero : d ≠ '0' := fun same => notZero (congrArg Option.some same)
    -- The first digit is worth the same as the others' start and as one of them.
    have first : digitsValue 10 0 (d :: ds) = digitsValue 10 (digitValue d) ds := by
      have small : digitValue d ≤ literalLimit :=
        Nat.le_of_lt (Nat.lt_of_lt_of_le (of_decide_eq_true digit) (by decide))
      rw [digitsValue, List.foldl_cons, Nat.zero_mul, Nat.zero_add, Nat.min_eq_left small,
        ← digitsValue]
    refine ⟨d, ds ++ suffix, rfl, ?_⟩
    simp only [Radix.base]
    rw [scan_of_isDigit (isDigit_of_isDigitOf_ten digit), scanNumber.eq_4 _ _ notZero
      (fun _ zero => (notZero zero).elim) (fun _ zero => (notZero zero).elim),
        List.append_assoc, first]
    exact scanDigits_of_ends (by decide) areDigits nofun areSuffix ends
  | octal =>
    refine ⟨'0', digits ++ suffix, rfl, ?_⟩
    rw [scan_of_isDigit (by decide), List.append_assoc, scanNumber_octal areDigits areSuffix ends]
    exact scanDigits_of_ends (by decide) areDigits nofun areSuffix ends
  | hexadecimal capital =>
    have digitsRead : ∀ lead, scanDigits 16 lead 0 (digits ++ suffix ++ rest) =
        .number (lead ++ digits ++ suffix) (digitsValue 16 0 digits) rest := by
      intro lead
      rw [List.append_assoc]
      exact scanDigits_of_ends (by decide) areDigits (fun _ => admitted) areSuffix ends
    have zero : ∀ s, scan '0' s = scanNumber '0' s := fun _ => scan_of_isDigit (by decide)
    cases capital with
    | false => exact ⟨'0', 'x' :: (digits ++ suffix), rfl, (zero _).trans (digitsRead _)⟩
    | true => exact ⟨'0', 'X' :: (digits ++ suffix), rfl, (zero _).trans (digitsRead _)⟩

/-! ### Quotes -/

/-- A character is scanned whole. -/
theorem scan_character {w : List Char} (spells : SpellsChar '\'' w c) (rest : List Char) :
    scan '\'' (w ++ ['\''] ++ rest) = .token .num ('\'' :: (w ++ ['\''])) c.toNat rest := by
  show scanCharacter _ = _
  cases spells with
  | plain notQuote notEnd notBackslash ascii =>
    simp [scanCharacter.eq_2 c _ (fun _ _ backslash => (notBackslash backslash).elim),
      notQuote, notEnd, notBackslash, ascii, closeCharacter]
  | escape known => simp [scanCharacter, known, closeCharacter]

/-- The escapes of some characters spell them. -/
theorem spellsString_escaped {contents : List Char} (ascii : ∀ c ∈ contents, isAscii c = true) :
    SpellsString (contents.flatMap escaped) contents := by
  induction contents with
  | nil => exact .nil
  | cons c cs ih =>
    obtain ⟨first, others⟩ := List.forall_mem_cons.mp ascii
    refine .cons ?_ (ih others)
    rw [escaped]
    split
    next newline =>
      rw [newline]
      exact .escape rfl
    next notEnd =>
      split
      next quoted => rcases quoted with rfl | rfl <;> exact .escape rfl
      next plain =>
        rw [not_or] at plain
        exact .plain plain.1 notEnd plain.2 first

/-- A string written with escapes is scanned whole. -/
theorem scan_string {contents : List Char} (ascii : ∀ c ∈ contents, isAscii c = true)
    (rest : List Char) :
    scan '"' (contents.flatMap escaped ++ ['"'] ++ rest) = .token .str contents 0 rest := by
  have read := scanString_of_spells (spellsString_escaped ascii) [] rest
  rwa [List.append_assoc]

end

/-! ## Every character is one of ASCII -/

section

variable {c : Char}

/-- Characters up to 127 are of the basic set. -/
theorem isAscii_of_le (small : c.val ≤ 127) : isAscii c = true :=
  decide_eq_true (Nat.lt_succ_of_le (UInt32.le_iff_toNat_le.mp small))

/-- The characters of words are of the basic set. -/
theorem isAscii_of_isWordPart (part : isWordPart c = true) : isAscii c = true := by
  rcases Bool.or_eq_true_iff.mp part with alphanumeric | underscore
  · refine isAscii_of_le ?_
    delta Char.isAlphanum Char.isAlpha Char.isUpper Char.isLower at alphanumeric
    grind [Char.isDigit]
  · rw [beq_iff_eq.mp underscore]
    decide

/-- Punctuation is of the basic set. -/
theorem isAscii_of_isPunctuation (punctuation : isPunctuation c = true) : isAscii c = true := by
  refine isAscii_of_le ?_
  grind [isPunctuation, Char.le_def]

/-- The characters of an operator are of the basic set. -/
theorem IsOperator.ascii {op : List Char} (isOperator : IsOperator op) :
    ∀ c ∈ op, isAscii c = true := by
  cases isOperator with
  | three mem =>
    exact List.all_eq_true.mp ((by decide : ∀ op ∈ operators3, op.all isAscii = true) _ mem)
  | two mem =>
    exact List.all_eq_true.mp ((by decide : ∀ op ∈ operators2, op.all isAscii = true) _ mem)
  | one punctuation => exact List.forall_mem_singleton.mpr (isAscii_of_isPunctuation punctuation)

/-- The characters that spell a character are of the basic set. -/
theorem SpellsChar.ascii {quote : Char} {w : List Char} (spells : SpellsChar quote w c) :
    ∀ d ∈ w, isAscii d = true := by
  cases spells with
  | plain _ _ _ ascii => exact List.forall_mem_singleton.mpr ascii
  | @escape e _ known =>
    refine List.forall_mem_cons.mpr ⟨by decide, List.forall_mem_singleton.mpr ?_⟩
    unfold escape? at known
    split at known <;> first | decide | cases known

/-- The characters that spell a string are of the basic set. -/
theorem SpellsString.ascii {ws cs : List Char} (spells : SpellsString ws cs) :
    ∀ d ∈ ws, isAscii d = true := by
  induction spells with
  | nil => exact nofun
  | cons first _ ih => exact List.forall_mem_append.mpr ⟨first.ascii, ih⟩

end

/-! ## Lists of lexemes -/

namespace Lexeme

/-- A proper lexeme is written in the basic set. -/
theorem ascii {lexeme : Lexeme} (proper : lexeme.Proper) :
    ∀ c ∈ lexeme.chars, isAscii c = true := by
  cases lexeme with
  | word w =>
    obtain ⟨c, s, rfl, start, parts⟩ := proper
    exact List.forall_mem_cons.mpr ⟨isAscii_of_isWordPart (isWordPart_of_isWordStart start),
      fun d mem => isAscii_of_isWordPart (parts d mem)⟩
  | operator op => exact proper.1.ascii
  | number radix digits suffix =>
    obtain ⟨areDigits, -, areSuffix, -⟩ := proper
    refine List.forall_mem_append.mpr ⟨List.forall_mem_append.mpr ⟨?_, fun d mem =>
      isAscii_of_isWordPart (isWordPart_of_isDigitOf radix.base_le (areDigits d mem))⟩, fun s mem =>
      isAscii_of_isWordPart (isWordPart_of_isIntegerSuffix (areSuffix s mem))⟩
    rcases radix with _ | _ | _ | _ <;> exact List.all_eq_true.mp (by decide)
  | character w c =>
    exact List.forall_mem_cons.mpr ⟨by decide, List.forall_mem_append.mpr
      ⟨SpellsChar.ascii proper, List.forall_mem_singleton.mpr (by decide)⟩⟩
  | string contents =>
    exact List.forall_mem_cons.mpr ⟨by decide, List.forall_mem_append.mpr
      ⟨(spellsString_escaped proper).ascii, List.forall_mem_singleton.mpr (by decide)⟩⟩

/-- What is written is read as what was meant, up to the blank behind it. -/
theorem scan_chars {lexeme : Lexeme} (proper : lexeme.Proper) {rest : List Char}
    (apart : Apart rest) : ∃ c s, lexeme.chars = c :: s ∧
      scan c (s ++ rest) = .token lexeme.kind lexeme.text lexeme.value rest := by
  cases lexeme with
  | word w =>
    obtain ⟨c, s, rfl, start, parts⟩ := proper
    exact ⟨c, s, rfl, scan_word start parts apart⟩
  | operator op =>
    obtain ⟨isOperator, other⟩ := proper
    obtain ⟨c, s, rfl⟩ := List.exists_cons_of_ne_nil (ne_nil_of_isOperator isOperator)
    exact ⟨c, s, rfl, scan_operator isOperator other apart⟩
  | number radix digits suffix =>
    obtain ⟨areDigits, admitted, areSuffix, below⟩ := proper
    obtain ⟨c, s, chars, item⟩ := scan_number areDigits admitted areSuffix apart.ends
    exact ⟨c, s, chars, item.trans (if_pos below)⟩
  | character w c => exact ⟨_, _, rfl, scan_character proper rest⟩
  | string contents => exact ⟨_, _, rfl, scan_string proper rest⟩

/-- One lexeme is read as its token, wherever it stands on the first line. -/
theorem reads {lexeme : Lexeme} (proper : lexeme.Proper) {rest : List Char} (apart : Apart rest)
    {startsLine spaced : Bool} {ts : List Token} {q : Position}
    (behind : Reads ⟨1, false, false⟩ rest ts q []) :
    Reads ⟨1, startsLine, spaced⟩ (lexeme.chars ++ rest)
      (lexeme.token startsLine spaced :: ts) q [] := by
  obtain ⟨c, s, chars, item⟩ := scan_chars proper apart
  rw [chars]
  exact .token item behind

end Lexeme

end BareC.Token
