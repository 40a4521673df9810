import BareC.Token.Scan

/-!
# Gaps and lexemes

What a source may consist of, said without a scanner: the pieces of space that separate tokens, and
the spellings of tokens themselves. `scan_sound` relates the two views: whatever the scanner reads
at the head of a source is a piece of space or the spelling of the token it answers, it stands
there, and a word or an operator could not have been longer.

Space is kept piece by piece, since three things are read off it: how many lines it ends, whether it
ends one outside of comments and joined lines, and whether anything in it separates.

The converse of `scan_sound` is not in this module: that a spelling is read where it stands needs to
know what follows it, and is shown of lexemes written with blanks between them (`Writing`), and of
integer literals in front of anything that ends one (`Literals`).
-/

namespace BareC.Token

/-! ## Space -/

/-- A piece of what may stand between two tokens. -/
inductive Space where
  | newline
  /-- A backslash and the end of the line that it joins to the next. -/
  | splice
  | blank (c : Char)
  /-- A comment up to the end of its line, which is not part of it. -/
  | lineComment (text : List Char)
  | blockComment (text : List Char)
  deriving DecidableEq

namespace Space

/-- How a piece of space is written. -/
def chars : Space → List Char
  | newline => ['\n']
  | splice => ['\\', '\n']
  | blank c => [c]
  | lineComment text => '/' :: '/' :: text
  | blockComment text => '/' :: '*' :: (text ++ ['*', '/'])

/-- The piece separates what is before it from what is behind it on the same line. -/
def separates : Space → Bool
  | newline | splice => false
  | blank _ | lineComment _ | blockComment _ => true

/-- The piece is complete, with `rest` behind it: a comment ends where it can first end, and only
the end of a line or of the source ends the comment of a line. -/
def Proper (rest : List Char) : Space → Prop
  | newline | splice => True
  | blank c => isBlank c = true
  | lineComment text => '\n' ∉ text ∧ (rest = [] ∨ rest.head? = some '\n')
  | blockComment text => ¬['*', '/'] <:+: text ++ ['*']

end Space

/-- How the space between two tokens is written. -/
def gapChars (gap : List Space) : List Char :=
  gap.flatMap Space.chars

/-- The characters of a gap are those of its pieces. -/
@[simp]
theorem gapChars_cons (piece : Space) (gap : List Space) :
    gapChars (piece :: gap) = piece.chars ++ gapChars gap := rfl

/-- Every piece of the gap is complete, with `rest` behind all of them. -/
def ProperGap (rest : List Char) : List Space → Prop
  | [] => True
  | piece :: gap => piece.Proper (gapChars gap ++ rest) ∧ ProperGap rest gap

/-! ## Spellings -/

/-- A name or a keyword. -/
def IsWord (w : List Char) : Prop :=
  ∃ c cs, w = c :: cs ∧ isWordStart c = true ∧ ∀ d ∈ cs, isWordPart d = true

/-- An entry of one of the tables, or a single character of punctuation. -/
inductive IsOperator : List Char → Prop
  | three {op} : op ∈ operators3 → IsOperator op
  | two {op} : op ∈ operators2 → IsOperator op
  | one {c} : isPunctuation c = true → IsOperator [c]

/-- One character of a literal between quotes of the given kind, as written and as meant. -/
inductive SpellsChar (quote : Char) : List Char → Char → Prop
  | plain {c} : c ≠ quote → c ≠ '\n' → c ≠ '\\' → isAscii c = true → SpellsChar quote [c] c
  | escape {e c} : escape? e = some c → SpellsChar quote ['\\', e] c

/-- The contents of a string literal, as written and as meant. -/
inductive SpellsString : List Char → List Char → Prop
  | nil : SpellsString [] []
  | cons {w c ws cs} : SpellsChar '"' w c → SpellsString ws cs → SpellsString (w ++ ws) (c :: cs)

/-- A token of this kind and with this text is written so. Only a string differs from its text. -/
inductive Spells : Kind → (text lexeme : List Char) → Prop
  | word {w} : IsWord w → Spells .ident w w
  | operator {op} : IsOperator op → Spells .punct op op
  | number {c cs} : c.isDigit = true → (∀ d ∈ cs, isWordPart d = true) →
      Spells .num (c :: cs) (c :: cs)
  | character {w c} : SpellsChar '\'' w c →
      Spells .num ('\'' :: (w ++ ['\''])) ('\'' :: (w ++ ['\'']))
  | string {ws cs} : SpellsString ws cs → Spells .str cs ('"' :: (ws ++ ['"']))

/-- With `rest` behind it, a word or an operator could not be longer. -/
def Longest (rest lexeme : List Char) : Kind → Prop
  | .ident => ∀ w, IsWord w → w <+: lexeme ++ rest → w.length ≤ lexeme.length
  | .punct => ∀ op, IsOperator op → op <+: lexeme ++ rest → op.length ≤ lexeme.length
  | _ => True

/-- A character is spelled on one line. -/
theorem SpellsChar.newline_not_mem {quote c : Char} {w : List Char} (h : SpellsChar quote w c) :
    '\n' ∉ w := by
  cases h with
  | plain _ notEnd => exact fun mem => notEnd (List.mem_singleton.mp mem).symm
  | @escape e c escape =>
    intro mem
    rcases List.mem_cons.mp mem with eq | mem
    · exact absurd eq (by decide)
    · rw [← List.mem_singleton.mp mem] at escape
      cases escape

/-- A string is spelled on one line. -/
theorem SpellsString.newline_not_mem {ws cs : List Char} (h : SpellsString ws cs) : '\n' ∉ ws := by
  induction h with
  | nil => exact List.not_mem_nil
  | cons first _ ih => exact fun mem => (List.mem_append.mp mem).elim first.newline_not_mem ih

/-- A lexeme stands on one line. -/
theorem Spells.newline_not_mem {kind : Kind} {text lexeme : List Char}
    (h : Spells kind text lexeme) : '\n' ∉ lexeme := by
  have inside : ∀ {cs : List Char}, (∀ d ∈ cs, isWordPart d = true) → '\n' ∉ cs := fun parts mem =>
    absurd (parts _ mem) (by decide)
  intro mem
  cases h with
  | word isWord =>
    obtain ⟨c, cs, rfl, start, parts⟩ := isWord
    rcases List.mem_cons.mp mem with rfl | mem
    · exact absurd start (by decide)
    · exact inside parts mem
  | operator isOperator =>
    cases isOperator with
    | three isOp => exact absurd mem ((by decide : ∀ op ∈ operators3, '\n' ∉ op) _ isOp)
    | two isOp => exact absurd mem ((by decide : ∀ op ∈ operators2, '\n' ∉ op) _ isOp)
    | one punctuation =>
      rw [← List.mem_singleton.mp mem] at punctuation
      exact absurd punctuation (by decide)
  | number digit parts =>
    rcases List.mem_cons.mp mem with rfl | mem
    · exact absurd digit (by decide)
    · exact inside parts mem
  | character spells => simp [spells.newline_not_mem] at mem
  | string spells => simp [spells.newline_not_mem] at mem

/-- No marker is spelled, and no end of a source. -/
theorem Spells.not_marker {kind : Kind} {text lexeme : List Char} (h : Spells kind text lexeme) :
    kind ≠ .error ∧ kind ≠ .eof := by
  cases h <;> exact ⟨Kind.noConfusion, Kind.noConfusion⟩

/-! ## The scanner reads spellings

What an item says about the source it was read from. A fault in a comment is reported behind the
line ends of the comment, except for one that is the last character of all; any other on the line it
is on. -/

/-- The item stands at the head of the source. -/
def Scan.Sound (source : List Char) : Scan → Prop
  | .newline rest => source = Space.newline.chars ++ rest
  | .splice rest => source = Space.splice.chars ++ rest
  | .blank lines rest => ∃ piece : Space, source = piece.chars ++ rest ∧ piece.Proper rest ∧
      piece.separates = true ∧ lines = piece.chars.count '\n'
  | .token kind text _ rest => ∃ lexeme, source = lexeme ++ rest ∧ Spells kind text lexeme ∧
      Longest rest lexeme kind
  | .fault cause lines =>
      lines = if cause = .unterminatedComment then source.dropLast.count '\n' else 0

/-- A comment is closed where the scanner says, or the source ends within it. -/
theorem scanComment_sound (lines : Nat) (s : List Char) :
    match scanComment lines s with
    | .blank n rest => ∃ text, s = text ++ '*' :: '/' :: rest ∧ ¬['*', '/'] <:+: text ++ ['*'] ∧
        n = lines + text.count '\n'
    | .fault cause n => cause = .unterminatedComment ∧ n = lines + s.dropLast.count '\n'
    | _ => False := by
  fun_induction scanComment lines s with
  | case1 lines rest => exact ⟨[], rfl, by decide, rfl⟩
  | case2 lines c d rest notClosed ih =>
    -- The line ends counted so far grow by the first character of the text.
    have counted : ∀ text : List Char, (if (c == '\n') = true then lines + 1 else lines) +
        text.count '\n' = lines + (c :: text).count '\n' := by
      intro text
      rw [List.count_cons]
      split <;> omega
    generalize scanComment _ (d :: rest) = item at ih ⊢
    cases item with
    | blank n rest' =>
      obtain ⟨text, eq, first, rfl⟩ := ih
      refine ⟨c :: text, by rw [eq]; rfl, ?_, counted text⟩
      rw [List.cons_append, List.infix_cons_iff]
      rintro (atHead | inside)
      · obtain ⟨rfl, second⟩ := List.cons_prefix_cons.mp atHead
        cases text with
        | nil => exact absurd second (by decide)
        | cons e text =>
          obtain ⟨rfl, -⟩ := List.cons_prefix_cons.mp second
          exact notClosed rfl (List.cons.inj eq).1
      · exact first inside
    | fault cause n =>
      obtain ⟨rfl, rfl⟩ := ih
      exact ⟨rfl, counted _⟩
    | _ => exact ih
  | case3 s lines _ short =>
    rcases s with _ | ⟨c, _ | ⟨d, rest⟩⟩
    · exact ⟨rfl, rfl⟩
    · exact ⟨rfl, rfl⟩
    · exact absurd rfl (short c d rest)

/-- What is taken while a test holds passes the test. -/
theorem all_takeWhile (p : Char → Bool) (s : List Char) : ∀ d ∈ s.takeWhile p, p d = true :=
  List.all_eq_true.mp List.all_takeWhile

/-! ### Numbers -/

/-- A digit of a small radix may stand in a word. -/
theorem isWordPart_of_isDigitOf {radix : Nat} (small : radix ≤ 16) {c : Char}
    (h : isDigitOf radix c = true) : isWordPart c = true := by
  have below : digitValue c < 16 := Nat.lt_of_lt_of_le (of_decide_eq_true h) small
  rw [isWordPart]
  delta Char.isAlphanum Char.isAlpha Char.isUpper Char.isLower
  simp only [digitValue, Bool.or_eq_true, Bool.and_eq_true, decide_eq_true_eq, Char.le_def,
    UInt32.le_iff_toNat_le] at below ⊢
  have codes : 'a'.val.toNat = 97 ∧ 'f'.val.toNat = 102 ∧ 'z'.val.toNat = 122 ∧
    'A'.val.toNat = 65 ∧ 'F'.val.toNat = 70 ∧ 'Z'.val.toNat = 90 := by decide
  repeat' split at below
  · next digit => exact .inl (.inr digit)
  all_goals omega

/-- A letter of a suffix may stand in a word. -/
theorem isWordPart_of_isIntegerSuffix {c : Char} (h : isIntegerSuffix c = true) :
    isWordPart c = true := by
  simp only [isIntegerSuffix, Bool.or_eq_true, beq_iff_eq, or_assoc] at h
  rcases h with rfl | rfl | rfl | rfl <;> decide

/-- Digits are scanned up to what is neither a digit nor a suffix. -/
theorem scanDigits_sound {radix : Nat} (small : radix ≤ 16) (start : Nat) (s : List Char) {c : Char}
    {cs : List Char} (digit : c.isDigit = true) (parts : ∀ d ∈ cs, isWordPart d = true) :
    (scanDigits radix (c :: cs) start s).Sound (c :: cs ++ s) := by
  simp only [scanDigits]
  split
  · exact rfl
  split
  · exact rfl
  split
  · exact rfl
  refine ⟨_, ?_, @Spells.number _ (cs ++ s.takeWhile (isDigitOf radix) ++
    (s.dropWhile (isDigitOf radix)).takeWhile isIntegerSuffix) digit ?_, trivial⟩
  · simp only [List.cons_append, List.append_assoc, List.takeWhile_append_dropWhile]
  · intro d mem
    rw [List.append_assoc, List.mem_append, List.mem_append] at mem
    rcases mem with mem | mem | mem
    · exact parts d mem
    · exact isWordPart_of_isDigitOf small (all_takeWhile _ _ d mem)
    · exact isWordPart_of_isIntegerSuffix (all_takeWhile _ _ d mem)

/-- As `scanDigits_sound`, with the prefix of the radix. -/
theorem scanNumber_sound {c : Char} (digit : c.isDigit = true) (s : List Char) :
    (scanNumber c s).Sound (c :: s) := by
  unfold scanNumber
  split
  · exact scanDigits_sound (by decide) 0 _ (by decide) (List.forall_mem_singleton.mpr (by decide))
  · exact scanDigits_sound (by decide) 0 _ (by decide) (List.forall_mem_singleton.mpr (by decide))
  · exact scanDigits_sound (by decide) 0 s (by decide) nofun
  · exact scanDigits_sound (by decide) _ s digit nofun

/-! ### Literals -/

/-- A character that needs no escape spells itself. -/
theorem spellsChar_plain {quote c : Char} (notQuote : c ≠ quote)
    (ok : ¬(c == '\n' || c == '\\' || !isAscii c) = true) : SpellsChar quote [c] c := by
  simp only [Bool.or_eq_true, beq_iff_eq, Bool.not_eq_true', not_or, Bool.not_eq_false] at ok
  exact .plain notQuote ok.1.1 ok.1.2 ok.2

/-- A string is closed where the scanner says, or is not closed on its line. -/
theorem scanString_sound (read s : List Char) :
    match scanString read s with
    | .token kind text _ rest => ∃ ws cs, s = ws ++ '"' :: rest ∧ kind = .str ∧
        text = read.reverse ++ cs ∧ SpellsString ws cs
    | .fault cause lines => cause = .unterminatedString ∧ lines = 0
    | _ => False := by
  fun_induction scanString read s with
  | case1 read rest => exact ⟨[], [], rfl, rfl, (List.append_nil _).symm, .nil⟩
  | case2 read e rest d escape ih =>
    generalize scanString (d :: read) rest = item at ih ⊢
    cases item with
    | token kind text value rest' =>
      obtain ⟨ws, cs, rfl, kind, text, spells⟩ := ih
      refine ⟨['\\', e] ++ ws, d :: cs, rfl, kind, ?_, .cons (.escape escape) spells⟩
      rw [text, List.reverse_cons, List.append_assoc]
      rfl
    | _ => exact ih
  | case3 | case4 | case6 => exact ⟨rfl, rfl⟩
  | case5 read c rest notQuote _ ok ih =>
    generalize scanString (c :: read) rest = item at ih ⊢
    cases item with
    | token kind text value rest' =>
      obtain ⟨ws, cs, rfl, kind, text, spells⟩ := ih
      refine ⟨[c] ++ ws, c :: cs, rfl, kind, ?_, .cons (spellsChar_plain notQuote ok) spells⟩
      rw [text, List.reverse_cons, List.append_assoc]
      rfl
    | _ => exact ih

/-- A spelled string is read up to its closing quote. -/
theorem scanString_of_spells {ws cs : List Char} (h : SpellsString ws cs) (read rest : List Char) :
    scanString read (ws ++ '"' :: rest) = .token .str (read.reverse ++ cs) 0 rest := by
  induction h generalizing read with
  | nil => rw [List.append_nil]; rfl
  | @cons w c ws cs first _ ih =>
    have read_c : scanString read (w ++ (ws ++ '"' :: rest)) =
      scanString (c :: read) (ws ++ '"' :: rest) := by
      cases first with
      | plain notQuote notEnd notBackslash ascii =>
        rw [List.singleton_append, scanString.eq_def]
        split
        next eq => exact absurd (List.cons.inj eq).1 notQuote
        next eq => exact absurd (List.cons.inj eq).1 notBackslash
        next d rest' _ _ eq =>
          obtain ⟨rfl, rfl⟩ := List.cons.inj eq
          simp [notEnd, notBackslash, ascii]
        next eq => cases eq
      | escape known =>
        rw [List.cons_append, List.singleton_append, scanString, known]
    rw [List.append_assoc, read_c, ih, List.reverse_cons, List.append_assoc]
    rfl

/-- As `scanString_sound`, for the quote behind a character. -/
theorem closeCharacter_sound {w : List Char} {c : Char} (spells : SpellsChar '\'' w c)
    (s : List Char) :
    (closeCharacter ('\'' :: (w ++ ['\''])) c s).Sound ('\'' :: (w ++ s)) := by
  unfold closeCharacter
  split
  next rest =>
    exact ⟨_, by rw [List.cons_append, List.append_assoc]; rfl, .character spells, trivial⟩
  next => exact rfl

/-- As `scanString_sound`, for a character. -/
theorem scanCharacter_sound (s : List Char) : (scanCharacter s).Sound ('\'' :: s) := by
  unfold scanCharacter
  split
  next e rest =>
    split
    next c escape => exact closeCharacter_sound (.escape escape) rest
    next => exact rfl
  next c rest _ =>
    split
    next => exact rfl
    next ok =>
      rw [Bool.or_assoc, Bool.or_assoc, Bool.or_eq_true, not_or, beq_iff_eq] at ok
      exact closeCharacter_sound (spellsChar_plain ok.1 (by rw [Bool.or_assoc]; exact ok.2)) rest
  next => exact rfl

/-! ### Words and operators -/

/-- A prefix without foreign characters is part of the longest one. -/
theorem length_le_takeWhile {p : Char → Bool} {cs s : List Char} (h : cs <+: s)
    (all : ∀ d ∈ cs, p d = true) : cs.length ≤ (s.takeWhile p).length := by
  obtain ⟨more, rfl⟩ := h
  rw [List.takeWhile_append_of_pos all, List.length_append]
  exact Nat.le_add_right _ _

/-- A word is scanned up to what cannot stand in one. -/
theorem scanWord_sound {c : Char} (start : isWordStart c = true) (s : List Char) :
    (scanWord c s).Sound (c :: s) := by
  have whole : c :: s = (c :: s.takeWhile isWordPart) ++ s.dropWhile isWordPart := by
    rw [List.cons_append, List.takeWhile_append_dropWhile]
  refine ⟨_, whole, .word ⟨c, _, rfl, start, all_takeWhile _ _⟩, ?_⟩
  rintro w ⟨d, ds, rfl, -, parts⟩ atHead
  rw [← whole] at atHead
  exact Nat.succ_le_succ (length_le_takeWhile (List.cons_prefix_cons.mp atHead).2 parts)

/-- The operator at the head of a source, and that none is longer. -/
theorem operatorLength_sound {c : Char} (punctuation : isPunctuation c = true) (s : List Char) :
    IsOperator ((c :: s).take (operatorLength (c :: s))) ∧
      ∀ op, IsOperator op → op <+: c :: s → op.length ≤ operatorLength (c :: s) := by
  have threeLong : ∀ op ∈ operators3, op.length = 3 := by decide
  have twoLong : ∀ op ∈ operators2, op.length = 2 := by decide
  rw [operatorLength]
  split
  next three =>
    obtain ⟨op, mem, atHead⟩ := List.any_eq_true.mp three
    rw [List.isPrefixOf_iff_prefix] at atHead
    refine ⟨?_, fun op isOperator _ => ?_⟩
    · rw [← threeLong op mem, ← List.prefix_iff_eq_take.mp atHead]
      exact .three mem
    · cases isOperator with
      | three mem => exact Nat.le_of_eq (threeLong _ mem)
      | two mem => rw [twoLong _ mem]; decide
      | one => exact Nat.le_of_ble_eq_true rfl
  next noThree =>
    have notThree : ∀ op ∈ operators3, ¬op <+: c :: s := fun op mem atHead =>
      noThree (List.any_eq_true.mpr ⟨op, mem, List.isPrefixOf_iff_prefix.mpr atHead⟩)
    split
    next two =>
      obtain ⟨op, mem, atHead⟩ := List.any_eq_true.mp two
      rw [List.isPrefixOf_iff_prefix] at atHead
      refine ⟨?_, fun op isOperator atHead => ?_⟩
      · rw [← twoLong op mem, ← List.prefix_iff_eq_take.mp atHead]
        exact .two mem
      · cases isOperator with
        | three mem => exact absurd atHead (notThree _ mem)
        | two mem => exact Nat.le_of_eq (twoLong _ mem)
        | one => exact Nat.le_of_ble_eq_true rfl
    next noTwo =>
      refine ⟨.one punctuation, fun op isOperator atHead => ?_⟩
      cases isOperator with
      | three mem => exact absurd atHead (notThree _ mem)
      | two mem =>
        exact (noTwo (List.any_eq_true.mpr ⟨_, mem, List.isPrefixOf_iff_prefix.mpr atHead⟩)).elim
      | one => exact Nat.le_refl 1

/-- An operator is no longer than the source. -/
theorem operatorLength_le_length (c : Char) (s : List Char) :
    operatorLength (c :: s) ≤ (c :: s).length := by
  have fits : ∀ {n : Nat} {ops : List (List Char)}, (∀ op ∈ ops, op.length = n) →
      ops.any (·.isPrefixOf (c :: s)) = true → n ≤ (c :: s).length := by
    intro n ops long found
    obtain ⟨op, mem, atHead⟩ := List.any_eq_true.mp found
    rw [← long op mem]
    exact (List.isPrefixOf_iff_prefix.mp atHead).length_le
  rw [operatorLength]
  split
  next three => exact fits (by decide) three
  next =>
    split
    next two => exact fits (by decide) two
    next => exact Nat.succ_le_succ (Nat.zero_le _)

/-- An operator is scanned whole, as long as it can be. -/
theorem scanOperator_sound {c : Char} (punctuation : isPunctuation c = true) (s : List Char) :
    (scanOperator c s).Sound (c :: s) := by
  obtain ⟨isOperator, longest⟩ := operatorLength_sound punctuation s
  have positive : operatorLength (c :: s) = operatorLength (c :: s) - 1 + 1 := by
    rw [operatorLength]
    repeat' split
    all_goals rfl
  have lexeme : (c :: s).take (operatorLength (c :: s)) =
      c :: s.take (operatorLength (c :: s) - 1) := by
    rw [positive, List.take_succ_cons]
    rfl
  have whole : c :: s = (c :: s).take (operatorLength (c :: s)) ++
      s.drop (operatorLength (c :: s) - 1) := by
    rw [lexeme, List.cons_append, List.take_append_drop]
  rw [scanOperator, ← lexeme]
  refine ⟨_, whole, .operator isOperator, fun op isOp atHead => ?_⟩
  rw [← whole] at atHead
  rw [List.length_take]
  exact Nat.le_min.mpr ⟨longest op isOp atHead, atHead.length_le⟩

/-! ### Any item -/

/-- A comment of one line ends in front of the line end. -/
theorem scanLineComment_sound (rest : List Char) :
    (Scan.blank 0 (rest.dropWhile (· != '\n'))).Sound ('/' :: '/' :: rest) := by
  have noEnd : '\n' ∉ rest.takeWhile (· != '\n') := fun mem =>
    absurd (all_takeWhile _ _ _ mem) (by decide)
  refine ⟨.lineComment (rest.takeWhile (· != '\n')), ?_, ⟨noEnd, ?_⟩, rfl, ?_⟩
  · simp only [Space.chars, List.cons_append, List.takeWhile_append_dropWhile]
  · have head := List.head?_dropWhile_not (· != '\n') rest
    cases behind : rest.dropWhile (· != '\n') with
    | nil => exact .inl rfl
    | cons d ds =>
      rw [behind] at head
      exact .inr (congrArg some (by simpa using head))
  · rw [Space.chars, List.count_cons_of_ne (by decide), List.count_cons_of_ne (by decide),
      List.count_eq_zero_of_not_mem noEnd]

/-- A comment over lines ends behind its sign. -/
theorem scanBlockComment_sound (rest : List Char) :
    (scanComment 0 rest).Sound ('/' :: '*' :: rest) := by
  have sound := scanComment_sound 0 rest
  generalize scanComment 0 rest = item at sound ⊢
  cases item with
  | blank n rest' =>
    obtain ⟨text, rfl, first, rfl⟩ := sound
    refine ⟨.blockComment text, ?_, first, rfl, ?_⟩
    · simp [Space.chars]
    · simp [Space.chars]
  | fault cause n =>
    obtain ⟨rfl, rfl⟩ := sound
    cases rest <;> simp [Scan.Sound]
  | newline | splice | token => exact sound.elim

/-- As `scanString_sound`, with the quote in front. -/
theorem scanString_sound_of_quote (rest : List Char) :
    (scanString [] rest).Sound ('"' :: rest) := by
  have sound := scanString_sound [] rest
  generalize scanString [] rest = item at sound ⊢
  cases item with
  | token kind text value rest' =>
    obtain ⟨ws, cs, rfl, rfl, rfl, spells⟩ := sound
    exact ⟨_, by simp, .string spells, trivial⟩
  | fault cause n =>
    obtain ⟨rfl, rfl⟩ := sound
    exact rfl
  | newline | splice | blank => exact sound.elim

/-- Whatever is read stands there. -/
theorem scan_sound (c : Char) (s : List Char) : (scan c s).Sound (c :: s) := by
  unfold scan
  split
  case h_1 => exact rfl
  case h_2 => exact rfl
  case h_3 => exact scanLineComment_sound _
  case h_4 => exact scanBlockComment_sound _
  case h_5 => exact scanString_sound_of_quote _
  case h_6 => exact scanCharacter_sound _
  case h_7 notNewline _ _ _ _ _ =>
    split
    next blank =>
      have lines : 0 = [c].count '\n' := (List.count_eq_zero_of_not_mem fun mem =>
        notNewline (List.mem_singleton.mp mem).symm).symm
      exact ⟨.blank c, rfl, blank, rfl, lines⟩
    next =>
      split
      next digit => exact scanNumber_sound digit s
      next =>
        split
        next start => exact scanWord_sound start s
        next =>
          split
          next punctuation => exact scanOperator_sound punctuation s
          next => exact rfl

/-- A blank is skipped. -/
theorem scan_blank (s : List Char) : scan ' ' s = .blank 0 s := by
  have blank : isBlank ' ' = true := by decide
  simp [scan, blank]

/-- What is left behind a scan is an end of the source. -/
theorem scan_rest_suffix (c : Char) (s : List Char) : (scan c s).rest <:+ c :: s := by
  have sound := scan_sound c s
  cases item : scan c s with
  | newline | splice => rw [item] at sound; exact ⟨_, sound.symm⟩
  | blank => rw [item] at sound; obtain ⟨_, eq, _⟩ := sound; exact ⟨_, eq.symm⟩
  | token => rw [item] at sound; obtain ⟨_, eq, _⟩ := sound; exact ⟨_, eq.symm⟩
  | fault => exact List.nil_suffix

end BareC.Token
