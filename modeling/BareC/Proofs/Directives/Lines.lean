import BareC.Proofs.Directives.Likeness
import BareC.Proofs.Lexing.LineEnds

/-!
# Sources taken apart at their lines

The tokens of a source know the lines they stand on and nothing else of what stands in front of
them, if that ends with a line. So the tokens of a source that is put together from lines are those
of the parts, up to their lines (`Reads.like`).

A line number here is a word that wraps. So a source moved down by some lines has its tokens on the
sums of these words, whatever their size, and no bound on the number of lines is asked for.

What is said needs the line in front to have ended. A source cut in the middle of a line, inside a
comment or behind a backslash, falls into parts that do not read alike, and nothing is said of
these.
-/

namespace BareC

/-- Any line will do. -/
def AnyLine (_ _ : LineNumber) : Prop := True

namespace Token

open SourceItem (Apart ofTokens)

/-! ## Away from its line -/

/-- The positions differ in their lines at most, which are in the relation `L`. -/
structure Position.Like (L : LineNumber → LineNumber → Prop) (p q : Position) : Prop where
  line : L p.line q.line
  startsLine : p.startsLine = q.startsLine
  spaced : p.spaced = q.spaced

section Like

variable {L : LineNumber → LineNumber → Prop}
    (counts : ∀ {m n} lines, L m n → L (m + lines) (n + lines))
  {p q p' : Position} {s r : List Char} {ts : List Token}
include counts

/-- Whatever is scanned moves positions that are alike to positions that are. -/
theorem Scan.like_after (like : p.Like L p') (item : Scan) :
    (item.after p).Like L (item.after p') := by
  cases item with
  | newline => exact ⟨counts 1 like.line, rfl, rfl⟩
  | splice => exact { like with line := counts 1 like.line }
  | blank lines => exact ⟨counts (.ofNat lines) like.line, like.startsLine, rfl⟩
  | token => exact ⟨like.line, rfl, rfl⟩
  | fault => exact like

/-- At positions that differ in their lines, the same is read up to lines. -/
theorem Reads.like (h : Reads p s ts q r) (like : p.Like L p') :
    ∃ ts' q', Reads p' s ts' q' r ∧ Tokens.Like L ts ts' ∧ q.Like L q' := by
  induction h generalizing p' with
  | refl p s => exact ⟨[], p', .refl p' s, .nil, like⟩
  | @item p c s ts q r ok _ ih =>
    have tokens : Tokens.Like L ((scan c s).tokens p) ((scan c s).tokens p') := by
      cases scan c s with
      | token => exact .cons ⟨rfl, rfl, rfl, like.startsLine, like.spaced, like.line⟩ .nil
      | newline | splice | blank | fault => exact .nil
    obtain ⟨ts', q', reads, others, behind⟩ := ih (Scan.like_after counts like (scan c s))
    exact ⟨_, q', .item ok reads, List.rel_append tokens others, behind⟩

/-- One text read from positions that are alike gives tokens that are: what a header's lines do to
the tokens behind it. -/
theorem like_tokensFrom (like : p.Like L p') (s : List Char) :
    Tokens.Like L (tokensFrom p s) (tokensFrom p' s) := by
  have atEnd : ∀ {m n}, L m n → Token.Like L (endOfSource m) (endOfSource n) := fun line =>
    ⟨rfl, rfl, rfl, rfl, rfl, line⟩
  obtain ⟨ts, q, toEnd | ⟨c, r, cause, lines, toFault, fault⟩⟩ := reads_to_end_or_fault p s
  · obtain ⟨ts', q', reads, tokens, behind⟩ := toEnd.like counts like
    rw [toEnd.tokensFrom_eq, reads.tokensFrom_eq, tokensFrom_nil, tokensFrom_nil]
    exact List.rel_append tokens (.cons (atEnd behind.line) .nil)
  · obtain ⟨ts', q', reads, tokens, behind⟩ := toFault.like counts like
    have line := counts (.ofNat lines) behind.line
    rw [toFault.tokensFrom_eq, reads.tokensFrom_eq, tokensFrom_of_fault fault,
      tokensFrom_of_fault fault]
    exact List.rel_append tokens
      (.cons ⟨rfl, rfl, rfl, behind.startsLine, rfl, line⟩ (.cons (atEnd line) .nil))

end Like

/-! ## Where lines begin -/

/-- What yields no token leaves a position at the start of its line there. -/
theorem Scan.startsLine_after {p : Position} (starts : p.startsLine = true) {item : Scan}
    (none : item.tokens p = []) : (item.after p).startsLine = true := by
  cases item with
  | newline => rfl
  | splice | blank | fault => exact starts
  | token => cases none

/-- A token starts its line where the position does. -/
theorem Scan.startsLine_of_mem_tokens {p : Position} {item : Scan} {t : Token}
    (mem : t ∈ item.tokens p) : t.startsLine = p.startsLine := by
  cases item with
  | token =>
    obtain rfl := List.mem_singleton.mp mem
    rfl
  | newline | splice | blank | fault => cases mem

/-- No directive goes on where a line begins. -/
theorem apart_tokensFrom {p : Position} (starts : p.startsLine = true) (s : List Char) :
    Apart (tokensFrom p s) := by
  match s with
  | [] =>
    intro t first
    rw [tokensFrom_nil] at first
    obtain rfl := Option.some.inj first
    rfl
  | c :: s =>
    cases item : scan c s with
    | fault cause lines =>
      intro t first
      rw [tokensFrom_of_fault item] at first
      obtain rfl := Option.some.inj first
      exact Bool.and_false _
    | newline | splice | blank | token =>
      have ok : (scan c s).isFault = false := by rw [item]; rfl
      have shorter := scan_rest_length_le c s
      rw [tokensFrom_cons ok]
      cases tokens : (scan c s).tokens p with
      | nil => exact apart_tokensFrom (Scan.startsLine_after starts tokens) _
      | cons t ts =>
        have mem : t ∈ (scan c s).tokens p := tokens ▸ List.mem_cons_self
        intro u first
        rw [← Option.some.inj first, SourceItem.continuesDirective,
          Scan.startsLine_of_mem_tokens mem, starts]
        rfl
termination_by s.length
decreasing_by all_goals exact Nat.lt_succ_of_le shorter

/-- Whole lines are read alike in front of others. -/
theorem Reads.append_of_lines {p q : Position} {s : List Char} {ts : List Token}
    (h : Reads p s ts q []) (lines : s = [] ∨ s.getLast? = some '\n') (b : List Char) :
    Reads p (s ++ b) ts q b := by
  refine h.append_of_closed (lines.imp_right .inl) fun backslash => ?_
  rcases lines with rfl | last
  · cases backslash
  · rw [last] at backslash
    cases backslash

/-- The items of a source can be cut where a line begins. -/
theorem Reads.ofTokens_tokensFrom {p q : Position} {s r : List Char} {ts : List Token}
    (h : Reads p s ts q r) (starts : q.startsLine = true) :
    ofTokens (tokensFrom p s) = ofTokens ts ++ ofTokens (tokensFrom q r) := by
  rw [h.tokensFrom_eq]
  exact SourceItem.ofTokens_append (fun t mem => (h.not_marker t mem).2) (apart_tokensFrom starts r)

/-! ## The line of an include -/

/-- Without quotes, backslashes and line ends a string is written as it is meant. -/
theorem spellsString_of_eq {ws cs : List Char} (same : ws = cs)
    (plain : cs.all (fun c => c != '"' && c != '\n' && c != '\\' && isAscii c) = true) :
    SpellsString ws cs := by
  subst same
  induction ws with
  | nil => exact .nil
  | cons c cs ih =>
    simp only [List.all_cons, Bool.and_eq_true, bne_iff_ne] at plain
    obtain ⟨⟨⟨⟨notQuote, notEnd⟩, notBackslash⟩, ascii⟩, plain⟩ := plain
    exact .cons (.plain notQuote notEnd notBackslash ascii) (ih (by simpa using plain))

/-- The sign of a directive is a token whatever follows the word behind it. -/
theorem scan_hash (s : List Char) : scan '#' ('i' :: s) = .token .punct ['#'] 0 ('i' :: s) := by
  have kinds : isBlank '#' = false ∧ '#'.isDigit = false ∧ isWordStart '#' = false ∧
      isPunctuation '#' = true := by decide
  have alone : operatorLength ('#' :: 'i' :: s) = 1 := by
    simp [operatorLength, operators3, operators2]
  simp [scan, kinds, scanOperator, alone]

/-- The word `include` ends at the blank behind it. -/
theorem scan_include (s : List Char) : scan 'i' (['n', 'c', 'l', 'u', 'd', 'e'] ++ ' ' :: s) =
    .token .ident ['i', 'n', 'c', 'l', 'u', 'd', 'e'] 0 (' ' :: s) := by
  have kinds : isBlank 'i' = false ∧ 'i'.isDigit = false ∧ isWordStart 'i' = true := by decide
  have parts : ['n', 'c', 'l', 'u', 'd', 'e'].all isWordPart = true := by decide
  have stops : isWordPart ' ' = false := by decide
  have inWord := List.all_eq_true.mp parts
  have word : scan 'i' (['n', 'c', 'l', 'u', 'd', 'e'] ++ ' ' :: s) =
      scanWord 'i' (['n', 'c', 'l', 'u', 'd', 'e'] ++ ' ' :: s) := by simp [scan, kinds]
  rw [word, scanWord, List.takeWhile_append_of_pos inWord, List.dropWhile_append_of_pos inWord,
    List.takeWhile_cons, List.dropWhile_cons, stops]
  rfl

/-- The line end as one character. -/
theorem map_lineEnd : (Bytes.ofText "\n").map charOfByte = ['\n'] := by decide +kernel

/-- The line of an include up to its quote. -/
def includeChars : List Char :=
  ['#', 'i', 'n', 'c', 'l', 'u', 'd', 'e', ' ', '"']

/-- The line that includes the header whose name is spelled so. -/
def includeLine (spelling : Bytes) : Bytes :=
  Bytes.ofText "#include \"" ++ spelling ++ Bytes.ofText "\"\n"

/-- The characters of an inclusion line. -/
theorem map_includeLine (spelling : Bytes) :
    (includeLine spelling).map charOfByte =
      includeChars ++ (spelling.map charOfByte ++ ['"', '\n']) := by
  have front : (Bytes.ofText "#include \"").map charOfByte = includeChars := by decide +kernel
  have back : (Bytes.ofText "\"\n").map charOfByte = ['"', '\n'] := by decide +kernel
  rw [includeLine, List.map_append, List.map_append, front, back, List.append_assoc]

/-- The tokens of the line of an include that is found at a position. -/
def includeTokens (p : Position) (name : List Char) : List Token :=
  [⟨.punct, "#", 0, p.line, p.startsLine, p.spaced⟩, ⟨.ident, "include", 0, p.line, false, false⟩,
    ⟨.str, String.ofList name, 0, p.line, false, true⟩]

/-- An inclusion line reads as its three tokens and leaves the position at the start of the next
line. -/
theorem reads_includeLine {spelling : Bytes} {name : List Char}
    (h : SpellsString (spelling.map charOfByte) name) (p : Position) (rest : List Char) :
    Reads p ((includeLine spelling).map charOfByte ++ rest) (includeTokens p name)
      ⟨p.line + 1, true, false⟩ rest := by
  have hashText : "#" = String.ofList ['#'] := by decide +kernel
  have wordText : "include" = String.ofList ['i', 'n', 'c', 'l', 'u', 'd', 'e'] := by decide +kernel
  have string : scan '"' (spelling.map charOfByte ++ '"' :: '\n' :: rest) =
    .token .str name 0 ('\n' :: rest) :=
    scanString_of_spells h [] _
  have lineEnd : Reads ⟨p.line, false, false⟩ ('\n' :: rest) [] ⟨p.line + 1, true, false⟩ rest :=
    .space rfl rfl rfl (.refl ..)
  have quoted :
      Reads ⟨p.line, false, false⟩ (' ' :: '"' :: (spelling.map charOfByte ++ '"' :: '\n' :: rest))
      [⟨.str, String.ofList name, 0, p.line, false, true⟩] ⟨p.line + 1, true, false⟩ rest :=
    .blank (scan_blank _) (.token string lineEnd)
  rw [map_includeLine, includeTokens, hashText, wordText, List.append_assoc, List.append_assoc]
  exact .token (scan_hash _) (.token (scan_include _) quoted)

/-- At the start of a line those tokens are one directive. -/
theorem ofTokens_includeTokens {p : Position} (starts : p.startsLine = true) (name : List Char) :
    ofTokens (includeTokens p name) =
      [.directive (.includeHeader [⟨.str, String.ofList name, 0, p.line, false, true⟩])
        p.line] := by
  have hash :
      SourceItem.startsDirective ⟨.punct, "#", 0, p.line, p.startsLine, p.spaced⟩ = true := by
    rw [SourceItem.startsDirective, starts]
    rfl
  have words : SourceItem.continuesDirective ⟨.ident, "include", 0, p.line, false, false⟩ = true ∧
      SourceItem.continuesDirective ⟨.str, String.ofList name, 0, p.line, false, true⟩ = true :=
    ⟨rfl, rfl⟩
  simp [includeTokens, SourceItem.ofTokens_directive hash, words, Directive.ofWords]

end Token

end BareC
