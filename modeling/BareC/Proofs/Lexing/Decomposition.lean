import BareC.Proofs.Lexing.Readings
import Mathlib.Algebra.Group.Nat.Defs
import Mathlib.Data.List.DropRight

/-!
# A source is its gaps and lexemes

Reading a source loses nothing and invents nothing: the source is a gap, the lexeme of the first
token, a gap, the lexeme of the second, and so on to a last gap. What a token says of its place is a
fact about the source before its lexeme, and is stated here without the scanner's bookkeeping: its
line is counted in line ends, and its two marks are read off the gap in front of it. A line number
has 32 bits, so it is the count of line ends only for sources with fewer than 2³² - 1 of them;
beyond, it starts again from zero.

The bookkeeping is `Divides`, which follows a position through the pieces; `Cut.Fits` is what is
left of it when the position is forgotten.

A source with a fault is decomposed up to the place where nothing can be read, and of what stands
behind it nothing is said, as the scanner stops there. Which spellings are lexemes of a kind is
`Lexemes`; here they are only put in their places.
-/

namespace BareC.Token

/-- A token with its lexeme and the gap in front of it. -/
structure Cut where
  gap : List Space
  lexeme : List Char
  token : Token

/-- The part of the source that a cut takes. -/
def Cut.chars (cut : Cut) : List Char :=
  gapChars cut.gap ++ cut.lexeme

/-- The part of the source that cuts take. -/
def cutChars (cuts : List Cut) : List Char :=
  cuts.flatMap Cut.chars

/-- The characters of the cuts are those of the first, its gap in front, and of the others. -/
@[simp]
theorem cutChars_cons (cut : Cut) (cuts : List Cut) :
    cutChars (cut :: cuts) = gapChars cut.gap ++ (cut.lexeme ++ cutChars cuts) := by
  rw [cutChars, List.flatMap_cons, Cut.chars, List.append_assoc]
  rfl

/-- The pieces of a gap that stand on the line of what follows. -/
def lastLine (gap : List Space) : List Space :=
  gap.rtakeWhile (· ≠ .newline)

/-! ## Positions -/

/-- The position behind a piece of space. -/
def Space.pass (p : Position) : Space → Position
  | .newline => ⟨p.line + 1, true, false⟩
  | .splice => { p with line := p.line + 1 }
  | piece => { p with line := p.line + .ofNat (piece.chars.count '\n'), spaced := true }

/-- The position behind a gap. -/
def Position.behind (p : Position) (gap : List Space) : Position :=
  gap.foldl Space.pass p

namespace Position

/-- A gap moves the line on by its line ends. -/
theorem line_behind (p : Position) (gap : List Space) :
    (p.behind gap).line = p.line + .ofNat ((gapChars gap).count '\n') := by
  induction gap generalizing p with
  | nil => exact (UInt32.add_zero _).symm
  | cons piece gap ih =>
    rw [gapChars_cons, List.count_append, UInt32.ofNat_add, ← UInt32.add_assoc, behind,
      List.foldl_cons, ← behind, ih]
    cases piece <;> rfl

/-- Behind a gap a line starts if one ends within it, or started in front. -/
theorem startsLine_behind (p : Position) (gap : List Space) :
    (p.behind gap).startsLine = true ↔ p.startsLine = true ∨ .newline ∈ gap := by
  induction gap generalizing p with
  | nil => simp [behind]
  | cons piece gap ih =>
    rw [behind, List.foldl_cons, ← behind, ih]
    cases piece <;> simp [Space.pass]

/-- Only what stands on the last line of the gap separates. -/
theorem spaced_behind {p : Position} (unspaced : p.spaced = false) (gap : List Space) :
    (p.behind gap).spaced = true ↔ ∃ piece ∈ lastLine gap, piece.separates = true := by
  induction gap using List.reverseRecOn with
  | nil => simp [behind, unspaced, lastLine]
  | append_singleton gap piece ih =>
    rw [behind, List.foldl_concat, ← behind, lastLine, List.rtakeWhile_concat, ← lastLine]
    cases piece <;> simp [Space.pass, Space.separates]
    exact ih

end Position

/-! ## The bookkeeping of a division -/

/-- The position behind cuts and a gap, read from position `p` on. A token leaves nothing of its
position but the line. -/
def Position.past (p : Position) (gap : List Space) : List Cut → Position
  | [] => p.behind gap
  | cut :: cuts => past ⟨(p.behind cut.gap).line, false, false⟩ gap cuts

/-- A cut is in its place: `q` is the position in front of its lexeme, and `rest` what is behind. -/
structure Cut.Stands (q : Position) (rest : List Char) (cut : Cut) : Prop where
  gap : ProperGap (cut.lexeme ++ rest) cut.gap
  spelled : Spells cut.token.kind cut.token.text.toList cut.lexeme
  longest : Longest rest cut.lexeme cut.token.kind
  line : cut.token.line = q.line
  startsLine : cut.token.startsLine = q.startsLine
  spaced : cut.token.spaced = q.spaced

/-- All cuts are in their places if `p` is the position in front of them, and what is behind them is
a gap and a rest. -/
def Divides (p : Position) (gap : List Space) (rest : List Char) : List Cut → Prop
  | [] => ProperGap rest gap
  | cut :: cuts =>
    cut.Stands (p.behind cut.gap) (cutChars cuts ++ (gapChars gap ++ rest)) ∧
      Divides ⟨(p.behind cut.gap).line, false, false⟩ gap rest cuts

namespace Divides

variable {p : Position} {gap : List Space} {rest : List Char} {cuts earlier later : List Cut}
  {cut : Cut}

/-- The gap of a division is made of what separates tokens. -/
theorem properGap (h : Divides p gap rest cuts) : ProperGap rest gap := by
  induction cuts generalizing p with
  | nil => exact h
  | cons cut cuts ih => exact ih h.2

/-- Every cut of a division stands where the earlier ones end. -/
theorem stands (h : Divides p gap rest (earlier ++ cut :: later)) :
    cut.Stands (p.past cut.gap earlier) (cutChars later ++ (gapChars gap ++ rest)) := by
  induction earlier generalizing p with
  | nil => exact h.1
  | cons first earlier ih => exact ih h.2

/-- A piece of space in front of everything belongs to the first gap. -/
theorem prepend {piece : Space} (h : Divides (piece.pass p) gap rest cuts)
    (proper : piece.Proper (cutChars cuts ++ (gapChars gap ++ rest))) :
    ∃ cuts' gap', cutChars cuts' ++ (gapChars gap' ++ rest) =
        piece.chars ++ (cutChars cuts ++ (gapChars gap ++ rest)) ∧
      Divides p gap' rest cuts' ∧ cuts'.map (·.token) = cuts.map (·.token) ∧
      p.past gap' cuts' = (piece.pass p).past gap cuts := by
  cases cuts with
  | nil => exact ⟨[], piece :: gap, by simp [cutChars], ⟨proper, h⟩, rfl, rfl⟩
  | cons cut cuts =>
    obtain ⟨first, others⟩ := h
    rw [cutChars_cons, List.append_assoc, List.append_assoc] at proper
    refine ⟨{ cut with gap := piece :: cut.gap } :: cuts, gap, by simp, ⟨?_, others⟩, rfl, rfl⟩
    exact { first with gap := ⟨proper, first.gap⟩ }

end Divides

/-- A piece of space is read as what it is. -/
theorem pass_of_tokens_eq_nil {c : Char} {s : List Char} (ok : (scan c s).isFault = false)
    (none : ∀ p, (scan c s).tokens p = []) :
    ∃ piece : Space, c :: s = piece.chars ++ (scan c s).rest ∧ piece.Proper (scan c s).rest ∧
      ∀ p, (scan c s).after p = piece.pass p := by
  have sound := scan_sound c s
  generalize scan c s = item at sound ok none
  cases item with
  | newline rest => exact ⟨.newline, sound, trivial, fun _ => rfl⟩
  | splice rest => exact ⟨.splice, sound, trivial, fun _ => rfl⟩
  | blank lines rest =>
    obtain ⟨piece, eq, proper, separates, rfl⟩ := sound
    refine ⟨piece, eq, proper, fun p => ?_⟩
    cases piece with
    | newline | splice => cases separates
    | blank | lineComment | blockComment => rfl
  | token => exact absurd (none {}) (List.cons_ne_nil _ _)
  | fault => cases ok

/-- What is read is divided. -/
theorem Reads.divides {p q : Position} {s r : List Char} {ts : List Token} (h : Reads p s ts q r) :
    ∃ cuts gap, s = cutChars cuts ++ (gapChars gap ++ r) ∧ Divides p gap r cuts ∧
      ts = cuts.map (·.token) ∧ q = p.past gap cuts := by
  induction h with
  | refl p s => exact ⟨[], [], rfl, trivial, rfl, rfl⟩
  | @item p c s ts q r ok _ ih =>
    obtain ⟨cuts, gap, source, divides, rfl, rfl⟩ := ih
    by_cases space : ∀ p, (scan c s).tokens p = []
    · obtain ⟨piece, eq, proper, pass⟩ := pass_of_tokens_eq_nil ok space
      rw [pass] at divides ⊢
      rw [source] at eq proper
      obtain ⟨cuts', gap', chars, divides', tokens, past⟩ := divides.prepend proper
      exact ⟨cuts', gap', eq.trans chars.symm, divides', by rw [tokens, space]; rfl, past.symm⟩
    · have sound := scan_sound c s
      generalize scan c s = item at *
      cases item with
      | token kind text value rest =>
        obtain ⟨lexeme, eq, spells, longest⟩ := sound
        obtain rfl : rest = _ := source
        refine ⟨⟨[], lexeme, ⟨kind, String.ofList text, value, p.line, p.startsLine, p.spaced⟩⟩ ::
          cuts, gap, ?_, ⟨⟨trivial, ?_, longest, rfl, rfl, rfl⟩, divides⟩, rfl, rfl⟩
        · rw [eq, cutChars_cons, List.append_assoc, List.append_assoc]
          rfl
        · rw [String.toList_ofList]
          exact spells
      | newline | splice | blank | fault => exact absurd (fun _ => rfl) space

/-! ## Facts about the source -/

namespace Position

/-- Behind cuts and a gap as many lines have ended as there are line ends in them. -/
theorem line_past (p : Position) (gap : List Space) {cuts : List Cut}
    (oneLine : ∀ cut ∈ cuts, '\n' ∉ cut.lexeme) :
    (p.past gap cuts).line = p.line + .ofNat ((cutChars cuts ++ gapChars gap).count '\n') := by
  induction cuts generalizing p with
  | nil => exact p.line_behind gap
  | cons cut cuts ih =>
    obtain ⟨first, others⟩ := List.forall_mem_cons.mp oneLine
    rw [past, ih _ others, line_behind, cutChars_cons]
    simp only [List.count_append, List.count_eq_zero_of_not_mem first, Nat.zero_add,
      UInt32.ofNat_add, UInt32.add_assoc]

/-- Past some cuts a line starts only if one ends in the gap behind them. -/
theorem startsLine_past (p : Position) (gap : List Space) (cuts : List Cut) :
    (p.past gap cuts).startsLine = true ↔
      cuts = [] ∧ p.startsLine = true ∨ .newline ∈ gap := by
  induction cuts generalizing p with
  | nil => simp [past, startsLine_behind]
  | cons cut cuts ih => simp [past, ih]

/-- Past some cuts there is space if the last line of the gap has any. -/
theorem spaced_past {p : Position} (unspaced : p.spaced = false) (gap : List Space)
    (cuts : List Cut) :
    (p.past gap cuts).spaced = true ↔ ∃ piece ∈ lastLine gap, piece.separates = true := by
  induction cuts generalizing p with
  | nil => exact spaced_behind unspaced gap
  | cons cut cuts ih => exact ih rfl

end Position

/-- The line behind so many line ends. Its number is theirs and one more, in 32 bits, and so exactly
that for fewer than 2³² - 1 of them. -/
structure LineBehind (ends : Nat) (line : LineNumber) : Prop where
  eq_ofNat : line = .ofNat (1 + ends)
  toNat_eq : 1 + ends < 2 ^ 32 → line.toNat = 1 + ends

/-- Counting on in 32 bits counts all line ends. -/
theorem LineBehind.add {ends : Nat} {line : LineNumber} (h : LineBehind ends line) (more : Nat) :
    LineBehind (ends + more) (line + .ofNat more) := by
  have sum : line + .ofNat more = .ofNat (1 + (ends + more)) := by
    rw [h.eq_ofNat, ← UInt32.ofNat_add, Nat.add_assoc]
  exact ⟨sum, fun fits => by rw [sum, UInt32.toNat_ofNat_of_lt' fits]⟩

/-- Counting begins on the first line. -/
theorem lineBehind_count (ends : Nat) : LineBehind ends (1 + .ofNat ends) := by
  have first : LineBehind 0 1 := ⟨rfl, fun _ => rfl⟩
  rw [← Nat.zero_add ends]
  simpa using first.add ends

/-- What is true of a cut in a source: `earlier` are the cuts in front of it, and `rest` is the
source behind its lexeme. -/
structure Cut.Fits (earlier : List Cut) (rest : List Char) (cut : Cut) : Prop where
  /-- The gap consists of complete pieces of space. -/
  properGap : ProperGap (cut.lexeme ++ rest) cut.gap
  /-- The lexeme is a spelling of the token. -/
  spelled : Spells cut.token.kind cut.token.text.toList cut.lexeme
  longest : Longest rest cut.lexeme cut.token.kind
  line : LineBehind ((cutChars earlier ++ gapChars cut.gap).count '\n') cut.token.line
  startsLine : cut.token.startsLine = true ↔ earlier = [] ∨ .newline ∈ cut.gap
  spaced : cut.token.spaced = true ↔ ∃ piece ∈ lastLine cut.gap, piece.separates = true

/-- The source consists of the cuts, a last gap and a rest, and every cut fits into it. -/
structure Decomposes (source : List Char) (cuts : List Cut) (gap : List Space) (rest : List Char) :
    Prop where
  source_eq : source = cutChars cuts ++ (gapChars gap ++ rest)
  properGap : ProperGap rest gap
  fits : ∀ earlier cut later, cuts = earlier ++ cut :: later →
    cut.Fits earlier (cutChars later ++ (gapChars gap ++ rest))

/-- No lexeme of a division holds a line end. -/
theorem Divides.oneLine {p : Position} {gap : List Space} {rest : List Char} {cuts : List Cut}
    (h : Divides p gap rest cuts) : ∀ cut ∈ cuts, '\n' ∉ cut.lexeme := by
  intro cut mem
  obtain ⟨earlier, later, rfl⟩ := List.append_of_mem mem
  exact h.stands.spelled.newline_not_mem

/-- A division of a source decomposes it. -/
theorem Divides.decomposes {gap : List Space} {rest : List Char} {cuts : List Cut}
    (h : Divides {} gap rest cuts) :
    Decomposes (cutChars cuts ++ (gapChars gap ++ rest)) cuts gap rest where
  source_eq := rfl
  properGap := h.properGap
  fits earlier cut later eq := by
    subst eq
    have stands := h.stands
    have oneLine : ∀ first ∈ earlier, '\n' ∉ first.lexeme := fun first mem =>
      h.oneLine first (List.mem_append_left _ mem)
    exact {
      properGap := stands.gap
      spelled := stands.spelled
      longest := stands.longest
      line := by
        rw [stands.line, Position.line_past _ _ oneLine]
        exact lineBehind_count _
      startsLine := by rw [stands.startsLine, Position.startsLine_past]; simp
      spaced := by rw [stands.spaced, Position.spaced_past rfl] }

/-- What has been read of a source decomposes, and the position that is reached is known from it. -/
theorem Reads.decomposes {q : Position} {s r : List Char} {ts : List Token}
    (h : Reads {} s ts q r) : ∃ cuts gap, Decomposes s cuts gap r ∧ ts = cuts.map (·.token) ∧
      LineBehind ((cutChars cuts ++ gapChars gap).count '\n') q.line ∧
      (q.startsLine = true ↔ cuts = [] ∨ .newline ∈ gap) := by
  obtain ⟨cuts, gap, rfl, divides, tokens, rfl⟩ := h.divides
  refine ⟨cuts, gap, divides.decomposes, tokens, ?_, ?_⟩
  · rw [Position.line_past _ _ divides.oneLine]
    exact lineBehind_count _
  · rw [Position.startsLine_past]
    simp

end BareC.Token
