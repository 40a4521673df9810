import BareC.Proofs.Directives.Items

/-!
# Conditional sections as trees

The lines of a source form a tree: a section begins at its `#if` and ends at its `#endif`, and the
lines between are groups of lines, which may have sections in them. A `Group` is such a tree, whose
tokens, one behind the other, are a source again. It knows directives by their spelling alone.

The pass keeps no tree. What it makes of the tokens of a tree is the items of the tree
(`Group.lays`).

A tree can be laid out in one way only, but a token list need not be the layout of any tree: a
section may be open at the end, and an `#else` may stand alone. Such lists have no `Group`, and what
the pass makes of them is not said here.

Words behind `#else` and `#endif` belong to the line and are not looked at, as the pass does not
look at them either.
-/

namespace BareC

/-! ## Lines -/

/-- The first words of the lines that sections are made of. -/
def sectionWords : List String :=
  ["if", "ifdef", "ifndef", "elif", "else", "endif"]

/-- A line that is a directive: its `#` and the words behind. -/
structure DirectiveLine where
  hash : Token
  words : List Token

namespace DirectiveLine

def tokens (d : DirectiveLine) : List Token :=
  d.hash :: d.words

def line (d : DirectiveLine) : LineNumber :=
  d.hash.line

/-- The spelling of the word that says what the directive is. -/
def keyword? (d : DirectiveLine) : Option String :=
  d.words.head?.map (·.text)

/-- The words behind the keyword. -/
def arguments (d : DirectiveLine) : List Token :=
  d.words.tail

def item (d : DirectiveLine) : SourceItem :=
  .directive (.ofWords d.words) d.line

/-- The tokens are those of one line. -/
structure WellFormed (d : DirectiveLine) : Prop where
  hash : d.hash.is "#" = true ∧ d.hash.startsLine = true
  words : ∀ t ∈ d.words, t.startsLine = false ∧ t.kind ≠ .eof ∧ t.kind ≠ .error

end DirectiveLine

/-- The tokens are a line that is no directive. -/
def IsTextLine (ts : List Token) : Prop :=
  ∃ first more, ts = first :: more ∧ first.startsLine = true ∧ first.is "#" = false ∧
    (∀ t ∈ more, t.startsLine = false) ∧ ∀ t ∈ ts, t.kind ≠ .eof ∧ t.kind ≠ .error

/-! ## Trees -/

mutual

/-- Lines and sections one below the other. -/
inductive Group where
  | nil
  | text (line : List Token) (rest : Group)
  /-- A directive that has no part in a section. -/
  | control (line : DirectiveLine) (rest : Group)
  /-- A section with its first group; `others` are the groups after that and the line that ends it.
  -/
  | ifSection (opening : DirectiveLine) (group : Group) (others : Alternatives) (rest : Group)

/-- What follows the first group of a section. -/
inductive Alternatives where
  | endIf (line : DirectiveLine)
  | otherwise (line : DirectiveLine) (group : Group) (ending : DirectiveLine)
  | elif (line : DirectiveLine) (group : Group) (others : Alternatives)

end

mutual

def Group.tokens : Group → List Token
  | .nil => []
  | .text line rest => line ++ rest.tokens
  | .control line rest => line.tokens ++ rest.tokens
  | .ifSection opening group others rest =>
    opening.tokens ++ (group.tokens ++ (others.tokens ++ rest.tokens))

def Alternatives.tokens : Alternatives → List Token
  | .endIf line => line.tokens
  | .otherwise line group ending => line.tokens ++ (group.tokens ++ ending.tokens)
  | .elif line group others => line.tokens ++ (group.tokens ++ others.tokens)

end

mutual

def Group.items : Group → List SourceItem
  | .nil => []
  | .text line rest => line.map .text ++ rest.items
  | .control line rest => line.item :: rest.items
  | .ifSection opening group others rest =>
    opening.item :: (group.items ++ (others.items ++ rest.items))

def Alternatives.items : Alternatives → List SourceItem
  | .endIf line => [line.item]
  | .otherwise line group ending => line.item :: (group.items ++ [ending.item])
  | .elif line group others => line.item :: (group.items ++ others.items)

end

mutual

/-- The lines are what they stand for in the tree. -/
def Group.WellFormed : Group → Prop
  | .nil => True
  | .text line rest => IsTextLine line ∧ rest.WellFormed
  | .control line rest =>
    line.WellFormed ∧ (∀ word ∈ line.keyword?, word ∉ sectionWords) ∧ rest.WellFormed
  | .ifSection opening group others rest =>
    opening.WellFormed ∧ (∃ word ∈ ["if", "ifdef", "ifndef"], opening.keyword? = some word) ∧
      group.WellFormed ∧ others.WellFormed ∧ rest.WellFormed

def Alternatives.WellFormed : Alternatives → Prop
  | .endIf line => line.WellFormed ∧ line.keyword? = some "endif"
  | .otherwise line group ending =>
    (line.WellFormed ∧ line.keyword? = some "else") ∧ group.WellFormed ∧
      ending.WellFormed ∧ ending.keyword? = some "endif"
  | .elif line group others =>
    (line.WellFormed ∧ line.keyword? = some "elif") ∧ group.WellFormed ∧ others.WellFormed

end

/-- The line that ends the section. -/
def Alternatives.lastLine : Alternatives → LineNumber
  | .endIf line => line.line
  | .otherwise _ _ ending => ending.line
  | .elif _ _ others => others.lastLine

/-! ## The items of a tree -/

/-- In front of any tokens that are apart from them, the tokens make these items. -/
def Lays (ts : List Token) (items : List SourceItem) : Prop :=
  ∀ us, SourceItem.Apart us →
    SourceItem.Apart (ts ++ us) ∧ SourceItem.ofTokens (ts ++ us) = items ++ SourceItem.ofTokens us

namespace Lays

/-- No tokens are laid out as no items. -/
theorem nil : Lays [] [] :=
  fun _ apart => ⟨apart, rfl⟩

/-- Layouts stand one behind the other. -/
theorem append {ts ts' : List Token} {items items' : List SourceItem} (h : Lays ts items)
    (h' : Lays ts' items') : Lays (ts ++ ts') (items ++ items') := by
  intro us apart
  obtain ⟨apart', behind⟩ := h' us apart
  obtain ⟨apart'', all⟩ := h (ts' ++ us) apart'
  rw [List.append_assoc, List.append_assoc, ← behind]
  exact ⟨apart'', all⟩

end Lays

open SourceItem

/-- A well-formed directive line is laid out as its one item. -/
theorem DirectiveLine.WellFormed.lays {d : DirectiveLine} (h : d.WellFormed) :
    Lays d.tokens [d.item] := by
  intro us apart
  have starts : startsDirective d.hash = true := by rw [startsDirective, h.hash.1, h.hash.2]; rfl
  have continues : ∀ t ∈ d.words, continuesDirective t = true := fun t mem => by
    obtain ⟨onLine, notEof, notMarker⟩ := h.words t mem
    simp [continuesDirective, onLine, notEof, notMarker]
  have stops : us.takeWhile continuesDirective = [] ∧ us.dropWhile continuesDirective = us :=
    takeWhile_append_apart [] apart
  refine ⟨fun t first => ?_, ?_⟩
  · obtain rfl := Option.some.inj first
    rw [continuesDirective, h.hash.2]
    rfl
  · rw [tokens, List.cons_append, ofTokens_directive starts, List.takeWhile_append_of_pos continues,
      List.dropWhile_append_of_pos continues, stops.1, stops.2, List.append_nil]
    rfl

/-- A line of text is laid out as its tokens, item by item. -/
theorem IsTextLine.lays {ts : List Token} (h : IsTextLine ts) : Lays ts (ts.map .text) := by
  obtain ⟨first, more, rfl, starts, noHash, onLine, plain⟩ := h
  intro us apart
  have words : ∀ {ts : List Token}, (∀ t ∈ ts, startsDirective t = false) →
      (∀ t ∈ ts, t.kind ≠ .eof ∧ t.kind ≠ .error) →
      ofTokens (ts ++ us) = ts.map .text ++ ofTokens us := by
    intro ts texts plain
    induction ts with
    | nil => rfl
    | cons t ts ih =>
      obtain ⟨text, texts⟩ := List.forall_mem_cons.mp texts
      obtain ⟨⟨notEof, notMarker⟩, plain⟩ := List.forall_mem_cons.mp plain
      rw [List.cons_append, ofTokens_text notEof notMarker text, ih texts plain]
      rfl
  refine ⟨fun t same => ?_, words (List.forall_mem_cons.mpr ⟨?_, fun t mem => ?_⟩) plain⟩
  · obtain rfl := Option.some.inj same
    rw [continuesDirective, starts]
    rfl
  · rw [startsDirective, noHash]
    rfl
  · rw [startsDirective, onLine t mem, Bool.and_false]

mutual

/-- The tokens of a tree make the items of the tree. -/
theorem Group.lays : (g : Group) → g.WellFormed → Lays g.tokens g.items
  | .nil, _ => .nil
  | .text _ rest, ⟨line, wf⟩ => line.lays.append (rest.lays wf)
  | .control _ rest, ⟨line, _, wf⟩ => line.lays.append (rest.lays wf)
  | .ifSection _ group others rest, ⟨opening, _, wf, wf', wf''⟩ =>
    opening.lays.append ((group.lays wf).append ((others.lays wf').append (rest.lays wf'')))

/-- Alternatives are laid out as their items, one case for each kind. -/
theorem Alternatives.lays : (a : Alternatives) → a.WellFormed → Lays a.tokens a.items
  | .endIf _, ⟨line, _⟩ => line.lays
  | .otherwise _ group _, ⟨⟨line, _⟩, wf, ending, _⟩ =>
    line.lays.append ((group.lays wf).append ending.lays)
  | .elif _ group others, ⟨⟨line, _⟩, wf, wf'⟩ =>
    line.lays.append ((group.lays wf).append (others.lays wf'))

end

end BareC
