import BareC.Host.Bare
import BareC.Proofs.Directives.Bodies
import BareC.Proofs.Directives.Selection
import BareC.Proofs.Lexing.Readings

/-!
# Conditional sections

The pass over the tokens of a tree of lines does what reading the tree line by line does
(`Token.expandAll_tokens`). Where the headers are trees as well, the tree can always be read so
(`readable_of_balanced`); and nothing is said of sections that do not match (`Walks.sober`).

The agreement is by induction on the walk and not on the tokens, since it is the walk that knows
which group was chosen. A header is walked through one level deeper, so the induction on the depth
is around the one on the tree.

Not every source is the tokens of a tree. One whose sections do not match is read all the same, with
markers where they fail to, and nothing is said of it here but that trees do not leave these
markers. For a header that is no tree there may be no walk, and then there is nothing to agree with.
-/

namespace BareC

open Expansion

variable {σ : Type} {host : Host σ} {depth : Nat}

/-! ## Every tree can be read -/

/-- Judging a condition asks nothing of the host. -/
theorem Expansion.host_judge (condition : List Token) (line : LineNumber) (e : Expansion σ) :
    (e.judge condition line).2.host = e.host := by
  unfold judge
  split <;> rfl

/-- As `Expansion.host_judge`, for the test of a conditional line. -/
theorem DirectiveLine.host_test (d : DirectiveLine) (e : Expansion σ) :
    (d.test e).2.host = e.host := by
  rw [test]
  split
  next => exact host_judge ..
  next => rfl

/-- Reading a line of text asks nothing of the host. -/
theorem Expansion.host_readText (ts : List Token) (e : Expansion σ) :
    (e.readText ts).host = e.host := by
  induction ts generalizing e with
  | nil => rfl
  | cons t ts ih => exact ih _

/-- From the state `s` on, the host has balanced headers only. -/
def Host.BalancedHeaders (host : Host σ) (s : σ) : Prop :=
  ∀ path s', host.Fetched s s' → ∀ contents ∈ (Header.fetch host path s').1, BalancedHeader contents

/-- Wherever the headers fetched from the state `s` on have led, the tree can be read line by line.
-/
def Readable (host : Host σ) (s : σ) (depth : Nat) (g : Group) : Prop :=
  ∀ e : Expansion σ, host.Fetched s e.host → ∃ e', Walks host depth g e e' ∧ host.Fetched s e'.host

variable {s : σ}

/-- A group that goes on with an inclusion is readable if the header is a group that is, one level
deeper, and so is what follows. -/
theorem readable_include (balanced : host.BalancedHeaders s)
    (inside : ∀ inner, depth = inner + 1 → ∀ tree : Group,
      tree.WellFormed → Readable host s inner tree)
    {d : DirectiveLine} {rest : Group} (keyword : d.keyword? = some "include")
    (behind : Readable host s depth rest) : Readable host s depth (.control d rest) := by
  intro e fetched
  cases named : Header.name d.arguments with
  | error f =>
    obtain ⟨e', walks, fetched'⟩ := behind ((e.goTo d.line).fault (.header f) d.line) fetched
    exact ⟨e', .unnamed keyword named walks, fetched'⟩
  | ok name =>
    cases depth with
    | zero =>
      obtain ⟨e', walks, fetched'⟩ := behind ((e.goTo d.line).fault .tooDeep d.line) fetched
      exact ⟨e', .tooDeep keyword named walks, fetched'⟩
    | succ depth =>
      have next := fetched.fetch (Bytes.ofText name)
      cases fetch : Header.fetch host (Bytes.ofText name) e.host with
      | mk contents? s' =>
        rw [fetch] at next
        cases contents? with
        | none =>
          obtain ⟨e', walks, fetched'⟩ :=
            behind (({ e.goTo d.line with host := s' }).fault (.headerNotFound name) d.line) next
          exact ⟨e', .missing keyword named fetch walks, fetched'⟩
        | some contents =>
          obtain ⟨tree, marker?, last, isIn⟩ :=
            balanced (Bytes.ofText name) e.host fetched contents (by rw [fetch]; rfl)
          obtain ⟨e₁, walks, fetched₁⟩ :=
            inside depth rfl tree isIn.wellFormed { e.goTo d.line with host := s' } next
          obtain ⟨e', walks', fetched'⟩ :=
            behind { e₁.goTo last with out := e₁.out ++ marker?.toList } fetched₁
          exact ⟨e', .header keyword named fetch isIn walks walks', fetched'⟩

mutual

/-- Beside includes, there is nothing in a tree that could not be read. -/
theorem Group.readable (includes : ∀ {d rest}, DirectiveLine.keyword? d = some "include" →
      Readable host s depth rest → Readable host s depth (.control d rest)) :
    (g : Group) → g.WellFormed → Readable host s depth g
  | .nil, _ => fun e fetched => ⟨e, .nil, fetched⟩
  | .text line rest, ⟨_, wf⟩ => fun e fetched => by
    obtain ⟨e', walks, fetched'⟩ :=
      rest.readable includes wf (e.readText line) (host_readText line e ▸ fetched)
    exact ⟨e', .text walks, fetched'⟩
  | .control d rest, ⟨_, _, wf⟩ => by
    have behind := rest.readable includes wf
    by_cases keyword : d.keyword? = some "include"
    · exact includes keyword behind
    · intro e fetched
      have obeyed := (keeps_host host).obey (.ofWords d.words) d.line (e.goTo d.line)
      obtain ⟨e', walks, fetched'⟩ := behind _ (obeyed ▸ fetched)
      exact ⟨e', .control keyword walks, fetched'⟩
  | .ifSection opening group others rest, ⟨_, _, wf, wf', wf''⟩ => fun e fetched => by
    have tested := opening.host_test (e.goTo opening.line)
    have chosen : ∃ e₂, Walks host depth (chooseGroup opening group others e).1
        (chooseGroup opening group others e).2 e₂ ∧ host.Fetched s e₂.host := by
      rw [chooseGroup]
      split
      next holds e' test =>
        rw [test] at tested
        split
        next => exact group.readable includes wf e' (tested ▸ fetched)
        next => exact others.readable includes wf' e' (tested ▸ fetched)
    obtain ⟨e₂, walks, fetched₂⟩ := chosen
    obtain ⟨e', walks', fetched'⟩ := rest.readable includes wf'' (e₂.goTo others.lastLine) fetched₂
    exact ⟨e', .ifSection rfl walks walks', fetched'⟩

/-- What the alternatives choose is readable when each of their groups is: the host stays as it was
while they are tried. -/
theorem Alternatives.readable (includes : ∀ {d rest}, DirectiveLine.keyword? d = some "include" →
      Readable host s depth rest → Readable host s depth (.control d rest)) :
    (a : Alternatives) → a.WellFormed → (e : Expansion σ) → host.Fetched s e.host →
    ∃ e', Walks host depth (a.choose e).1 (a.choose e).2 e' ∧ host.Fetched s e'.host
  | .endIf _, _, e, fetched => ⟨e, .nil, fetched⟩
  | .otherwise line group _, ⟨_, wf, _⟩, e, fetched =>
    group.readable includes wf (e.goTo line.line) fetched
  | .elif line group others, ⟨_, wf, wf'⟩, e, fetched => by
    have judged := host_judge line.arguments line.line (e.goTo line.line)
    rw [Alternatives.choose]
    split
    next holds e' judge =>
      rw [judge] at judged
      split
      next => exact group.readable includes wf e' (judged ▸ fetched)
      next => exact others.readable includes wf' e' (judged ▸ fetched)

end

/-- Where headers are balanced, every tree can be read line by line. -/
theorem readable_of_balanced (balanced : host.BalancedHeaders s) (depth : Nat) (g : Group)
    (wf : g.WellFormed) : Readable host s depth g := by
  induction depth generalizing g with
  | zero =>
    exact g.readable (readable_include balanced fun _ eq => absurd eq (Nat.succ_ne_zero _).symm) wf
  | succ depth ih =>
    refine g.readable (readable_include balanced fun inner eq => ?_) wf
    cases eq
    exact ih

/-! ## What is never said -/

/-- The faults of sections that do not match. -/
def unmatched : List DirectiveFault :=
  [.strayElif, .strayElse, .strayEndif, .unterminated]

/-- The token does not tell of a section that does not match. -/
def Token.Sober (t : Token) : Prop :=
  t.kind = .error → ∀ cause ∈ unmatched, t.text ≠ cause.message

/-- A token that is no marker is sober. -/
theorem Token.sober_of_kind {t : Token} (plain : t.kind ≠ .error) : t.Sober :=
  fun marker => absurd marker plain

/-- The lexer's own markers are none of the three that report an unmatched directive. -/
theorem Token.Fault.message_ne (fault : Token.Fault) :
    ∀ cause ∈ unmatched, fault.message ≠ cause.message := by
  cases fault <;> decide +kernel

/-- A directive's fault other than the three has a message of its own. -/
theorem DirectiveFault.message_ne {cause : DirectiveFault} (other : cause ∉ unmatched) :
    ∀ cause' ∈ unmatched, cause.message ≠ cause'.message := by
  have openings : cause.opening ∉ unmatched.map DirectiveFault.opening := by
    cases cause with
    | strayElif | strayElse | strayEndif | unterminated => simp [unmatched] at other
    | unsupportedCondition | namelessMacro | functionLikeMacro | header | tooDeep
    | headerNotFound | reported
    | unknown =>
      rw [DirectiveFault.opening]
      decide
  exact fun cause' mem same => openings
    (List.mem_map.mpr ⟨cause', mem, (DirectiveFault.opening_eq_of_message_eq same).symm⟩)

/-- A marker of the scanner has the message of a fault of its own. -/
theorem Token.exists_fault_of_mem_ofSource {source : Bytes} {t : Token} (mem : t ∈ ofSource source)
    (marker : t.kind = .error) : ∃ fault : Token.Fault, t.text = fault.message := by
  rw [ofSource_eq_tokensFrom] at mem
  obtain ⟨ts, q, toEnd | ⟨c, r, cause, lines, toFault, fault⟩⟩ :=
    reads_to_end_or_fault {} (source.map charOfByte)
  · rw [toEnd.tokensFrom_eq, tokensFrom_nil] at mem
    rcases List.mem_append.mp mem with mem | mem
    · exact absurd marker (toEnd.not_marker t mem).1
    · rw [List.mem_singleton.mp mem] at marker
      cases marker
  · rw [toFault.tokensFrom_eq, tokensFrom_of_fault fault] at mem
    rcases List.mem_append.mp mem with mem | mem
    · exact absurd marker (toFault.not_marker t mem).1
    · rcases List.mem_cons.mp mem with rfl | mem
      · exact ⟨cause, rfl⟩
      · rw [List.mem_singleton.mp mem] at marker
        cases marker

/-- No body of a macro has a marker in it. -/
def Macros.Plain (m : Macros) : Prop :=
  ∀ entry ∈ m, ∀ t ∈ entry.2, t.kind ≠ .error

namespace Macros.Plain

variable {m : Macros}

/-- Taking a name out leaves a table without markers. -/
theorem erase (h : m.Plain) (name : String) : (m.erase name).Plain :=
  OfKinds.erase (P := (· ≠ .error)) h name

/-- A table without markers brings none into what a token expands to. -/
theorem expand (h : m.Plain) {t : Token} (plain : t.kind ≠ .error) :
    ∀ u ∈ m.expand t, u.kind ≠ .error :=
  OfKinds.expand (P := (· ≠ .error)) h plain

/-- The predefined macros hold no marker. -/
theorem predefined : Macros.predefined.Plain := by
  have number : ∀ text ∈ ["1", "0", "32"],
    ∀ t ∈ (Token.ofSource (Bytes.ofText text)).filter (·.kind != .eof),
      t.kind ≠ .error := by
    intro text mem t inFilter
    have clean : Token.hasMarker (Token.ofSource (Bytes.ofText text)) = false := by
      rw [Token.ofSource_eq_tokensFrom, Token.hasMarker_tokensFrom_eq_false_iff]
      simp only [List.mem_cons, List.not_mem_nil, or_false] at mem
      rcases mem with rfl | rfl | rfl
      · rw [show (Bytes.ofText "1").map Token.charOfByte = ['1'] by decide +kernel]
        exact ⟨_, _, .item rfl (.refl ..)⟩
      · rw [show (Bytes.ofText "0").map Token.charOfByte = ['0'] by decide +kernel]
        exact ⟨_, _, .item rfl (.refl ..)⟩
      · rw [show (Bytes.ofText "32").map Token.charOfByte = ['3', '2'] by decide +kernel]
        exact ⟨_, _, .item rfl (.refl ..)⟩
    exact Token.hasMarker_eq_false_iff.mp clean t (List.mem_filter.mp inFilter).1
  refine List.forall_mem_map.mpr fun entry mem => ?_
  simp only [List.mem_cons, List.not_mem_nil, or_false] at mem
  rcases mem with rfl | rfl | rfl | rfl
  · exact number "1" (by decide)
  · exact number "0" (by decide)
  · exact number "1" (by decide)
  · exact number "32" (by decide)

end Macros.Plain

/-- Nothing that has been said, and no macro, tells of a section that does not match. -/
structure Expansion.Sober (e : Expansion σ) : Prop where
  out : ∀ t ∈ e.out.toList, t.Sober
  macros : e.macros.Plain

namespace Expansion.Sober

variable {e : Expansion σ}

/-- Moving on to a line leaves the expansion sober. -/
theorem goTo (h : e.Sober) (line : LineNumber) : (e.goTo line).Sober :=
  ⟨h.out, h.macros⟩

/-- As `Sober.goTo`, for a new state of the host. -/
theorem withHost (h : e.Sober) (s : σ) : ({ e with host := s } : Expansion σ).Sober :=
  ⟨h.out, h.macros⟩

/-- Sober tokens behind the output of a sober expansion leave it sober. -/
theorem append (h : e.Sober) {ts : List Token} (sober : ∀ t ∈ ts, t.Sober) :
    ({ e with out := e.out ++ ts } : Expansion σ).Sober := by
  refine ⟨fun t mem => ?_, h.macros⟩
  rw [Array.toList_appendList, List.mem_append] at mem
  exact mem.elim (h.out t) (sober t)

/-- A fault other than the three, once reported, leaves the expansion sober. -/
theorem fault (h : e.Sober) (cause : DirectiveFault) (other : cause ∉ unmatched)
    (line : LineNumber) : (e.fault cause line).Sober := by
  refine ⟨fun t mem => ?_, h.macros⟩
  rw [Expansion.fault, Array.toList_push, List.mem_append, List.mem_singleton] at mem
  exact mem.elim (h.out t) fun eq _ => eq ▸ DirectiveFault.message_ne other

/-- Judging a condition reports at most that it is not supported. -/
theorem judge (h : e.Sober) (condition : List Token) (line : LineNumber) :
    (e.judge condition line).2.Sober := by
  unfold Expansion.judge
  split
  next => exact h
  next => exact h.fault _ (by decide) line

/-- As `Sober.judge`, for the test of a conditional line. -/
theorem test (h : e.Sober) (d : DirectiveLine) : (d.test e).2.Sober := by
  rw [DirectiveLine.test]
  split
  next => exact h.judge ..
  next => exact h

/-- Trying alternatives one after the other leaves the expansion sober. -/
theorem choose : (a : Alternatives) → {e : Expansion σ} → e.Sober → (a.choose e).2.Sober
  | .endIf _, _, h => h
  | .otherwise line _ _, _, h => h.goTo line.line
  | .elif line group others, e, h => by
    have judged := (h.goTo line.line).judge line.arguments line.line
    rw [Alternatives.choose]
    split
    next eq =>
      rw [eq] at judged
      split
      next => exact judged
      next => exact choose others judged

/-- As `Sober.choose`, with the group behind the opening line tried first. -/
theorem chooseGroup (h : e.Sober) (opening : DirectiveLine) (group : Group)
    (others : Alternatives) : (chooseGroup opening group others e).2.Sober := by
  have tested := (h.goTo opening.line).test opening
  rw [BareC.chooseGroup]
  split
  next eq =>
    rw [eq] at tested
    split
    next => exact tested
    next => exact choose others tested

/-- A line of text without markers expands to tokens without markers. -/
theorem readText (h : e.Sober) {ts : List Token} (plain : ∀ t ∈ ts, t.kind ≠ .error) :
    (e.readText ts).Sober := by
  induction ts generalizing e with
  | nil => exact h
  | cons t ts ih =>
    obtain ⟨first, others⟩ := List.forall_mem_cons.mp plain
    exact ih ((h.goTo t.line).append fun u mem =>
      Token.sober_of_kind (h.macros.expand first u mem)) others

/-- A definition without markers keeps the expansion sober, whether it is accepted or reported. -/
theorem define (h : e.Sober) {words : List Token} (plain : ∀ t ∈ words, t.kind ≠ .error)
    (line : LineNumber) : (e.define line words).Sober := by
  cases words with
  | nil => exact h.fault .namelessMacro (by decide) line
  | cons name body =>
    rw [Expansion.define]
    split
    next => exact h.fault .namelessMacro (by decide) line
    next =>
      split
      next => exact h.fault .functionLikeMacro (by decide) line
      next =>
        obtain ⟨_, plain⟩ := List.forall_mem_cons.mp plain
        exact ⟨h.out, List.forall_mem_cons.mpr ⟨plain, h.macros.erase name.text⟩⟩

/-- A directive that is neither an inclusion nor part of a conditional keeps the expansion sober. -/
theorem obey (h : e.Sober) {words : List Token} (plain : ∀ t ∈ words, t.kind ≠ .error)
    {host : Host σ} (line : LineNumber) : (e.obey host none (.ofWords words) line).Sober := by
  cases words with
  | nil => exact h
  | cons t words =>
    obtain ⟨_, plain⟩ := List.forall_mem_cons.mp plain
    rw [Directive.ofWords]
    split
    case h_7 => exact h.define plain line
    case h_8 =>
      cases words with
      | nil => exact h
      | cons name _ => exact ⟨h.out, h.macros.erase name.text⟩
    case h_9 =>
      cases named : Header.name words with
      | error f =>
        rw [Expansion.obey, includeHeader_unnamed named]
        exact h.fault (.header f) (by simp [unmatched]) line
      | ok name =>
        rw [Expansion.obey, includeHeader_tooDeep named]
        exact h.fault .tooDeep (by decide) line
    case h_10 => exact h.fault (.reported _) (by simp [unmatched]) line
    case h_13 => exact h.fault (.unknown t.text) (by simp [unmatched]) line
    all_goals exact h

end Expansion.Sober

/-- What stands behind the group of a source is at most the lexer's own marker. -/
theorem Group.IsIn.sober {tree : Group} {marker? : Option Token} {last : LineNumber}
    {contents : Bytes} (h : tree.IsIn marker? last contents) : ∀ t ∈ marker?.toList, t.Sober := by
  intro t mem kind
  have inSource : t ∈ Token.ofSource contents := by
    rw [h.tokens]
    exact List.mem_append_right _ (List.mem_append_left _ mem)
  obtain ⟨fault, text⟩ := Token.exists_fault_of_mem_ofSource inSource kind
  rw [text]
  exact fault.message_ne

/-- A walk over a group leaves a sober expansion sober: the conditionals of a tree match by
construction, so nothing in it can report one that does not. -/
theorem Walks.sober {g : Group} {e e' : Expansion σ} (h : Walks host depth g e e')
    (wf : g.WellFormed) (sober : e.Sober) : e'.Sober := by
  induction h with
  | nil => exact sober
  | text _ ih =>
    obtain ⟨⟨_, _, _, _, _, _, plain⟩, wf⟩ := wf
    exact ih wf (sober.readText fun t mem => (plain t mem).2)
  | @control depth d rest e e' _ _ ih =>
    obtain ⟨line, _, wf⟩ := wf
    exact ih wf ((sober.goTo d.line).obey (fun t mem => (line.words t mem).2.2) d.line)
  | @unnamed _ d _ f _ _ _ _ _ ih =>
    exact ih wf.2.2 ((sober.goTo d.line).fault (.header f) (by simp [unmatched]) d.line)
  | @tooDeep d _ _ _ _ _ _ _ ih =>
    exact ih wf.2.2 ((sober.goTo d.line).fault .tooDeep (by decide) d.line)
  | @missing _ d _ name s _ _ _ _ _ _ ih =>
    exact ih wf.2.2
      (((sober.goTo d.line).withHost s).fault (.headerNotFound name) (by simp [unmatched]) d.line)
  | @header _ d _ _ _ s _ _ last _ _ _ _ _ _ isIn _ _ ih ih' =>
    have inside := ih isIn.wellFormed ((sober.goTo d.line).withHost s)
    exact ih' wf.2.2 ((inside.goTo last).append isIn.sober)
  | @ifSection _ opening group others _ _ _ _ _ _ choose _ _ ih ih' =>
    obtain ⟨_, _, wf, wf', wf''⟩ := wf
    have chosen := sober.chooseGroup opening group others
    rw [choose] at chosen
    have inside := ih (wellFormed_chooseGroup choose wf wf') chosen
    exact ih' wf'' (inside.goTo _)

/-! ## The pass over a tree -/

/-- The tokens of a tree are expanded to what is said when the tree is read line by line, where of
each section the group that is kept is read and nothing else. So nothing is said of sections that do
not match. With headers that are balanced, the tree can be read so. -/
theorem Token.expandAll_tokens (host : Host σ) (s : σ) {tree : Group} (wf : tree.WellFormed)
    {ending : List Token} (ends : ∀ t ∈ ending.head?, t.kind = .eof) :
    (∀ e, Walks host maxHeaderDepth tree { host := s } e →
      Token.expandAll host (tree.tokens ++ ending) s =
        (e.out.toList ++ [.endOfSource (ending.head?.elim e.line (·.line))], e.host) ∧
      ∀ t ∈ e.out.toList, t.kind = .error → ∀ cause ∈ unmatched, t.text ≠ cause.message) ∧
    (host.BalancedHeaders s → ∃ e, Walks host maxHeaderDepth tree { host := s } e) := by
  refine ⟨fun e walks => ⟨?_, ?_⟩, fun balanced => ?_⟩
  · have apart : SourceItem.Apart ending := fun t first => by
      rw [SourceItem.continuesDirective, ends t first]
      simp
    have ended : run host maxHeaderDepth (tree.tokens ++ ending) { host := s } =
        (e.goTo (ending.head?.elim e.line (·.line))).under [] := by
      rw [run_eq_pass, (tree.lays wf ending apart).2, pass_append]
      refine (congrArg _ (walks.passes wf [] rfl)).trans ?_
      cases ending with
      | nil => rw [SourceItem.ofTokens_nil]; rfl
      | cons t ts => rw [SourceItem.ofTokens_eof (ends t rfl)]; rfl
    rw [Token.expandAll, ended]
    exact Prod.ext Array.toList_push rfl
  · have begun : Expansion.Sober ({ host := s } : Expansion σ) :=
      ⟨List.forall_mem_nil _, Macros.Plain.predefined⟩
    exact (walks.sober wf begun).out
  · obtain ⟨e, walks, -⟩ := readable_of_balanced balanced maxHeaderDepth tree wf { host := s } .refl
    exact ⟨e, walks⟩

/-- A directive spelled with plain words. -/
def DirectiveLine.spelled (line : LineNumber) (words : List String) : DirectiveLine where
  hash := { kind := .punct, text := "#", line, startsLine := true }
  words := words.map fun text => { kind := .ident, text, line }

/-- A line with one word. -/
def wordLine (line : LineNumber) (text : String) : List Token :=
  [{ kind := .ident, text, line, startsLine := true }]

/-- Two groups of which the second is kept unless `FIRST` is defined. -/
def secondUnlessFirst : Group :=
  .ifSection (.spelled 1 ["ifdef", "FIRST"]) (.text (wordLine 2 "one") .nil)
    (.otherwise (.spelled 3 ["else"]) (.text (wordLine 4 "two") .nil) (.spelled 5 ["endif"])) .nil

/-- A directive line spelled from identifiers is well formed. -/
theorem wellFormed_spelled (line : LineNumber) (words : List String) :
    (DirectiveLine.spelled line words).WellFormed := by
  refine ⟨⟨rfl, rfl⟩, fun t mem => ?_⟩
  obtain ⟨text, -, rfl⟩ := List.mem_map.mp mem
  exact ⟨rfl, nofun, nofun⟩

/-- One word on a line of its own is a line of text, unless it is the sign of a directive. -/
theorem isTextLine_wordLine (line : LineNumber) {text : String} (noHash : text ≠ "#") :
    IsTextLine (wordLine line text) := by
  refine ⟨_, [], rfl, rfl, ?_, nofun, List.forall_mem_singleton.mpr ⟨nofun, nofun⟩⟩
  exact beq_false_of_ne noHash

/-- A token that is not replaced stands for itself, and no longer starts a line. -/
theorem Macros.expand_of_replacement?_eq_none {m : Macros} {t : Token}
    (kept : m.replacement? t = none) : m.expand t = [{ t with startsLine := false }] := by
  rw [expand]
  split
  next replaced => rw [kept] at replaced; cases replaced
  next => rfl

/-- The tree of the example is well formed. -/
theorem wellFormed_secondUnlessFirst : secondUnlessFirst.WellFormed :=
  ⟨wellFormed_spelled .., ⟨"ifdef", by decide, rfl⟩, ⟨isTextLine_wordLine _ (by decide), trivial⟩,
    ⟨⟨wellFormed_spelled .., rfl⟩, ⟨isTextLine_wordLine _ (by decide), trivial⟩,
      wellFormed_spelled .., rfl⟩, trivial⟩

/-- The expansion of the example keeps its second group, since the name that its first asks for is
not defined. -/
theorem Token.expandAll_secondUnlessFirst :
    Token.expandAll Host.bare (secondUnlessFirst.tokens ++ [.endOfSource 6]) () =
      ([{ kind := .ident, text := "two", line := 4 }, .endOfSource 6], ()) := by
  have ends : ∀ t ∈ [Token.endOfSource 6].head?, t.kind = .eof :=
    fun t first => Option.some.inj first ▸ rfl
  have walks : Walks Host.bare maxHeaderDepth secondUnlessFirst { host := () } _ :=
    .ifSection rfl (.text .nil) .nil
  have expanded :=
    ((Token.expandAll_tokens Host.bare () wellFormed_secondUnlessFirst ends).1 _ walks).1
  have two :
      Macros.predefined.expand { kind := .ident, text := "two", line := 4, startsLine := true } =
      [{ kind := .ident, text := "two", line := 4 }] :=
    Macros.expand_of_replacement?_eq_none rfl
  refine expanded.trans (Prod.ext ?_ rfl)
  exact congrArg (fun ts : List Token => ((#[] : Array Token) ++ ts).toList ++ [.endOfSource 6]) two

end BareC
