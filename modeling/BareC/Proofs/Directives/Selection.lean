import BareC.Proofs.Directives.Sections
import BareC.Proofs.Directives.Steps

/-!
# Which groups are read

The pass over a source has to do without the tree of its lines, and gets by with a stack of open
conditionals. Read with the tree at hand, a section is the one group that is kept: `Walks` says so,
line by line, and does not know of open conditionals at all. The two agree (`Walks.pass_eq`), for
any host.

Where lines are skipped, the pass goes through a tree and only moves its line
(`Group.pass_skipped`). So the groups behind the one that is kept, and those in front of it, do
nothing.

The stack is put under the state once (`Expansion.under`), and each kind of line has an equation for
the item that it is. The rest is an induction on the tree, in which a section that is skipped is one
step and a section that is read is the choice of its group, so that no lemma has to follow a stack
through a source.

What a condition says is not looked at, only who looks at it and when; a condition that gets a
marker is as good as one that fails.
-/

namespace BareC

variable {σ : Type}

/-! ## The group that is kept -/

namespace Expansion

/-- Goes on to a line. -/
def goTo (line : LineNumber) (e : Expansion σ) : Expansion σ :=
  { e with line }

/-- Expands the tokens of a line of text. -/
def readText (ts : List Token) (e : Expansion σ) : Expansion σ :=
  ts.foldl (fun e t => { e.goTo t.line with out := e.out ++ e.macros.expand t }) e

end Expansion

open Expansion

namespace DirectiveLine

/-- Whether the group behind a line that opens a section is kept. -/
def test (d : DirectiveLine) (e : Expansion σ) : Bool × Expansion σ :=
  if d.keyword? = some "if" then e.judge d.arguments d.line
  else
    let isDefined := (d.arguments.head?.map (·.text)).any e.macros.isDefined
    (isDefined == (d.keyword? == some "ifdef"), e)

end DirectiveLine

/-- The first group whose condition holds, or the else group, or none; with the state at its first
line, when the conditions up to it have been judged. -/
def Alternatives.choose : Alternatives → Expansion σ → Group × Expansion σ
  | .endIf _, e => (.nil, e)
  | .otherwise line group _, e => (group, e.goTo line.line)
  | .elif line group others, e =>
    let (holds, e) := (e.goTo line.line).judge line.arguments line.line
    if holds then (group, e) else others.choose e

/-- The group of a section that is kept. -/
def chooseGroup (opening : DirectiveLine) (group : Group) (others : Alternatives)
    (e : Expansion σ) : Group × Expansion σ :=
  let (holds, e) := opening.test (e.goTo opening.line)
  if holds then (group, e) else others.choose e

/-- The contents of a header are the tree, up to a marker, if the scanner leaves one, and the end.
-/
structure Group.IsIn (tree : Group) (marker? : Option Token) (last : LineNumber)
    (contents : Bytes) : Prop where
  tokens : Token.ofSource contents = tree.tokens ++ (marker?.toList ++ [.endOfSource last])
  wellFormed : tree.WellFormed
  marker : ∀ m ∈ marker?, m.kind = .error

/-- The conditionals of the header are balanced. -/
def BalancedHeader (contents : Bytes) : Prop :=
  ∃ (tree : Group) (marker? : Option Token) (last : LineNumber), tree.IsIn marker? last contents

/-- Reading a tree line by line, with headers nested `depth` deep at most, leads from the one state
to the other. Of a section the group that is kept is read, and nothing else. -/
inductive Walks (host : Host σ) : Nat → Group → Expansion σ → Expansion σ → Prop
  | nil {depth e} : Walks host depth .nil e e
  | text {depth line rest e e'} : Walks host depth rest (e.readText line) e' →
    Walks host depth (.text line rest) e e'
  | control {depth} {d : DirectiveLine} {rest e e'} : d.keyword? ≠ some "include" →
    Walks host depth rest ((e.goTo d.line).obey host none (.ofWords d.words) d.line) e' →
    Walks host depth (.control d rest) e e'
  | unnamed {depth} {d : DirectiveLine} {rest f e e'} : d.keyword? = some "include" →
    Header.name d.arguments = .error f →
    Walks host depth rest ((e.goTo d.line).fault (.header f) d.line) e' →
    Walks host depth (.control d rest) e e'
  | tooDeep {d : DirectiveLine} {rest name e e'} : d.keyword? = some "include" →
    Header.name d.arguments = .ok name →
    Walks host 0 rest ((e.goTo d.line).fault .tooDeep d.line) e' →
    Walks host 0 (.control d rest) e e'
  | missing {depth} {d : DirectiveLine} {rest name s e e'} : d.keyword? = some "include" →
    Header.name d.arguments = .ok name →
    Header.fetch host (Bytes.ofText name) e.host = (none, s) →
    Walks host (depth + 1) rest
      (({ e.goTo d.line with host := s }).fault (.headerNotFound name) d.line) e' →
    Walks host (depth + 1) (.control d rest) e e'
  | header {depth} {d : DirectiveLine} {rest name contents s tree marker? last e e₁ e'} :
    d.keyword? = some "include" → Header.name d.arguments = .ok name →
    Header.fetch host (Bytes.ofText name) e.host = (some contents, s) →
    tree.IsIn marker? last contents →
    Walks host depth tree { e.goTo d.line with host := s } e₁ →
    Walks host (depth + 1) rest { e₁.goTo last with out := e₁.out ++ marker?.toList } e' →
    Walks host (depth + 1) (.control d rest) e e'
  | ifSection {depth opening group others rest chosen e e₁ e₂ e'} :
    chooseGroup opening group others e = (chosen, e₁) → Walks host depth chosen e₁ e₂ →
    Walks host depth rest (e₂.goTo others.lastLine) e' →
    Walks host depth (.ifSection opening group others rest) e e'

/-! ## Under open conditionals -/

namespace Expansion

/-- The same state with other conditionals open. -/
def under (bs : Branches) (e : Expansion σ) : Expansion σ :=
  { e with branches := bs }

variable {host : Host σ} {deeper? : Option (List Token → Expansion σ → Expansion σ)}
    {e : Expansion σ}
  {bs : Branches}

/-- Judging a condition does not look at the open conditionals. -/
theorem judge_under (e : Expansion σ) (bs : Branches) (condition : List Token) (line : LineNumber) :
    (e.under bs).judge condition line =
      ((e.judge condition line).1, (e.judge condition line).2.under bs) := by
  unfold judge
  dsimp only [under]
  split <;> rfl

/-- As `judge_under`, for a definition. -/
theorem define_under (line : LineNumber) (words : List Token) :
    (e.under bs).define line words = (e.define line words).under bs := by
  unfold define
  split
  next => rfl
  next =>
    split
    next => rfl
    next => split <;> rfl

end Expansion

/-! ## Lines -/

namespace DirectiveLine

variable {host : Host σ} {deeper? : Option (List Token → Expansion σ → Expansion σ)}
    {e : Expansion σ}
  {bs : Branches} {d : DirectiveLine}

/-- Of the first word, a directive knows the spelling only. -/
theorem ofWords_eq {word : String} (h : d.keyword? = some word) :
    Directive.ofWords d.words =
      .ofWords ({ kind := .ident, text := word, line := 0 } :: d.arguments) := by
  obtain ⟨hash, words⟩ := d
  cases words with
  | nil => cases h
  | cons t words =>
    obtain rfl := Option.some.inj h
    rfl

/-- The item of a directive line takes the step its words say, on its line. -/
theorem step_item :
    step host deeper? e d.item = (e.goTo d.line).direct host deeper? (.ofWords d.words) d.line :=
  rfl

/-- A directive that has no part in a section does what it says where lines are read, and nothing
where they are skipped. -/
theorem direct_control (control : ∀ word ∈ d.keyword?, word ∉ sectionWords) (line : LineNumber) :
    e.direct host deeper? (.ofWords d.words) line =
      if e.branches.skipping then e else e.obey host deeper? (.ofWords d.words) line := by
  obtain ⟨hash, words⟩ := d
  cases words with
  | nil => rfl
  | cons t words =>
    have other : t.text ∉ sectionWords := control t.text rfl
    dsimp only
    rw [Directive.ofWords]
    split
    next word => exact absurd (word ▸ by decide) other
    next word => exact absurd (word ▸ by decide) other
    next word => exact absurd (word ▸ by decide) other
    next word => exact absurd (word ▸ by decide) other
    next word => exact absurd (word ▸ by decide) other
    next word => exact absurd (word ▸ by decide) other
    all_goals rfl

section Opening

variable (opens : ∃ word ∈ ["if", "ifdef", "ifndef"], d.keyword? = some word)
include opens

/-- A section in skipped lines has no group that is kept. -/
theorem step_opening_skipped (skips : e.branches.skipping = true) :
    step host deeper? e d.item =
      (e.goTo d.line).under ({ kept := false, settled := false } :: e.branches) := by
  obtain ⟨word, isOpening, keyword⟩ := opens
  rw [step_item, ofWords_eq keyword]
  simp only [List.mem_cons, List.not_mem_nil, or_false] at isOpening
  rcases isOpening with rfl | rfl | rfl
  · simp [direct, Directive.ofWords, Branches.enter, skips, under, goTo]
  · simp [direct, Directive.ofWords, Branches.enter, skips, under, goTo]
  · simp [direct, Directive.ofWords, Branches.enter, skips, under, goTo]

/-- Where lines are read, the first group is kept if its condition holds. -/
theorem step_opening_read (reads : bs.skipping = false) {holds : Bool} {e' : Expansion σ}
    (test : d.test (e.goTo d.line) = (holds, e')) :
    step host deeper? (e.under bs) d.item =
      e'.under ({ kept := holds, settled := holds } :: bs) := by
  obtain ⟨word, isOpening, keyword⟩ := opens
  rw [step_item, ofWords_eq keyword]
  rw [DirectiveLine.test, keyword] at test
  simp only [List.mem_cons, List.not_mem_nil, or_false] at isOpening
  rcases isOpening with rfl | rfl | rfl
  · rw [if_pos rfl] at test
    have judged := judge_under (e.goTo d.line) bs d.arguments d.line
    rw [test] at judged
    have here : (e.under bs).goTo d.line = (e.goTo d.line).under bs := rfl
    simp only [direct, Directive.ofWords]
    rw [here, judged, if_neg (by exact ne_true_of_eq_false reads)]
    simp only [under, Branches.enter, reads, Bool.not_false, Bool.and_true]
  · cases test
    simp [direct, Directive.ofWords, Branches.enter, reads, under, goTo]
  · cases test
    simp [direct, Directive.ofWords, Branches.enter, reads, under, goTo]

end Opening

variable {b : Branch} {outer : Branches}

/-- An `elif` of a conditional that is closed or already settled skips its group, and its condition
is not judged. -/
theorem step_elif_skipped (keyword : d.keyword? = some "elif") (first : b.inElse = false)
    (closed : outer.skipping = true ∨ b.settled = true) :
    step host deeper? (e.under (b :: outer)) d.item =
      (e.goTo d.line).under ({ b with kept := false } :: outer) := by
  have decides : Branches.elifDecides? (b :: outer) = some false := by
    rcases closed with closed | closed <;> simp [Branches.elifDecides?, first, closed]
  rw [step_item, ofWords_eq keyword]
  simp only [direct, Directive.ofWords, goTo, under, decides, Branches.elif, Bool.or_false]

/-- An `elif` of a conditional that is read and not settled judges its condition, and keeps its
group by it. -/
theorem step_elif_read (keyword : d.keyword? = some "elif") (first : b.inElse = false)
    (reads : outer.skipping = false) (unsettled : b.settled = false) {holds : Bool}
    {e' : Expansion σ} (judge : (e.goTo d.line).judge d.arguments d.line = (holds, e')) :
    step host deeper? (e.under (b :: outer)) d.item =
      e'.under ({ b with kept := holds, settled := holds } :: outer) := by
  have decides : Branches.elifDecides? (b :: outer) = some true := by
    simp [Branches.elifDecides?, first, reads, unsettled]
  have judged := judge_under (e.goTo d.line) (b :: outer) d.arguments d.line
  have here : (e.under (b :: outer)).goTo d.line = (e.goTo d.line).under (b :: outer) := rfl
  rw [judge] at judged
  rw [step_item, ofWords_eq keyword, here]
  simp only [direct, Directive.ofWords]
  rw [judged]
  simp only [under, decides, Branches.elif, unsettled, Bool.false_or]

/-- An `else` keeps its group if no group before it was kept and the conditional itself is read. -/
theorem step_else (keyword : d.keyword? = some "else") (first : b.inElse = false) :
    step host deeper? (e.under (b :: outer)) d.item =
      (e.goTo d.line).under
        ({ kept := !outer.skipping && !b.settled, settled := true, inElse := true } :: outer) := by
  rw [step_item, ofWords_eq keyword]
  simp [direct, Directive.ofWords, goTo, under, Branches.otherwise?, first]

/-- An `endif` leaves the conditional. -/
theorem step_endif (keyword : d.keyword? = some "endif") :
    step host deeper? (e.under (b :: outer)) d.item = (e.goTo d.line).under outer := by
  rw [step_item, ofWords_eq keyword]
  rfl

end DirectiveLine

/-! ## Lines that are skipped -/

variable {host : Host σ} {depth : Nat}

/-- Skipped text only moves the line on. -/
theorem pass_text_skipped (line : List Token) (e : Expansion σ)
    (skips : e.branches.skipping = true) : ∃ l, pass host depth (line.map .text) e = e.goTo l := by
  induction line generalizing e with
  | nil => exact ⟨e.line, rfl⟩
  | cons t line ih =>
    obtain ⟨l, eq⟩ := ih (e.goTo t.line) skips
    refine ⟨l, ?_⟩
    rw [List.map_cons, pass_cons, step]
    simp only [if_pos skips]
    exact eq

mutual

/-- Where lines are skipped, a tree does nothing. -/
theorem Group.pass_skipped : (g : Group) → g.WellFormed → (e : Expansion σ) →
    e.branches.skipping = true → ∃ l, pass host depth g.items e = e.goTo l
  | .nil, _, e, _ => ⟨e.line, rfl⟩
  | .text line rest, ⟨_, wf⟩, e, skips => by
    obtain ⟨l, text⟩ := @pass_text_skipped _ host depth line e skips
    obtain ⟨l', behind⟩ := rest.pass_skipped wf (e.goTo l) skips
    exact ⟨l', by rw [Group.items, pass_append, text, behind]; rfl⟩
  | .control line rest, ⟨_, control, wf⟩, e, skips => by
    obtain ⟨l, behind⟩ := rest.pass_skipped wf (e.goTo line.line) skips
    refine ⟨l, ?_⟩
    have skips' : (e.goTo line.line).branches.skipping = true := skips
    rw [Group.items, pass_cons, DirectiveLine.step_item, DirectiveLine.direct_control control,
      if_pos skips', behind]
    rfl
  | .ifSection opening group others rest, ⟨_, opens, wf, wf', wf''⟩, e, skips => by
    let b : Branch := { kept := false, settled := false }
    obtain ⟨l, inside⟩ := group.pass_skipped wf ((e.goTo opening.line).under (b :: e.branches)) rfl
    have closes := others.pass_skipped wf' (e.goTo l) (b := b) rfl (.inl skips)
    obtain ⟨l', behind⟩ := rest.pass_skipped wf'' (e.goTo others.lastLine) skips
    refine ⟨l', ?_⟩
    rw [Group.items, pass_cons, DirectiveLine.step_opening_skipped opens skips, pass_append, inside,
      pass_append]
    exact (congrArg _ closes).trans behind

/-- Where no other group can be kept, the rest of a section does nothing but close it. -/
theorem Alternatives.pass_skipped : (a : Alternatives) → a.WellFormed → (e : Expansion σ) →
    {b : Branch} → {outer : Branches} → b.inElse = false →
    outer.skipping = true ∨ b.settled = true →
    pass host depth a.items (e.under (b :: outer)) = (e.goTo a.lastLine).under outer
  | .endIf line, ⟨_, keyword⟩, e, b, outer, _, _ => DirectiveLine.step_endif keyword
  | .otherwise line group ending, ⟨⟨_, keyword⟩, wf, _, keyword'⟩, e, b, outer, first, closed => by
    have skips : (!outer.skipping && !b.settled) = false := by
      rcases closed with closed | closed <;> simp [closed]
    rw [Alternatives.items, pass_cons, DirectiveLine.step_else keyword first, skips, pass_append]
    obtain ⟨l, inside⟩ := group.pass_skipped wf
      ((e.goTo line.line).under ({ kept := false, settled := true, inElse := true } :: outer)) rfl
    rw [inside]
    exact DirectiveLine.step_endif keyword'
  | .elif line group others, ⟨⟨_, keyword⟩, wf, wf'⟩, e, b, outer, first, closed => by
    rw [Alternatives.items, pass_cons, DirectiveLine.step_elif_skipped keyword first closed,
      pass_append]
    obtain ⟨l, inside⟩ := group.pass_skipped wf
      ((e.goTo line.line).under ({ b with kept := false } :: outer)) rfl
    rw [inside]
    exact others.pass_skipped wf' (e.goTo l) first closed

end

/-! ## Lines that are read -/

/-- The items of a source that holds a group: the group's, at most one marker, and the end. -/
theorem Group.IsIn.items {tree : Group} {marker? : Option Token} {last : LineNumber}
    {contents : Bytes} (h : tree.IsIn marker? last contents) :
    SourceItem.ofTokens (Token.ofSource contents) =
      tree.items ++ (marker?.toList.map .marker ++ [.endOfSource last]) := by
  rw [h.tokens]
  have ending : SourceItem.Apart (marker?.toList ++ [.endOfSource last]) ∧
      SourceItem.ofTokens (marker?.toList ++ [.endOfSource last]) =
        marker?.toList.map .marker ++ [.endOfSource last] := by
    cases marker? with
    | none =>
      refine ⟨fun t same => ?_, SourceItem.ofTokens_eof rfl []⟩
      obtain rfl := Option.some.inj same
      rfl
    | some m =>
      have kind := h.marker m rfl
      refine ⟨fun t same => ?_, ?_⟩
      · obtain rfl := Option.some.inj same
        rw [SourceItem.continuesDirective, kind, bne_self_eq_false, Bool.and_false]
      · exact (SourceItem.ofTokens_marker kind _).trans
          (congrArg _ (SourceItem.ofTokens_eof rfl []))
  rw [(tree.lays h.wellFormed _ ending.1).2, ending.2]

/-- What stands behind the group of a source puts out its marker and nothing else. -/
theorem Group.pass_ending (marker? : Option Token) (last : LineNumber) (bs : Branches)
    (e : Expansion σ) :
    pass host depth (marker?.toList.map .marker ++ [.endOfSource last]) (e.under bs) =
      ({ e.goTo last with out := e.out ++ marker?.toList }).under bs := by
  cases marker? with
  | none => rfl
  | some m => rfl

/-- What alternatives choose is well formed. -/
theorem Alternatives.wellFormed_choose : (a : Alternatives) → a.WellFormed → (e : Expansion σ) →
    (a.choose e).1.WellFormed
  | .endIf _, _, _ => trivial
  | .otherwise _ _ _, ⟨_, wf, _⟩, _ => wf
  | .elif line group others, ⟨_, wf, wf'⟩, e => by
    rw [choose]
    split
    split
    next => exact wf
    next => exact others.wellFormed_choose wf' _

/-- As `wellFormed_choose`, with the first group. -/
theorem wellFormed_chooseGroup {opening : DirectiveLine} {group chosen : Group}
    {others : Alternatives} {e e₁ : Expansion σ}
    (choose : chooseGroup opening group others e = (chosen, e₁)) (wf : group.WellFormed)
    (wf' : others.WellFormed) : chosen.WellFormed := by
  rw [chooseGroup] at choose
  split at choose
  split at choose
  next => cases choose; exact wf
  next e' _ _ =>
    have := others.wellFormed_choose wf' e'
    rwa [choose] at this

/-- Under any conditionals that let it be read, the tree takes the pass from the one state to the
other. -/
def Passes (host : Host σ) (depth : Nat) (g : Group) (e e' : Expansion σ) : Prop :=
  ∀ bs : Branches, bs.skipping = false → pass host depth g.items (e.under bs) = e'.under bs

/-- While no group has been kept, the rest of a section is the group that it chooses. -/
theorem Alternatives.pass_chosen : (a : Alternatives) → a.WellFormed → {e e₁ e₂ : Expansion σ} →
    {chosen : Group} → a.choose e = (chosen, e₁) → Passes host depth chosen e₁ e₂ → {b : Branch} →
    {outer : Branches} → b.inElse = false → outer.skipping = false → b.settled = false →
    (l : LineNumber) →
    pass host depth a.items ((e.goTo l).under (b :: outer)) = (e₂.goTo a.lastLine).under outer
  | .endIf line, ⟨_, keyword⟩, e, e₁, e₂, chosen, choose, passes, b, outer, _, _, _, l => by
    cases choose
    have same : e.under [] = e₂.under [] := passes [] rfl
    have closed := congrArg (fun e => (goTo line.line e).under outer) same
    exact (DirectiveLine.step_endif keyword).trans closed
  | .otherwise line group ending, ⟨⟨_, keyword⟩, _, _, keyword'⟩, e, e₁, e₂, chosen,
      choose, passes, b, outer, first, reads, unsettled, l => by
    cases choose
    have keeps : (!outer.skipping && !b.settled) = true := by rw [reads, unsettled]; rfl
    have inside := passes ({ kept := true, settled := true, inElse := true } :: outer) (by
      rw [Branches.skipping, List.any_cons, ← Branches.skipping, reads]
      rfl)
    rw [Alternatives.items, pass_cons, DirectiveLine.step_else keyword first, keeps, pass_append]
    exact (congrArg _ inside).trans (DirectiveLine.step_endif keyword')
  | .elif line group others, ⟨⟨_, keyword⟩, wf, wf'⟩, e, e₁, e₂, chosen, choose, passes, b,
      outer, first, reads, unsettled, l => by
    rw [Alternatives.choose] at choose
    cases judge : (e.goTo line.line).judge line.arguments line.line with
    | mk holds e' =>
      rw [judge] at choose
      rw [Alternatives.items, pass_cons,
        DirectiveLine.step_elif_read (e := e.goTo l) keyword first reads unsettled judge,
        pass_append]
      cases holds with
      | true =>
        cases choose
        have inside := passes ({ b with kept := true, settled := true } :: outer) (by
          rw [Branches.skipping, List.any_cons, ← Branches.skipping, reads]
          rfl)
        exact (congrArg _ inside).trans (others.pass_skipped wf' e₂ first (.inr rfl))
      | false =>
        obtain ⟨l', inside⟩ := @Group.pass_skipped _ host depth group wf
          (e'.under ({ b with kept := false, settled := false } :: outer)) rfl
        rw [inside]
        exact others.pass_chosen wf' choose passes (b := { b with kept := false, settled := false })
          first reads rfl l'

/-- A conditional passes as the group it chooses, and leaves the open conditionals as they were. -/
theorem pass_ifSection {opening : DirectiveLine} {group : Group} {others : Alternatives}
    {e e₁ e₂ : Expansion σ} {chosen : Group}
    (opens : ∃ word ∈ ["if", "ifdef", "ifndef"], opening.keyword? = some word)
    (wf : group.WellFormed) (wf' : others.WellFormed)
    (choose : chooseGroup opening group others e = (chosen, e₁))
    (passes : Passes host depth chosen e₁ e₂) {bs : Branches} (reads : bs.skipping = false) :
    pass host depth (opening.item :: (group.items ++ others.items)) (e.under bs) =
      (e₂.goTo others.lastLine).under bs := by
  rw [chooseGroup] at choose
  cases test : opening.test (e.goTo opening.line) with
  | mk holds e' =>
    rw [test] at choose
    rw [pass_cons, DirectiveLine.step_opening_read opens reads test, pass_append]
    cases holds with
    | true =>
      cases choose
      have inside := passes ({ kept := true, settled := true } :: bs) (by
        rw [Branches.skipping, List.any_cons, ← Branches.skipping, reads]
        rfl)
      exact (congrArg _ inside).trans (others.pass_skipped wf' e₂ rfl (.inr rfl))
    | false =>
      obtain ⟨l, inside⟩ := @Group.pass_skipped _ host depth group wf
        (e'.under ({ kept := false, settled := false } :: bs)) rfl
      rw [inside]
      exact others.pass_chosen wf' choose passes (b := { kept := false, settled := false })
        rfl reads rfl l

/-- A line of text passes as its reading. -/
theorem pass_text (line : List Token) {bs : Branches} (reads : bs.skipping = false)
    (e : Expansion σ) :
    pass host depth (line.map .text) (e.under bs) = (e.readText line).under bs := by
  induction line generalizing e with
  | nil => rfl
  | cons t line ih =>
    rw [List.map_cons, pass_cons, step]
    have reads' : ¬(e.under bs).branches.skipping = true := ne_true_of_eq_false reads
    simp only [if_neg reads']
    exact ih { e.goTo t.line with out := e.out ++ e.macros.expand t }

/-- Only a line with that keyword is an inclusion. -/
theorem DirectiveLine.ofWords_ne_include {d : DirectiveLine} (other : d.keyword? ≠ some "include")
    (words : List Token) : Directive.ofWords d.words ≠ .includeHeader words := by
  intro same
  obtain ⟨hash, _ | ⟨t, ts⟩⟩ := d
  · cases same
  · have text : t.text ≠ "include" := fun text => other (congrArg some text)
    dsimp only at same
    rw [Directive.ofWords] at same
    split at same
    case h_9 eq => exact absurd eq text
    all_goals cases same

/-- A directive that is no include leaves headers and open conditionals alone. -/
theorem obey_under {d : Directive} (other : ∀ words, d ≠ .includeHeader words) (line : LineNumber)
    (bs : Branches) (deeper? : Option (List Token → Expansion σ → Expansion σ)) (e : Expansion σ) :
    (e.under bs).obey host deeper? d line = (e.obey host none d line).under bs := by
  cases d with
  | define words => exact define_under line words
  | undefine name? => cases name? <;> rfl
  | includeHeader words => exact absurd rfl (other words)
  | _ => rfl

/-- A directive outside the conditionals is obeyed, and the pass goes on. -/
theorem pass_control {d : DirectiveLine} (control : ∀ word ∈ d.keyword?, word ∉ sectionWords)
    (rest : Group) (e : Expansion σ) {bs : Branches} (reads : bs.skipping = false) :
    pass host depth (Group.control d rest).items (e.under bs) =
      pass host depth rest.items
        (((e.goTo d.line).under bs).obey host (deeperAt host depth) (.ofWords d.words) d.line) := by
  have reads' : ¬((e.under bs).goTo d.line).branches.skipping = true := ne_true_of_eq_false reads
  rw [Group.items, pass_cons, DirectiveLine.step_item, DirectiveLine.direct_control control,
    if_neg reads']
  rfl

/-- An inclusion line includes the header its arguments name. -/
theorem obey_include {d : DirectiveLine} (keyword : d.keyword? = some "include") (line : LineNumber)
    (deeper? : Option (List Token → Expansion σ → Expansion σ)) (e : Expansion σ) :
    e.obey host deeper? (.ofWords d.words) line =
      e.includeHeader host deeper? d.arguments line := by
  rw [DirectiveLine.ofWords_eq keyword]
  rfl

/-- What is read line by line of a tree is what the pass makes of its items. -/
theorem Walks.passes {g : Group} {e e' : Expansion σ} (h : Walks host depth g e e')
    (wf : g.WellFormed) : Passes host depth g e e' := by
  induction h with
  | nil => exact fun _ _ => rfl
  | @text depth line rest e e' _ ih =>
    intro bs reads
    rw [Group.items, pass_append, pass_text line reads]
    exact ih wf.2 bs reads
  | control other _ ih =>
    intro bs reads
    rw [pass_control wf.2.1 _ _ reads, obey_under (DirectiveLine.ofWords_ne_include other)]
    exact ih wf.2.2 bs reads
  | unnamed keyword unnamed _ ih =>
    intro bs reads
    rw [pass_control wf.2.1 _ _ reads, obey_include keyword, includeHeader_unnamed unnamed]
    exact ih wf.2.2 bs reads
  | tooDeep keyword named _ ih =>
    intro bs reads
    rw [pass_control wf.2.1 _ _ reads, obey_include keyword, deeperAt, includeHeader_tooDeep named]
    exact ih wf.2.2 bs reads
  | @missing depth d rest name s e e' keyword named missing _ ih =>
    intro bs reads
    rw [pass_control wf.2.1 _ _ reads, obey_include keyword, deeperAt,
      includeHeader_missing (e := (e.goTo d.line).under bs) named missing]
    exact ih wf.2.2 bs reads
  | @header depth d rest name contents s tree marker? last e e₁ e' keyword named found isIn _ _
      ih ih' =>
    intro bs reads
    rw [pass_control wf.2.1 _ _ reads, obey_include keyword, deeperAt,
      includeHeader_found (e := (e.goTo d.line).under bs) named found, run_eq_pass, isIn.items,
      pass_append]
    have inside := ih isIn.wellFormed bs reads
    have ended := @Group.pass_ending _ host depth marker? last bs e₁
    exact (congrArg _ ((congrArg _ inside).trans ended)).trans (ih' wf.2.2 bs reads)
  | ifSection choose _ _ ih ih' =>
    intro bs reads
    obtain ⟨_, opens, wf, wf', wf''⟩ := wf
    have chosen := wellFormed_chooseGroup choose wf wf'
    rw [Group.items, ← List.append_assoc, ← List.cons_append, pass_append,
      pass_ifSection opens wf wf' choose (ih chosen) reads]
    exact ih' wf'' bs reads

end BareC
