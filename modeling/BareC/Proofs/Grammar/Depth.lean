import BareC.Proofs.Grammar.Local
import BareC.Proofs.Grammar.Markers

/-!
# Braces between declarations

What is read inside of a declaration leaves as many braces open as there were: braces are taken in
pairs, and no other token counts as one. That is so as long as no name is spelled like a brace, for
a name is taken by itself. So no brace is open where a declaration starts, however the one in front
of it has ended.

A name that is spelled like a brace cannot come out of the lexer (`Groups`), but a token list can
hold one, and then the count is wrong on both sides. So the condition on names stays in the
statement, and nothing is promised without it.
-/

namespace BareC

/-- The token is no name that is spelled like a brace. -/
def Token.PlainBraces (t : Token) : Prop :=
  ∀ s ∈ reserved true, t.is s = true → t.kind = .punct

instance (t : Token) : Decidable t.PlainBraces :=
  inferInstanceAs (Decidable (∀ s ∈ Token.reserved true, t.is s = true → t.kind = .punct))

namespace Grammar

/-! ## Depth -/

/-- A token that a parser takes by itself is no brace. -/
theorem Cursor.depthAfter_of_takeable {t : Token} {body : Bool} (taken : t.Takeable body)
    (plain : t.PlainBraces) (depth : Nat) : depthAfter depth t = depth := by
  have free : ∀ s ∈ Token.reserved true, t.is s = false := by
    intro s mem
    rcases taken.spelling with name | free
    · by_contra is
      rw [Bool.not_eq_false] at is
      have kind := plain s mem is
      rw [Token.kind_of_isName name] at kind
      cases kind
    · apply free
      cases body with
      | true => exact mem
      | false => exact List.mem_append_left [";"] mem
  have opening := free "\x7b" (by decide)
  have closing := free "\x7d" (by decide)
  rw [depthAfter, opening, closing]
  rfl

/-- Moving on counts the brace that is taken. -/
theorem Cursor.depth_advance {c : Cursor} (notEnd : c.next.kind ≠ .eof) :
    c.advance.depth = depthAfter c.depth c.next := by
  obtain ⟨_ | ⟨t, ts⟩, depth⟩ := c
  · exact absurd rfl notEnd
  · have kind : t.kind ≠ .eof := notEnd
    rw [advance]
    simp only [if_neg kind]
    rfl

namespace Parser

variable {α : Type} {body takes : Bool} {Next : Token → Prop} {P : α → Prop}

/-- The braces that a parser opens it closes. -/
theorem Reads.depth_eq {p : Parser α} (h : p.Reads Token.PlainBraces body takes Next P)
    {c c' : Cursor} (next : Next c.next) (plain : ∀ t ∈ c.ahead, t.PlainBraces) {a : α}
    (run : p.run c = .ok (a, c')) :
    c'.depth = c.depth := by
  induction h generalizing c c' with
  | pure =>
    cases run
    rfl
  | failOn => cases run
  | fail => exact absurd run run_fail_ne_ok
  | peek _ ih => exact ih c.next next (fun notEnd => plain _ (by
      rw [Cursor.ahead_eq_cons notEnd]
      exact List.mem_cons_self)) rfl plain run
  | advance takeable _ ih =>
    have taken := takeable c.next next
    have same : c.advance.depth = c.depth := by
      rw [Cursor.depth_advance taken.notEnd]
      apply Cursor.depthAfter_of_takeable taken
      apply plain
      rw [Cursor.ahead_eq_cons taken.notEnd]
      exact List.mem_cons_self
    rw [← same]
    exact ih c.next next trivial (fun t mem => plain t (c.ahead_advance_subset mem)) run
  | skipWhile =>
    cases run
    rfl
  | bind hp _ ihp ihf =>
    obtain ⟨b, c₁, first, second⟩ := exists_of_run_bind run
    have inside : ∀ t ∈ c₁.ahead, t.PlainBraces :=
      fun t mem => plain t (hp.subset plain next first mem)
    rw [ihf b (hp.value plain next first) trivial inside second, ihp next plain first]
  | bindTaken hp _ ihp ihf =>
    obtain ⟨b, c₁, first, second⟩ := exists_of_run_bind run
    have inside : ∀ t ∈ c₁.ahead, t.PlainBraces :=
      fun t mem => plain t (hp.subset plain next first mem)
    rw [ihf b (hp.value plain next first) trivial inside second, ihp next plain first]
  | bounded _ _ ih => exact ih c.ahead next plain run
  | @voidList _ _ _ f _ _ _ ihyes ihno =>
    have run : (f (isVoidList c.ahead)).run c = .ok (a, c') := run
    cases found : isVoidList c.ahead with
    | true =>
      rw [found] at run
      exact ihyes c.next (next_of_isVoidList found) rfl plain run
    | false =>
      rw [found] at run
      exact ihno next plain run
  | braces _ hp ih =>
    obtain ⟨_, c₁, opening, run⟩ := exists_of_run_bind run
    obtain ⟨b, c₂, inner, run⟩ := exists_of_run_bind run
    obtain ⟨_, c₃, closing, run⟩ := exists_of_run_bind run
    cases run
    obtain ⟨opens, behind⟩ := of_run_expect opening
    obtain ⟨closes, behind'⟩ := of_run_expect closing
    dsimp only at behind behind'
    subst behind behind'
    have inside : ∀ t ∈ c.advance.ahead, t.PlainBraces :=
      fun t mem => plain t (c.ahead_advance_subset mem)
    have deeper : c.advance.depth = c.depth + 1 := by
      rw [Cursor.depth_advance (notEnd_of_is opens), Cursor.depthAfter_of_opening opens]
    rw [Cursor.depth_advance (notEnd_of_is closes), Cursor.depthAfter_of_closing closes,
      ih trivial inside inner, deeper, Nat.add_sub_cancel]
  | weaken toNext _ _ _ ih => exact ih (toNext _ next) plain run

end Parser

/-- Behind a definition as many braces are open as in front of it. -/
theorem depth_of_definition? {s : Signature} (sound : s.Sound Token.PlainBraces) {c c' : Cursor}
    {f? : Option Function} (plain : ∀ t ∈ c.ahead, t.PlainBraces)
    (run : (definition? s).run c = .ok (f?, c')) : c'.depth = c.depth := by
  rw [run_definition?] at run
  split at run
  next semicolon =>
    cases run
    have taken : c.next.Takeable true := Token.takeable_of_is semicolon (by decide)
    rw [Cursor.depth_advance taken.notEnd]
    apply Cursor.depthAfter_of_takeable taken
    apply plain
    rw [Cursor.ahead_of_is semicolon]
    exact List.mem_cons_self
  next =>
    split at run
    next =>
      have body : (functionBody.run s.scope).Reads Token.PlainBraces true true (fun _ => True) _ :=
        leadsOn_functionBody expressionProperty_within s.scope sound.scope
      have define : ((fun r => some (s.define r)) <$> functionBody.run s.scope).Reads
        Token.PlainBraces true true
          (fun _ => True) fun _ => True := .map (body.mono fun _ _ => trivial)
      exact define.depth_eq trivial plain run
    next => exact absurd run Parser.run_fail_ne_ok

namespace Reading

/-- Outside of all braces, and with no names ahead that are spelled like braces. -/
structure Outside (r : Reading) : Prop where
  depth : r.cursor.depth = 0
  plain : ∀ t ∈ r.cursor.ahead, t.PlainBraces

/-- Recovery ends outside every brace. -/
theorem outside_refuse {r : Reading} {f : Failure} (plain : ∀ t ∈ f.cursor.ahead, t.PlainBraces) :
    (r.refuse f).Outside :=
  ⟨rfl, fun t mem => plain t ((recover_suffix _ _).subset mem)⟩

section Outside

variable {r : Reading} (start : r.Outside) {s : Signature} {c : Cursor}

include start

/-- What is known behind a header that has been read. -/
theorem outside_header (run : (header r.declared).run r.cursor = .ok (s, c)) :
    s.Sound Token.PlainBraces ∧ c.depth = 0 ∧ ∀ t ∈ c.ahead, t.PlainBraces := by
  have reads : (header r.declared).Reads Token.PlainBraces _ _ _ _ := reads_header r.declared
  have sound := (reads.value start.plain trivial run).1
  have depth := (reads.depth_eq trivial start.plain run).trans start.depth
  exact ⟨sound, depth, fun t mem => start.plain t (reads.subset start.plain trivial run mem)⟩

/-- What is known behind a declaration that has been read. -/
theorem outside_definition? (run : (header r.declared).run r.cursor = .ok (s, c))
    {f? : Option Function} {c' : Cursor} (run' : (definition? s).run c = .ok (f?, c')) :
    c'.depth = 0 ∧ ∀ t ∈ c'.ahead, t.PlainBraces := by
  obtain ⟨sound, depth, plain⟩ := outside_header start run
  refine ⟨(depth_of_definition? sound plain run').trans depth, ?_⟩
  have body := outcome_definition? expressionProperty_within sound plain
  rw [run'] at body
  cases body with
  | ok _ passes _ => exact fun t mem => plain t (passes.subset mem)

/-- A marker is no brace. -/
theorem depth_marker (kind : r.cursor.next.kind = .error) : r.cursor.advance.depth = 0 := by
  have notEnd : r.cursor.next.kind ≠ .eof := by
    rw [kind]
    exact Token.Kind.noConfusion
  have noBrace (s : String) : r.cursor.next.is s = false := by
    rw [Token.is, kind]
    rfl
  rw [Cursor.depth_advance notEnd, Cursor.depthAfter, noBrace, noBrace]
  exact start.depth

/-- However a declaration ends, the next one starts outside of all braces. -/
theorem Step.outside {r' : Reading} (step : r.Step r') : r'.Outside := by
  cases step with
  | marker kind =>
    exact ⟨depth_marker start kind, fun t mem => start.plain t (r.cursor.ahead_advance_subset mem)⟩
  | headerRefused run =>
    have header := (reads_header r.declared).outcome r.cursor trivial start.plain
    rw [run] at header
    cases header with
    | error passes _ => exact outside_refuse fun t mem => start.plain t (passes.subset mem)
  | bodyRefused run run' =>
    obtain ⟨sound, -, plain⟩ := outside_header start run
    have body := outcome_definition? expressionProperty_within sound plain
    rw [run'] at body
    cases body with
    | error passes _ => exact outside_refuse fun t mem => plain t (passes.subset mem)
  | prototype run run' =>
    obtain ⟨depth, plain⟩ := outside_definition? start run run'
    exact ⟨depth, plain⟩
  | function run run' =>
    obtain ⟨depth, plain⟩ := outside_definition? start run run'
    exact ⟨depth, plain⟩

end Outside

end Reading

end Grammar

end BareC
