import BareC.Proofs.Grammar.Containment
import BareC.Proofs.Grammar.Depth
import BareC.Proofs.Grammar.Height
import BareC.Proofs.Journal.Units

/-!
# Reading comes to the end

Everything that is read takes a token: expressions and statements where they are read, and a
declaration where it ends or is skipped. So a unit is read to the end of its source, whatever it is
given to bound that, and has no more items than tokens. Each declaration is started with counters at
zero, which never go beyond their limits, and outside of all braces unless a name is spelled like
one (`reads_to_the_end`).

Progress is taken from the rules of `Reads` and from nowhere else, so it holds of any tokens. What
it is needed for is that the bounds of the loops, which are lists of tokens here, are never used up
before the source is.

How much time reading takes is not a subject: that it ends is clear from the recursion, and the
number of items is all that is bounded.
-/

namespace BareC

namespace Grammar

/-! ## Every parser takes a token -/

/-- The parser leaves less ahead than there was, if it succeeds. -/
def Parser.Progresses {α : Type} (p : Parser α) : Prop :=
  ∀ (c : Cursor) (a : α) (c' : Cursor), p.run c = .ok (a, c') → c'.ahead.length < c.ahead.length

/-- From a sound scope a parser leads to another one, and leaves less ahead than there was. -/
def ScopedParser.Progresses {α : Type} (p : ScopedParser α) : Prop :=
  ∀ scope : Scope, scope.Sound → ∀ (c : Cursor) (a : α) (scope' : Scope) (c' : Cursor),
    (p.run scope).run c = .ok ((a, scope'), c') → scope'.Sound ∧ c'.ahead.length < c.ahead.length

section Progresses

variable {α : Type} {body : Bool}

/-- A parser that reads and takes a token makes progress. -/
theorem Parser.Reads.progresses {p : Parser α} {P : α → Prop}
    (reads : p.Reads (fun _ => True) body true (fun _ => True) P) : p.Progresses := by
  intro c a c' run
  have outcome := reads.outcome c trivial fun _ _ => trivial
  rw [run] at outcome
  cases outcome with
  | ok _ passes some => exact passes.length_lt (some rfl)

/-- As `Reads.progresses`, in a scope. -/
theorem ScopedParser.LeadsOn.progresses {P : Nat → Expr → Prop} {inLoop : Bool} {p : ScopedParser α}
    {contents : α → Contents}
    (leads : p.LeadsOn (fun _ => True) P true inLoop contents) : p.Progresses := by
  intro scope sound c a scope' c' run
  have reads : (p.run scope).Reads (fun _ => True) true true (fun _ => True) _ := leads scope sound
  exact ⟨(reads.value (fun _ _ => trivial) trivial run).sound, reads.progresses c _ c' run⟩

end Progresses

/-! ### Expressions -/

section Expressions

variable (vars : Variables) (nesting height : Nat)

/-- Operands and expressions take a token at every depth, whatever the tokens are. -/
theorem reads_anything :
    (∀ height,
      (unary vars nesting height).Reads (fun _ => True) true true (fun _ => True) fun _ => True) ∧
      ∀ height, (expression vars nesting height).Reads (fun _ => True) true true (fun _ => True)
      fun _ => True := by
  constructor
  · intro height
    exact (((grammarProperty_height vars).reads_unary_expression nesting).1 height).mono
      fun _ _ => trivial
  · intro height
    exact (((grammarProperty_height vars).reads_unary_expression nesting).2 height).mono
      fun _ _ => trivial

/-- As `reads_anything`, for what is nested in an expression. -/
theorem reads_deeper :
    ((expression vars nesting).nested .expression height).Reads (fun _ => True) true true
    (fun _ => True) fun _ => True := by
  cases height with
  | zero => exact .fail fun _ _ _ _ => nofun
  | succ height => exact (reads_anything vars nesting).2 height

/-- Every production of the expressions makes progress. -/
theorem expression_progresses : (expression vars nesting height).Progresses ∧
    (∀ ls, (∀ level ∈ ls, level ∈ levels) → (binary (unary vars nesting) ls height).Progresses) ∧
    (unary vars nesting height).Progresses ∧
    (stepAfter vars (expression vars nesting) height).Progresses ∧
    (primary vars (expression vars nesting) height).Progresses := by
  obtain ⟨unary, expression⟩ := reads_anything vars nesting
  have deeper := reads_deeper vars nesting height
  have anything : OperandProperty (fun _ => True) vars (fun _ => True) fun _ => True := by
    constructor <;> intros <;> trivial
  refine ⟨(expression height).progresses, ?_, (unary height).progresses, ?_, ?_⟩
  · intro ls areLevels
    apply Parser.Reads.progresses
    exact reads_binary (fun _ _ _ _ => ⟨trivial, trivial, fun _ => trivial⟩) unary areLevels height
  · exact Parser.Reads.progresses (reads_stepAfter anything deeper)
  · exact Parser.Reads.progresses (reads_primary anything deeper)

end Expressions

/-! ### Statements -/

/-- The parts of a statement in which so much nesting and height is left. -/
def partsWithin (nesting height : Nat) : Parts where
  expr vars := expression vars nesting height
  inner := statement nesting height

mutual

/-- The parts of a statement take tokens within every limit. -/
theorem partsProperty_within (nesting height : Nat) :
    PartsProperty (fun _ => True) (fun _ _ => True) (partsWithin nesting height) where
  mono := ⟨fun _ => id⟩
  expr vars _ _ := (reads_anything vars nesting).2 height
  inner := leadsOn_within nesting height

/-- Statements take tokens within every limit, by recursion on the depth. -/
theorem leadsOn_within : (nesting height : Nat) → (inLoop : Bool) →
    (statement nesting height inLoop).LeadsOn (fun _ => True) (fun _ _ => True) true inLoop
      Stmt.contents
  | 0, _, _ => fun _ _ => .fail fun _ _ _ _ => nofun
  | _ + 1, 0, _ => fun _ _ => .fail fun _ _ _ _ => nofun
  | nesting + 1, height + 1, inLoop =>
    (partsProperty_within nesting height).leadsOn_statement inLoop

end

/-- Every production of the statements makes progress. -/
theorem statement_progresses (nesting height : Nat) (inLoop : Bool) :
    (statement nesting height inLoop).Progresses ∧
    ((partsWithin nesting height).block inLoop).Progresses ∧
    (partsWithin nesting height).declaration.Progresses ∧
    (partsWithin nesting height).forLoop.Progresses := by
  have parts := partsProperty_within nesting height
  refine ⟨(leadsOn_within nesting height inLoop).progresses, ?_, ?_, ?_⟩
  · exact (leadsOn_block (parts.inner inLoop) parts.mono).progresses
  · exact (parts.leadsOn_declaration inLoop).progresses
  · exact (parts.leadsOn_forLoop inLoop).progresses

/-! ## To the end of the source -/

/-- Skipping does not pass the end of the source. -/
theorem mem_recover_of_end {depth : Nat} {ts : List Token} {t : Token} (isEnd : t.kind = .eof)
    (mem : t ∈ ts) : t ∈ recover depth ts := by
  induction ts generalizing depth with
  | nil => cases mem
  | cons u us ih =>
    rcases List.mem_cons.mp mem with rfl | mem
    · rw [recover, if_pos isEnd]
      exact List.mem_cons_self
    simp only [recover]
    repeat' split
    · exact List.mem_cons_of_mem u mem
    · exact mem
    · exact mem
    · exact ih mem

/-- The end of a source is never passed. -/
theorem Cursor.Passes.mem_of_end {c c' : Cursor} {ts : List Token}
    (passes : c.Passes ts c') {t : Token} (isEnd : t.kind = .eof) (mem : t ∈ c.ahead) :
    t ∈ c'.ahead := by
  rw [passes.ahead] at mem
  rcases List.mem_append.mp mem with mem | mem
  · exact absurd isEnd (passes.notEnd t mem)
  · exact mem

namespace Reading

variable {r r' : Reading}

/-- A step adds one item at most. -/
theorem Step.size_items_le (step : r.Step r') : r'.items.size ≤ r.items.size + 1 := by
  cases step with
  | marker | headerRefused | bodyRefused | function => exact Nat.le_of_eq (Array.size_push _)
  | prototype => exact Nat.le_succ _

/-- A step does not pass the end of the source. -/
theorem Step.mem_of_end (step : r.Step r') (notEnd : r.cursor.next.kind ≠ .eof) {t : Token}
    (isEnd : t.kind = .eof) (mem : t ∈ r.cursor.ahead) : t ∈ r'.cursor.ahead := by
  have all : ∀ t ∈ r.cursor.ahead, (fun _ => True) t := fun _ _ => trivial
  have header := (reads_header r.declared).outcome r.cursor trivial all
  cases step with
  | marker =>
    rw [Cursor.ahead_eq_cons notEnd] at mem
    rcases List.mem_cons.mp mem with rfl | mem
    · exact absurd isEnd notEnd
    · exact mem
  | headerRefused run =>
    rw [run] at header
    cases header with
    | error passes _ => exact mem_recover_of_end isEnd (passes.mem_of_end isEnd mem)
  | bodyRefused run run' =>
    obtain ⟨ts, passes, _, body⟩ := behind_header expressionProperty_within all run
    rw [run'] at body
    cases body with
    | error passes' _ =>
      exact mem_recover_of_end isEnd ((passes.trans passes').mem_of_end isEnd mem)
  | prototype run run' =>
    obtain ⟨ts, passes, _, body⟩ := behind_header expressionProperty_within all run
    rw [run'] at body
    cases body with
    | ok _ passes' _ => exact (passes.trans passes').mem_of_end isEnd mem
  | function run run' =>
    obtain ⟨ts, passes, _, body⟩ := behind_header expressionProperty_within all run
    rw [run'] at body
    cases body with
    | ok _ passes' _ => exact (passes.trans passes').mem_of_end isEnd mem

/-- Reading comes to the end of the source, and each item has cost a token in front of the end. -/
theorem finish_atEnd (bound : List Token) (r : Reading)
    (enough : r.cursor.ahead.length ≤ bound.length) (ends : ∃ t ∈ r.cursor.ahead, t.kind = .eof) :
    (finish bound r).cursor.atEnd = true ∧
      (finish bound r).items.size + 1 ≤ r.items.size + r.cursor.ahead.length := by
  obtain ⟨t, mem, isEnd⟩ := ends
  have some := List.length_pos_of_mem mem
  induction bound generalizing r with
  | nil => exact absurd (Nat.lt_of_lt_of_le some enough) (Nat.lt_irrefl 0)
  | cons u bound ih =>
    rw [finish]
    cases goesOn : r.cursor.atEnd with
    | true => exact ⟨goesOn, Nat.add_le_add_left some r.items.size⟩
    | false =>
      have items := r.step_cases.size_items_le
      have shorter := step_shorter goesOn
      have mem' := r.step_cases.mem_of_end (Cursor.notEnd_of_atEnd goesOn) isEnd mem
      rw [List.length_cons] at enough
      obtain ⟨atEnd, cost⟩ := ih r.step (by omega) mem' (List.length_pos_of_mem mem')
      rw [if_neg Bool.false_ne_true]
      exact ⟨atEnd, by omega⟩

/-- What the bound is makes no difference, if it is not less than what is ahead. -/
theorem finish_eq {bound bound' : List Token} {r : Reading}
    (enough : r.cursor.ahead.length ≤ bound.length)
    (enough' : r.cursor.ahead.length ≤ bound'.length) (ends : ∃ t ∈ r.cursor.ahead, t.kind = .eof) :
    finish bound r = finish bound' r := by
  obtain ⟨t, mem, isEnd⟩ := ends
  have some := List.length_pos_of_mem mem
  induction bound generalizing r bound' with
  | nil => exact absurd (Nat.lt_of_lt_of_le some enough) (Nat.lt_irrefl 0)
  | cons u bound ih =>
    obtain ⟨u', bound', rfl⟩ := List.exists_cons_of_length_pos (Nat.lt_of_lt_of_le some enough')
    rw [finish, finish]
    cases goesOn : r.cursor.atEnd with
    | true => rfl
    | false =>
      have shorter := step_shorter goesOn
      have kept := r.step_cases.mem_of_end (Cursor.notEnd_of_atEnd goesOn) isEnd mem
      rw [List.length_cons] at enough enough'
      exact ih (by omega) (by omega) kept (List.length_pos_of_mem kept)

end Reading

/-! ## Whole units -/

/-- The tokens of a unit are those in front of its end, and the end. -/
theorem exists_cut (line : LineNumber) (ts : List Token) : ∃ t : Token, t.kind = .eof ∧
    Cursor.cut line ts = (ts.takeWhile fun t => t.kind ≠ .eof) ++ [t] := by
  induction ts generalizing line with
  | nil => exact ⟨.endOfSource line, rfl, rfl⟩
  | cons t ts ih =>
    rw [Cursor.cut, List.takeWhile_cons]
    by_cases eof : t.kind = .eof
    · refine ⟨t, eof, ?_⟩
      rw [if_pos eof, eof]
      rfl
    · obtain ⟨e, isEnd, cut⟩ := ih t.line
      refine ⟨e, isEnd, ?_⟩
      rw [if_neg eof, cut, decide_eq_true eof]
      rfl

namespace Starts

variable {ts : List Token} {r : Reading} {j : Journal}

/-- If no name is spelled like a brace, every declaration starts outside of all braces. -/
theorem outside (starts : Starts ts r j) (plain : ∀ t ∈ ts, t.PlainBraces) : r.Outside := by
  induction starts with
  | first =>
    refine ⟨rfl, fun t mem => ?_⟩
    obtain ⟨e, isEnd, cut⟩ := exists_cut 1 ts
    have mem : t ∈ Cursor.cut 1 ts := mem
    rw [cut] at mem
    rcases List.mem_append.mp mem with mem | mem
    · exact plain t ((List.takeWhile_sublist _).subset mem)
    · obtain rfl := List.mem_singleton.mp mem
      intro s _ is
      exact absurd isEnd (notEnd_of_is is)
  | @next r j starts _ ih =>
    rw [starts.recorded.step]
    exact r.step_cases.outside ih

/-- At the end of the source no declaration starts any more. -/
theorem exists_last (starts : Starts ts r j) (bound : List Token) :
    ∃ j', Starts ts (Reading.finish bound r) j' := by
  induction bound generalizing r j with
  | nil => exact ⟨j, starts⟩
  | cons t bound ih =>
    rw [Reading.finish]
    cases goesOn : r.cursor.atEnd with
    | true => exact ⟨j, starts⟩
    | false =>
      have next := starts.next goesOn
      rw [starts.recorded.step] at next
      exact ih next

end Starts

/-- The loops inside of a declaration, each of which is given a bound: what it is makes no
difference, as long as it is not less than what is ahead. -/
structure LoopsEnd (nesting height : Nat) : Prop where
  arguments : ∀ vars read, Parser.Bounded (fun _ => True) fun bound =>
    moreArguments ((expression vars nesting).nested .expression height) bound read
  declarators : ∀ scope : Scope, scope.Sound → ∀ read, Parser.Bounded (fun _ => True) fun bound =>
    ((partsWithin nesting height).declarators bound read).run scope
  statements : ∀ scope : Scope, scope.Sound →
    ∀ inLoop read, Parser.Bounded (fun _ => True) fun bound =>
    ((partsWithin nesting height).statements inLoop bound read).run scope

/-- No loop of the grammar runs out of its bound: each round takes a token, and the bound counts
those ahead. -/
theorem loopsEnd (nesting height : Nat) : LoopsEnd nesting height where
  arguments vars read := bounded_moreArguments (reads_deeper vars nesting height) read
  declarators _ sound read := (partsProperty_within nesting height).bounded_declarators read sound
  statements _ sound inLoop read :=
    bounded_statements ((partsProperty_within nesting height).inner inLoop) read sound

end Grammar

namespace Program

open Grammar

/-- However its tokens are arranged, a unit is read to the end of its source. No bound stops the
reading or a loop in it; each declaration takes a token, and so do expressions and statements. The
next declaration is started with the counters at zero, which have not been above their limits, and
outside of all braces if no name is spelled like one. -/
theorem reads_to_the_end (ts : List Token) :
    (∀ bound : List Token, (Cursor.ofTokens ts).ahead.length ≤ bound.length →
      (Reading.finish bound { cursor := .ofTokens ts }).cursor.atEnd = true ∧
      (Reading.finish bound { cursor := .ofTokens ts }).items.toList = (read ts).items ∧
      ∃ j, Starts ts (Reading.finish bound { cursor := .ofTokens ts }) j) ∧
    (∀ r : Reading, r.cursor.atEnd = false → r.step.cursor.ahead.length < r.cursor.ahead.length) ∧
    (ofTokens ts).items.length ≤ (ts.takeWhile fun t => t.kind ≠ .eof).length ∧
    (∀ vars nesting height, (expression vars nesting height).Progresses ∧
      (∀ ls, (∀ level ∈ ls, level ∈ levels) → (binary (unary vars nesting) ls height).Progresses) ∧
      (unary vars nesting height).Progresses ∧
      (stepAfter vars (expression vars nesting) height).Progresses ∧
      (primary vars (expression vars nesting) height).Progresses) ∧
    (∀ declared c s c', (header declared).run c = .ok (s, c') → s.scope.Sound) ∧
    (∀ nesting height inLoop, (statement nesting height inLoop).Progresses ∧
      ((partsWithin nesting height).block inLoop).Progresses ∧
      (partsWithin nesting height).declaration.Progresses ∧
      (partsWithin nesting height).forLoop.Progresses) ∧
    (∀ nesting height, LoopsEnd nesting height) ∧
    ∀ r j, Starts ts r j → (r.record j).1 = r.step ∧ j.nesting = 0 ∧ j.height = 0 ∧ j.deepest ≤ 64 ∧
      j.tallest ≤ 1024 ∧ ((∀ t ∈ ts, t.PlainBraces) → r.cursor.depth = 0) := by
  obtain ⟨e, isEnd, cut⟩ := exists_cut 1 ts
  have ends : ∃ t ∈ (Cursor.ofTokens ts).ahead, t.kind = .eof := by
    refine ⟨e, ?_, isEnd⟩
    rw [Cursor.ofTokens, cut]
    exact List.mem_append_right _ List.mem_cons_self
  refine ⟨?_, fun _ => Reading.step_shorter, ?_, expression_progresses, ?_, statement_progresses,
    loopsEnd, ?_⟩
  · intro bound enough
    have same := Reading.finish_eq (r := { cursor := .ofTokens ts }) enough (Nat.le_refl _) ends
    refine ⟨(Reading.finish_atEnd bound _ enough ends).1, ?_, Starts.first.exists_last bound⟩
    rw [same]
    rfl
  · have cost :=
      (Reading.finish_atEnd (Cursor.ofTokens ts).ahead { cursor := .ofTokens ts }
        (Nat.le_refl _) ends).2
    have items : (read ts).items.length =
        (Reading.finish (Cursor.ofTokens ts).ahead { cursor := .ofTokens ts }).items.size :=
      Array.length_toList
    have length :
        (Cursor.ofTokens ts).ahead.length = (ts.takeWhile fun t => t.kind ≠ .eof).length + 1 := by
      rw [Cursor.ofTokens, cut, List.length_append]
      rfl
    have none : ({ cursor := .ofTokens ts } : Reading).items.size = 0 := rfl
    rw [none, length] at cost
    rw [ofTokens, length_items_link, items]
    omega
  · intro declared c s c' run
    have reads : (header declared).Reads (fun _ => True) _ _ _ _ := reads_header declared
    exact (reads.value (fun _ _ => trivial) trivial run).1.scope
  · intro r j starts
    obtain ⟨nesting, height, within⟩ := starts.counters
    exact ⟨starts.recorded.step, nesting, height, within.deepest, within.tallest,
      fun plain => (starts.outside plain).depth⟩

/-- A prototype of a function whose name is spelled like a brace, something that makes no sense, and
a function. -/
def spelledLikeABrace : List Token :=
  [Broken.word "int", Broken.word "\x7b", Broken.sign "(", Broken.sign ")", Broken.sign ";",
    Broken.word "x", Broken.sign ";"] ++ Broken.function "g" [Broken.word "return", Broken.sign ";"]

/-- Behind the prototype a brace is open, and so the function is skipped with what stands in front
of it. -/
theorem depth_spelledLikeABrace :
    (¬∀ r j, Starts spelledLikeABrace r j → r.cursor.depth = 0) ∧
    (ofTokens spelledLikeABrace).items.length = 1 := by
  refine ⟨?_, by decide +kernel⟩
  intro always
  have second : Starts spelledLikeABrace _ _ := .next .first (by decide +kernel)
  have open_ : (Reading.record { cursor := .ofTokens spelledLikeABrace } {}).1.cursor.depth =
    1 := by decide +kernel
  rw [always _ _ second] at open_
  cases open_

end Program

end BareC
