import BareC.Proofs.Directives.Conditionals

/-!
# Conditions

A condition either asks whether a name is defined, or is expanded and has to come to one number or
one name. The second kind is looked at as a whole: whatever else it comes to gets a marker
(`step_condition`). The first kind is told by its first word, and after that only the word with the
name is looked at. So a condition that only begins like `defined NAME` never gets a marker, and is
decided by this name whatever stands behind (`step_trailing_operator`).

A condition is `AsksFor` a name or comes to something (`Macros.holds?`), and the marker that it gets
otherwise is `Macros.objection`. Both are functions of the words and of the macros in force, and
`Evaluates` says on which lines of a conditional they are looked at: a condition in a group that is
skipped, or behind one that was kept, is not.

What conditions ought to mean where they go on behind a name is not settled by this. It is shown
that what stands there is not looked at, and that no marker says so.
-/

namespace BareC

variable {σ : Type}

namespace Token

/-- The condition asks for the name, in parentheses or without, and for nothing else. -/
inductive AsksFor : (condition : List Token) → (name : String) → Prop where
  | bare {asks name : Token} (isAsking : asks.is "defined" = true) (isName : name.kind = .ident)
      (noParenthesis : name.is "(" = false) : AsksFor [asks, name] name.text
  | parenthesized {asks opening name closing : Token} (isAsking : asks.is "defined" = true)
      (opens : opening.is "(" = true) (isName : name.kind = .ident)
        (closes : closing.is ")" = true) :
      AsksFor [asks, opening, name, closing] name.text

/-- The condition begins as one that asks for a name does. -/
def BeginsAsking (condition : List Token) : Prop :=
  ∃ asks rest, condition = asks :: rest ∧ asks.is "defined" = true

/-- Where a condition that asks for a name has the name, if it goes on as it should. -/
inductive HasAtName : (condition : List Token) → (word : Token) → Prop where
  | bare {asks word : Token} {rest : List Token} (noParenthesis : word.is "(" = false) :
      HasAtName (asks :: word :: rest) word
  | parenthesized {asks opening word : Token} {rest : List Token} (opens : opening.is "(" = true) :
      HasAtName (asks :: opening :: word :: rest) word

end Token

/-! ## The truth of a condition -/

namespace Macros

open Token

variable {m : Macros} {condition : List Token}

/-- A condition that asks for a name says whether the name is defined. -/
theorem holds?_of_asksFor {name : String} (h : AsksFor condition name) :
    m.holds? condition = some (m.isDefined name) := by
  cases h with
  | bare isAsking _ noParenthesis => simp [holds?, isAsking, noParenthesis]
  | parenthesized isAsking opens => simp [holds?, isAsking, opens]

/-- A condition that begins so always has a truth. -/
theorem exists_holds?_of_beginsAsking (begins : BeginsAsking condition) :
    ∃ holds, m.holds? condition = some holds ∧
      (holds = true ↔ ∃ word, HasAtName condition word ∧ m.isDefined word.text = true) := by
  obtain ⟨asks, rest, rfl, isAsking⟩ := begins
  cases rest with
  | nil => exact ⟨false, by simp [holds?, isAsking], nofun, fun ⟨_, at', _⟩ => nomatch at'⟩
  | cons word rest =>
    cases parenthesis : word.is "(" with
    | false =>
      refine ⟨m.isDefined word.text, by simp [holds?, isAsking, parenthesis], ?_⟩
      refine ⟨fun defined => ⟨word, .bare parenthesis, defined⟩, fun ⟨other, at', defined⟩ => ?_⟩
      cases at' with
      | bare => exact defined
      | parenthesized opens => exact absurd (parenthesis.symm.trans opens) Bool.false_ne_true
    | true =>
      refine ⟨rest.head?.any fun name =>
        m.isDefined name.text, by simp [holds?, isAsking, parenthesis], ?_⟩
      refine ⟨fun defined => ?_, fun ⟨other, at', defined⟩ => ?_⟩
      · obtain ⟨name, first, defined⟩ := (Option.any_eq_true _ _).mp defined
        obtain ⟨rest, rfl⟩ := List.head?_eq_some_iff.mp first
        exact ⟨name, .parenthesized parenthesis, defined⟩
      · cases at' with
        | bare noParenthesis =>
          exact absurd (noParenthesis.symm.trans parenthesis) Bool.false_ne_true
        | parenthesized => exact defined

/-- Any other is expanded. -/
theorem holds?_of_not_beginsAsking (other : ¬ BeginsAsking condition) :
    m.holds? condition = holds?.number? (condition.flatMap m.expand) := by
  cases condition with
  | nil => rfl
  | cons asks rest =>
    have notAsking : ¬ asks.is "defined" = true := fun isAsking => other ⟨asks, rest, rfl, isAsking⟩
    simp only [holds?, if_neg notAsking]

/-- Only a single number or name has a value as a condition. -/
theorem number?_eq_none {ts : List Token}
    (neither : ∀ t, ts = [t] → t.kind ≠ .num ∧ t.kind ≠ .ident) : holds?.number? ts = none := by
  match ts, neither with
  | [], _ => rfl
  | [t], neither =>
    obtain ⟨noNumber, noName⟩ := neither t rfl
    rw [holds?.number?, if_neg noNumber, if_neg noName]
  | _ :: _ :: _, _ => rfl

/-- The marker for a condition that has no truth. -/
def objection (m : Macros) (condition : List Token) (line : LineNumber) : List Token :=
  if (m.holds? condition).isSome then [] else [.marker "unsupported #if expression" line]

/-- A condition that has a value meets no objection. -/
theorem objection_of_holds? {holds : Bool} (h : m.holds? condition = some holds)
    (line : LineNumber) : m.objection condition line = [] := by
  rw [objection, h, Option.isSome_some, if_pos rfl]

/-- A condition without a value is reported once, on its line. -/
theorem objection_of_holds?_eq_none (h : m.holds? condition = none) (line : LineNumber) :
    m.objection condition line = [.marker "unsupported #if expression" line] := by
  rw [objection, h, Option.isSome_none, if_neg Bool.false_ne_true]

end Macros

namespace Expansion

open Token

variable {host : Host σ} {deeper? : Option (List Token → Expansion σ → Expansion σ)}
    {e : Expansion σ}

/-- The step that judges a condition, as one equation: the value, `false` where there is none, and
the objection behind the output. -/
theorem judge_eq (condition : List Token) (line : LineNumber) (e : Expansion σ) :
    e.judge condition line = ((e.macros.holds? condition).getD false,
      { e with out := e.out ++ e.macros.objection condition line }) := by
  rw [judge]
  split
  next h => rw [h, Macros.objection_of_holds? h]; rfl
  next h => rw [h, Macros.objection_of_holds?_eq_none h]; rfl

/-- The line has a condition that decides about a group. -/
def Evaluates (e : Expansion σ) (keyword : Token) : Prop :=
  keyword.text = "if" ∧ e.branches.skipping = false ∨
    keyword.text = "elif" ∧ e.branches.elifDecides? = some true

/-- Nothing comes of a condition but a group that is kept or not, and perhaps a marker. -/
theorem step_evaluated {keyword : Token} (condition : List Token) (line : LineNumber)
    (evaluates : e.Evaluates keyword) :
    step host deeper? e (.directive (.ofWords (keyword :: condition)) line) =
      { e with
        line
        branches := (if keyword.text = "if" then e.branches.enter else e.branches.elif)
          ((e.macros.holds? condition).getD false)
        out := e.out ++ e.macros.objection condition line } := by
  rcases evaluates with ⟨isIf, reads⟩ | ⟨isElif, decides⟩
  · simp only [step, SourceItem.line, Directive.ofWords, isIf, direct, reads, judge_eq, if_true,
      Bool.false_eq_true, if_false]
  · simp only [step, SourceItem.line, Directive.ofWords, isElif, direct, decides, judge_eq,
      show ¬ ("elif" = "if") by decide, if_false]

/-- What comes of a condition. If it asks for a name and nothing else, it holds if the name is
defined. If it does not begin with `defined`, it is expanded: a number holds unless it is zero, a
name does not hold, and whatever else it comes to gets a marker and does not hold. If it begins with
`defined` it never gets a marker, and it holds if what it has at the place of the name is defined,
whatever else there is or is missing. -/
theorem step_condition (host : Host σ) (deeper? : Option (List Token → Expansion σ → Expansion σ))
    (e : Expansion σ) {keyword : Token} (condition : List Token) (line : LineNumber)
    (evaluates : e.Evaluates keyword) :
    ∃ (holds : Bool) (said : List Token),
      step host deeper? e (.directive (.ofWords (keyword :: condition)) line) =
        { e with
          line
          branches := (if keyword.text = "if" then e.branches.enter else e.branches.elif) holds
          out := e.out ++ said } ∧
      (∀ name, AsksFor condition name → holds = e.macros.isDefined name ∧ said = []) ∧
      (BeginsAsking condition →
        said = [] ∧
        (holds = true ↔ ∃ word, HasAtName condition word ∧ e.macros.isDefined word.text = true)) ∧
      (¬ BeginsAsking condition →
        (∀ t, condition.flatMap e.macros.expand = [t] → t.kind = .num →
          holds = (t.value != 0) ∧ said = []) ∧
        (∀ t, condition.flatMap e.macros.expand = [t] → t.kind = .ident →
          holds = false ∧ said = []) ∧
        ((∀ t, condition.flatMap e.macros.expand = [t] → t.kind ≠ .num ∧ t.kind ≠ .ident) →
          holds = false ∧ said = [.marker "unsupported #if expression" line])) := by
  refine ⟨_, _, step_evaluated condition line evaluates, fun name asks =>
    ?_, fun begins => ?_, fun other => ?_⟩
  · have holds := Macros.holds?_of_asksFor (m := e.macros) asks
    exact ⟨by rw [holds, Option.getD_some], Macros.objection_of_holds? holds line⟩
  · obtain ⟨holds, eq, iff⟩ := Macros.exists_holds?_of_beginsAsking (m := e.macros) begins
    exact ⟨Macros.objection_of_holds? eq line, by rw [eq, Option.getD_some]; exact iff⟩
  · have expanded := Macros.holds?_of_not_beginsAsking (m := e.macros) other
    refine ⟨fun t single number => ?_, fun t single name => ?_, fun neither => ?_⟩
    · rw [single, Macros.holds?.number?, if_pos number] at expanded
      exact ⟨by rw [expanded, Option.getD_some], Macros.objection_of_holds? expanded line⟩
    · rw [single, Macros.holds?.number?, if_neg (by simp [name]), if_pos name] at expanded
      exact ⟨by rw [expanded, Option.getD_some], Macros.objection_of_holds? expanded line⟩
    · rw [Macros.number?_eq_none neither] at expanded
      exact ⟨by rw [expanded, Option.getD_none], Macros.objection_of_holds?_eq_none expanded line⟩

/-- The words of `#if defined __riscv`, with others behind. -/
def ifRiscv (others : List Token) : List Token :=
  ["if", "defined", "__riscv"].map (fun text => { kind := .ident, text, line := 1 }) ++ others

/-- The line `#if __riscv` opens a conditional that keeps its group. -/
theorem step_condition_riscv :
    Evaluates ({ host := () } : Expansion Unit) { kind := .ident, text := "if", line := 1 } ∧
      step Host.bare none { host := () } (.directive (.ofWords (ifRiscv [])) 1) =
        { host := (), branches := [{ kept := true, settled := true }] } := by
  have evaluates :
      Evaluates ({ host := () } : Expansion Unit) { kind := .ident, text := "if", line := 1 } :=
    .inl ⟨rfl, rfl⟩
  refine ⟨evaluates, ?_⟩
  obtain ⟨holds, said, eq, asked, -⟩ := step_condition Host.bare none { host := () }
    (ifRiscv []).tail 1 evaluates
  obtain ⟨rfl, rfl⟩ := asked "__riscv" (.bare rfl rfl rfl)
  exact eq

/-- The words `&& 0`. -/
def andZero : List Token :=
  [{ kind := .punct, text := "&&", line := 1 }, { kind := .num, text := "0", line := 1 }]

/-- `defined __riscv && 0` does not ask for one name and comes neither to a number nor to a name.
Still nothing is said of it, and it holds. -/
theorem step_trailing_operator :
    Evaluates ({ host := () } : Expansion Unit) { kind := .ident, text := "if", line := 1 } ∧
      (∀ name, ¬ AsksFor (ifRiscv andZero).tail name) ∧
      (∀ t, (ifRiscv andZero).tail.flatMap Macros.predefined.expand ≠ [t]) ∧
      step Host.bare none { host := () } (.directive (.ofWords (ifRiscv andZero)) 1) =
        { host := (), branches := [{ kept := true, settled := true }] } := by
  refine ⟨.inl ⟨rfl, rfl⟩, fun name asks => ?_, fun t single => ?_, rfl⟩
  · cases asks with
    | parenthesized _ _ isName => cases isName
  · have first := Macros.expand_of_replacement?_eq_none (m := .predefined)
      (t := { kind := .ident, text := "defined", line := 1 }) rfl
    have last := Macros.expand_of_replacement?_eq_none (m := .predefined)
      (t := { kind := .num, text := "0", line := 1 }) rfl
    have long := congrArg List.length single
    simp [ifRiscv, andZero, first, last] at long

end Expansion

end BareC
