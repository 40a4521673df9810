import BareC.Proofs.Grammar.Outcome

/-!
# Expressions obey the rules

The walk through the grammar of expressions. It is made once, for any properties of operands and of
whole expressions at all, so that a bound on the slots, a bound on the height and the names of what
is called are three uses of it.

`OperandProperty` and `GrammarProperty` are what such a property has to satisfy: one clause for each
way to build a node, with what was read inside it one level deeper. They are stated of trees only;
that the tokens are taken as they should be is what `Reads` adds. The recursion on the nesting that
is left is the only induction.

Which tree a token list is read as is not said here. For printed expressions that is shown in
`Printing`.
-/

namespace BareC.Grammar

variable {Ahead : Token → Prop} {body : Bool}

/-- A spelling that is not reserved anywhere is not reserved in a body. -/
theorem free_of_reserved {s : String} (h : s ∉ Token.reserved false) : s ∉ Token.reserved body := by
  cases body with
  | false => exact h
  | true => exact fun mem => h (List.mem_append_left [";"] mem)

/-! ## Parts of expressions -/

section Parts

variable {takes : Bool} {Next : Token → Prop} {α : Type} {P : α → Prop}

/-- Only a variable can be assigned to. -/
theorem reads_assignable {e : Expr} {f : Nat → Parser α}
    (h : ∀ slot, e = .var slot → (f slot).Reads Ahead body takes Next P) :
    (assignable e >>= f).Reads Ahead body takes Next P := by
  cases e with
  | var slot => exact h slot rfl
  | _ => exact .fail_bind fun _ _ _ _ => nofun

/-- Further arguments read as the arguments do. -/
theorem reads_moreArguments {argument : Parser Expr} {P : Expr → Prop}
    (ha : argument.Reads Ahead body true (fun _ => True) P) {bound : List Token} {read : List Expr}
    (hr : ∀ e ∈ read, P e) :
    (moreArguments argument bound read).Reads Ahead body true (fun _ => True)
      fun args => ∀ e ∈ args, P e := by
  induction bound generalizing read with
  | nil => exact .bindTaken ha fun _ _ => .fail fun _ _ _ _ => nofun
  | cons t bound ih =>
    refine .bindTaken ha fun e he => ?_
    have both : ∀ x ∈ e :: read, P x := by simpa using ⟨he, hr⟩
    refine .accept_bind (free_of_reserved (by decide)) (ih both).lax ?_
    refine .expect_bind (free_of_reserved (by decide)) (.pure ?_)
    exact fun x hx => both x (List.mem_reverse.mp hx)

/-- A token accepted is taken unless it is reserved. -/
theorem reads_accept (body : Bool) {s : String} (free : s ∉ Token.reserved body) :
    (Parser.accept s).Reads Ahead body false (fun _ => True) fun _ => True := by
  rw [← bind_pure (Parser.accept s)]
  exact .accept_bind free (.pure trivial) (.pure trivial)

/-- The bound on the arguments is never met, since each takes a token. -/
theorem bounded_moreArguments {argument : Parser Expr} {P : Expr → Prop}
    (ha : argument.Reads Ahead body true (fun _ => True) P) (read : List Expr) :
    Parser.Bounded Ahead fun bound => moreArguments argument bound read := by
  refine Parser.bounded_of_shorter (fun read bound => moreArguments argument bound read) ?_ read
  intro read c bound bound' all le le' same
  cases bound <;> cases bound' <;> refine ha.run_bind_congr all fun e c' he subset less => ?_ <;>
    rw [Bool.toNat_true] at less
  case nil.cons => exact absurd (Nat.lt_of_lt_of_le less le) (Nat.not_lt_zero _)
  case cons.nil => exact absurd (Nat.lt_of_lt_of_le less le') (Nat.not_lt_zero _)
  case cons.cons t bound t' bound' =>
    have inside : ∀ t ∈ c'.ahead, Ahead t := fun t mem => all t (subset mem)
    refine (reads_accept body (free_of_reserved (by decide))).run_bind_congr inside
      fun found c'' _ subset' fewer => ?_
    cases found with
    | false => rfl
    | true =>
      simp only [List.length_cons, Bool.toNat_false] at le le' fewer
      exact same _ c'' (List.Subset.trans subset' subset) (by omega) bound bound'
        (by omega) (by omega)

/-- A list of arguments reads as its arguments do. -/
theorem reads_arguments {argument : Parser Expr} {P : Expr → Prop}
    (ha : argument.Reads Ahead body true (fun _ => True) P) :
    (arguments argument).Reads Ahead body false (fun _ => True) fun args => ∀ e ∈ args, P e := by
  refine .accept_bind (free_of_reserved (by decide)) (.pure (List.forall_mem_nil _)) ?_
  exact .bounded (bounded_moreArguments ha []) fun bound =>
    (reads_moreArguments ha (List.forall_mem_nil _)).lax

end Parts

/-! ## Operands -/

/-- What it takes for the operands of a chain to have a property, if the expressions one level of
nesting below have another one. -/
structure OperandProperty (Ahead : Token → Prop) (vars : Variables) (Inner Operand : Expr → Prop) :
    Prop where
  inner : ∀ e, Inner e → Operand e
  num : ∀ v, Operand (.num v)
  var : ∀ name slot, vars.lookup name = some slot → Operand (.var slot)
  call : ∀ t args, Ahead t → isName t = true → args.length ≤ maxParameters → (∀ e ∈ args, Inner e) →
    Operand (.call t.text args)
  unary : ∀ op e, Inner e → Operand (.unary op e)
  stepped : ∀ slot op, Inner (.var slot) → Operand (stepped slot op)
  stepAfter : ∀ slot op undo, Operand (.var slot) →
    Operand (.binary undo (Grammar.stepped slot op) (.num 1))

section Operands

variable {vars : Variables} {Inner Operand : Expr → Prop} {deeperUnary deeper : Limited Expr}
  {height : Nat} {Next : Token → Prop}

/-- A primary reads as an operand. -/
theorem reads_primary (h : OperandProperty Ahead vars Inner Operand)
    (hd : (deeper.nested .expression height).Reads Ahead body true (fun _ => True) Inner) :
    (primary vars deeper height).Reads Ahead body true Next Operand := by
  refine .accept_bind (free_of_reserved (by decide)) ?_ ?_
  · refine .bind hd.lax fun e he =>
      .expect_bind (free_of_reserved (by decide)) (.pure (h.inner e he))
  · refine .peek fun t _ ahead => .ite (fun num => ?_) fun _ => .ite (fun _ => ?_) fun _ =>
      .ite (fun name => ?_) fun _ => .fail fun _ _ _ _ => nofun
    · exact .advance (fun _ eq => eq ▸ Token.takeable_of_kind num) fun _ _ => .pure (h.num _)
    · exact .fail fun _ _ _ _ => nofun
    · have known : Ahead t := ahead fun kind => Token.Kind.noConfusion
        ((Token.kind_of_isName name).symm.trans kind)
      refine .advance (fun _ eq => eq ▸ Token.takeable_of_isName name) fun _ _ => ?_
      refine .accept_bind (free_of_reserved (by decide)) ?_ ?_
      · refine .bind (reads_arguments hd) fun args hargs => ?_
        split
        next => exact .fail_bind fun _ _ _ _ => nofun
        next few => exact .pure (h.call t args known name (Nat.le_of_not_lt few) hargs)
      · cases found : vars.lookup t.text with
        | none => exact .failOn fun _ => nofun
        | some slot => exact .pure (h.var _ slot found)

/-- No step operator is reserved. -/
theorem free_of_mem_steps : ∀ ops ∈ steps, ops.1 ∉ Token.reserved false := by decide

/-- No unary operator is reserved. -/
theorem free_of_mem_unaryOps : ∀ op ∈ unaryOps, op.1 ∉ Token.reserved false := by decide

/-- An operand with a step operator behind it reads as an operand. -/
theorem reads_stepAfter (h : OperandProperty Ahead vars Inner Operand)
    (hd : (deeper.nested .expression height).Reads Ahead body true (fun _ => True) Inner) :
    (stepAfter vars deeper height).Reads Ahead body true Next Operand := by
  refine .bindTaken (reads_primary h hd) fun e he => .seesOne_bind (fun ops mem => ?_) (.pure he)
  refine reads_assignable ?_
  rintro slot rfl
  exact .advance (fun t is =>
    Token.takeable_of_is is (free_of_reserved (free_of_mem_steps ops mem)))
    fun _ _ => .pure (h.stepAfter slot ops.2.1 ops.2.2 he)

/-- A unary expression reads as an operand. -/
theorem reads_unaryOver (h : OperandProperty Ahead vars Inner Operand)
    (hu : (deeperUnary.nested .expression height).Reads Ahead body true (fun _ => True) Inner)
    (hd : (deeper.nested .expression height).Reads Ahead body true (fun _ => True) Inner) :
    (unaryOver vars deeperUnary deeper height).Reads Ahead body true Next Operand := by
  refine .accept_bind (free_of_reserved (by decide)) (hu.lax.mono h.inner) ?_
  refine .acceptOne_bind (fun op mem => free_of_reserved (free_of_mem_unaryOps op mem))
    (fun op mem => ?_) ?_
  · exact .bind hu.lax fun e he => .pure (h.unary _ e he)
  · refine .acceptOne_bind (fun op mem => free_of_reserved (free_of_mem_steps op mem))
      (fun ops mem => ?_) ?_
    · refine .bind hu.lax fun e he => reads_assignable ?_
      rintro slot rfl
      exact .pure (h.stepped slot ops.2.1 he)
    · exact reads_stepAfter h hd

end Operands

/-! ## Chains and assignments -/

/-- The operators of the levels build nodes with two children. -/
theorem levels_cases : ∀ level ∈ levels, ∀ op ∈ level,
    op.2 = .logicalOr ∨ op.2 = .logicalAnd ∨ ∃ o, op.2 = .binary o := by
  simp only [levels, List.forall_mem_cons, List.not_mem_nil, false_implies, implies_true, and_true,
    true_or, or_true, true_and]
  and_intros
  all_goals exact .inr (.inr ⟨_, rfl⟩)

/-- No binary operator is reserved. -/
theorem free_of_mem_levels : ∀ level ∈ levels, ∀ op ∈ level, op.1 ∉ Token.reserved false := by
  have spellings : ∀ s ∈ (levels.map (·.map (·.1))).flatten, s ∉ Token.reserved false := by decide
  intro level hl op mem
  exact spellings op.1 (List.mem_flatten_of_mem (List.mem_map_of_mem hl) (List.mem_map_of_mem mem))

/-- No assignment is reserved. -/
theorem free_of_mem_assignments : ∀ stored ∈ assignments, stored.1 ∉ Token.reserved false := by
  have spellings : ∀ s ∈ assignments.map (·.1), s ∉ Token.reserved false := by decide
  exact fun stored mem => spellings _ (List.mem_map_of_mem mem)

/-- A chain of operators. `Left` is what is known of the part read so far, with the height that is
left at that point. -/
theorem reads_chain (Left : Nat → Expr → Prop) {level : Level} {operand : Limited Expr}
    {Right Result : Expr → Prop} (free : ∀ op ∈ level, op.1 ∉ Token.reserved false)
    (done : ∀ height e, Left height e → Result e)
    (step : ∀ op ∈ level, ∀ height l r, Left (height + 1) l → Right r → Left height (op.2 l r))
    {height : Nat} (hr : ∀ height', height' < height →
      (operand height').Reads Ahead body true (fun _ => True) Right)
    {left : Expr} (hl : Left height left) :
    (chain level operand height left).Reads Ahead body false (fun _ => True) Result := by
  induction height generalizing left with
  | zero =>
    rw [chain]
    refine .acceptOne_bind (fun op mem => free_of_reserved (free op mem)) (fun op mem => ?_)
      (.pure (done _ _ hl))
    exact .fail fun _ _ _ _ => nofun
  | succ height ih =>
    rw [chain]
    refine .acceptOne_bind (fun op mem => free_of_reserved (free op mem)) (fun op mem => ?_)
      (.pure (done _ _ hl))
    refine .bind (hr height (Nat.lt_succ_self height)).lax fun r right => ?_
    have below : ∀ height', height' < height →
        (operand height').Reads Ahead body true (fun _ => True) Right :=
      fun height' lt => hr height' (Nat.lt_succ_of_lt lt)
    exact ih below (step op mem height left r hl right)

/-- The levels, for a property that nodes with two children inherit from them. -/
theorem reads_binary {Q : Expr → Prop} {operand : Limited Expr} {ls : List Level}
    (inherits : ∀ l r, Q l → Q r →
      Q (.logicalOr l r) ∧ Q (.logicalAnd l r) ∧ ∀ op, Q (.binary op l r))
    (ho : ∀ height, (operand height).Reads Ahead body true (fun _ => True) Q)
    (hls : ∀ level ∈ ls, level ∈ levels) (height : Nat) :
    (binary operand ls height).Reads Ahead body true (fun _ => True) Q := by
  induction ls generalizing height with
  | nil => exact ho height
  | cons level ls ih =>
    rw [List.forall_mem_cons] at hls
    refine .bindTaken (ih hls.2 height) fun left hl => ?_
    refine reads_chain (fun _ => Q) (free_of_mem_levels level hls.1) (fun _ _ he => he) ?_
      (fun height' _ => ih hls.2 height') hl
    intro op mem _ l r hl hr
    obtain ⟨or, and, other⟩ := inherits l r hl hr
    rcases levels_cases level hls.1 op mem with eq | eq | ⟨o, eq⟩ <;> rw [eq]
    exacts [or, and, other o]

/-- An expression with its assignments, if it is known what its chains and its right side are. -/
theorem reads_assignOver {operand deeper : Limited Expr} {height : Nat} {Inner Result : Expr → Prop}
    (hl : (binary operand levels height).Reads Ahead body true (fun _ => True) Result)
    (hd : (deeper.nested .expression height).Reads Ahead body true (fun _ => True) Inner)
    (assign : ∀ stored ∈ assignments, ∀ slot e, Result (.var slot) → Inner e →
      Result (.assign slot (stored.2 slot e))) :
    (assignOver operand deeper height).Reads Ahead body true (fun _ => True) Result := by
  refine .bindTaken hl fun left hleft => .seesOne_bind (fun stored mem => ?_) (.pure hleft)
  refine reads_assignable ?_
  rintro slot rfl
  refine .advance (fun t is => ?_) fun _ _ => .bind hd.lax fun e he =>
    .pure (assign stored mem slot e hleft he)
  exact Token.takeable_of_is is (free_of_reserved (free_of_mem_assignments stored mem))

/-! ## The recursion of the grammar -/

/-- The property that expressions have one level of nesting and of height below. -/
def Below (Result : Nat → Nat → Expr → Prop) (nesting height : Nat) (e : Expr) : Prop :=
  ∃ n h, nesting = n + 1 ∧ height = h + 1 ∧ Result n h e

/-- What it takes for operands and whole expressions to have properties that depend on the nesting
and the height that are left. -/
structure GrammarProperty (Ahead : Token → Prop) (vars : Variables)
    (Operand Result : Nat → Nat → Expr → Prop) : Prop where
  operand : ∀ nesting height, OperandProperty Ahead vars (Below Result nesting height)
    (Operand nesting height)
  weaken : ∀ nesting height e, Operand nesting height e → Result nesting height e
  binary : ∀ (body : Bool) (operand : Limited Expr) (nesting height : Nat),
    (∀ height', (operand height').Reads Ahead body true (fun _ => True) (Operand nesting height')) →
      (binary operand levels height).Reads Ahead body true (fun _ => True) (Result nesting height)
  assign : ∀ nesting height, ∀ stored ∈ assignments, ∀ slot e,
    Result nesting height (.var slot) → Below Result nesting height e →
      Result nesting height (.assign slot (stored.2 slot e))

namespace GrammarProperty

variable {vars : Variables} {Operand Result : Nat → Nat → Expr → Prop}

/-- What is read one level deeper has the property of that level. -/
theorem reads_nested {deeper : Limited Expr} {nesting : Nat}
    (hd : ∀ height, (deeper height).Reads Ahead body true (fun _ => True) (Result nesting height))
    (height : Nat) : (deeper.nested .expression height).Reads Ahead body true (fun _ => True)
      (Below Result (nesting + 1) height) := by
  cases height with
  | zero => exact .fail fun _ _ _ _ => nofun
  | succ height => exact (hd height).mono fun e he => ⟨nesting, height, rfl, rfl, he⟩

/-- At the greatest depth nothing is read, so every property holds of it. -/
theorem reads_tooDeep (height : Nat) {P : Expr → Prop} :
    ((Limited.tooDeep .expression : Limited Expr).nested .expression height).Reads Ahead body true
      (fun _ => True) P := by
  cases height <;> exact .fail fun _ _ _ _ => nofun

/-- Operands and expressions have their properties at every depth, by induction on what is left of
it. -/
theorem reads_unary_expression (h : GrammarProperty Ahead vars Operand Result) (nesting : Nat) :
    (∀ height, (unary vars nesting height).Reads Ahead body true (fun _ => True)
      (Operand nesting height)) ∧
      ∀ height, (expression vars nesting height).Reads Ahead body true (fun _ => True)
        (Result nesting height) := by
  induction nesting with
  | zero =>
    have operand : ∀ height, (unaryOver vars (.tooDeep .expression) (.tooDeep .expression)
        height).Reads Ahead body true (fun _ => True) (Operand 0 height) := fun height =>
      reads_unaryOver (h.operand 0 height) (reads_tooDeep height) (reads_tooDeep height)
    refine ⟨operand, fun height => ?_⟩
    exact reads_assignOver (h.binary body _ 0 height operand) (reads_tooDeep height)
      (h.assign 0 height)
  | succ nesting ih =>
    have inner := reads_nested ih.2
    have innerUnary := reads_nested fun height =>
      (ih.1 height).mono (h.weaken nesting height)
    have operand : ∀ height, (unaryOver vars (unary vars nesting) (expression vars nesting)
        height).Reads Ahead body true (fun _ => True) (Operand (nesting + 1) height) :=
      fun height =>
      reads_unaryOver (h.operand (nesting + 1) height) (innerUnary height) (inner height)
    refine ⟨operand, fun height => ?_⟩
    exact reads_assignOver (h.binary body _ (nesting + 1) height operand) (inner height)
      (h.assign (nesting + 1) height)

/-- The expressions' half of `reads_unary_expression` -/
theorem reads_expression (h : GrammarProperty Ahead vars Operand Result) (nesting height : Nat) :
    (expression vars nesting height).Reads Ahead body true (fun _ => True)
      (Result nesting height) :=
  (h.reads_unary_expression nesting).2 height

end GrammarProperty

end BareC.Grammar
