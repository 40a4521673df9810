import BareC.Proofs.Renaming.Parsers

/-!
# Expressions under other names

In an expression a name is looked up among the variables in scope, which are renamed with it, or it
is the callee of a call and is kept. So an expression is read from renamed tokens as it was, with
other callees.

The relation of `Parsers` is carried along the grammar by one lemma for each production. Trees hold
slots and not names, so in the value only the callees change; and that is why renaming a variable
alone changes nothing behind the parser.
-/

namespace BareC.Grammar

variable {r : Renaming}

/-- With any height left, `q` reads what `p` reads. -/
def Limited.Renames (r : Renaming) (p q : Limited Expr) : Prop :=
  ∀ height, (p height).Renames r (Expr.rename r) (q height)

/-- What is nested in renamed parsers renames. -/
theorem Limited.Renames.nested {p q : Limited Expr} (h : Limited.Renames r p q) :
    Limited.Renames r (p.nested .expression) (q.nested .expression)
  | 0 => .fail_of_eq rfl
  | height + 1 => h height

/-- The failure at the greatest depth names nothing. -/
theorem renames_tooDeep : Limited.Renames r (.tooDeep .expression) (.tooDeep .expression) :=
  fun _ => .fail_of_eq rfl

/-! ## Operands -/

/-- A target stays one. -/
theorem renames_assignable (e : Expr) : (assignable e).Renames r id (assignable (e.rename r)) := by
  cases e with
  | var slot => exact .pure slot
  | _ => exact .fail_of_eq rfl

section

variable {argument argument' : Parser Expr} (ha : argument.Renames r (Expr.rename r) argument')

include ha

/-- Further arguments rename, by induction on the bound. -/
theorem renames_moreArguments (bound : List Token) (read : List Expr) :
    (moreArguments argument bound read).Renames r (List.map (Expr.rename r))
      (moreArguments argument' (bound.map (Token.rename r)) (read.map (Expr.rename r))) := by
  induction bound generalizing read with
  | nil => exact ha.bind fun _ => .fail_of_eq rfl
  | cons t bound ih =>
    refine ha.bind fun e => .bind (.accept (by decide)) fun more => ?_
    refine .ite Iff.rfl (fun _ => ih (e :: read)) fun _ => ?_
    refine .bind (.expect (by decide)) fun _ => ?_
    rw [← List.map_cons, ← List.map_reverse]
    exact .pure _

/-- A list of arguments renames. -/
theorem renames_arguments :
    (arguments argument).Renames r (List.map (Expr.rename r)) (arguments argument') :=
  .bind (.accept (by decide)) fun _ => .ite Iff.rfl (fun _ => .pure []) fun _ =>
    .bind .get fun c => renames_moreArguments ha c.ahead []

end

section

variable {vars : Variables} {deeper deeper' deeperUnary deeperUnary' : Limited Expr}

/-- A primary renames: a variable keeps its slot, a call has the new name. -/
theorem renames_primary (hd : Limited.Renames r deeper deeper') :
    Limited.Renames r (primary vars deeper) (primary (vars.rename r) deeper') := by
  intro height
  refine .bind (.accept (by decide)) fun _ => .ite Iff.rfl (fun _ => ?_) fun _ => ?_
  · exact .bind (hd.nested height) fun e => .bind (.expect (by decide)) fun _ => .pure e
  refine .bind .peek fun t => ?_
  refine .ite (by rw [Token.kind_rename]) (fun _ => ?_) fun _ => ?_
  · rw [Token.value_rename]
    exact .bind .advance fun _ => .pure _
  refine .ite (by rw [Token.kind_rename]) (fun _ => .fail_of_eq rfl) fun _ => ?_
  refine .ite (by rw [Token.isName_rename]) (fun name => ?_) fun _ => .fail_of_eq rfl
  rw [Token.text_rename_of_isName r name, Token.line_rename]
  refine .bind .advance fun _ => .bind (.accept (by decide)) fun _ =>
    .ite Iff.rfl (fun _ => ?_) fun _ => ?_
  · refine .bind (renames_arguments (hd.nested height)) fun args => ?_
    rw [← Expr.rename_call]
    exact .ite (by rw [List.length_map]) (fun _ => .fail_bind rfl) fun _ =>
      .pure (Expr.call t.text args)
  · rw [Variables.rename, lookup_rename]
    cases vars.lookup t.text with
    | some slot => exact .pure (Expr.var slot)
    | none => exact .failOn t.line (.undeclared t.text)

/-- A primary with a step behind it renames. -/
theorem renames_stepAfter (hd : Limited.Renames r deeper deeper') :
    Limited.Renames r (stepAfter vars deeper) (stepAfter (vars.rename r) deeper') := by
  intro height
  refine .bind (renames_primary hd height) fun e =>
    .seesOne_bind (by decide) (fun ops _ => ?_) (.pure e)
  exact .bind (renames_assignable e) fun slot => .bind .advance fun _ =>
    .pure (Expr.binary ops.2.2 (stepped slot ops.2.1) (.num 1))

/-- A unary expression renames. -/
theorem renames_unaryOver (hu : Limited.Renames r deeperUnary deeperUnary')
    (hd : Limited.Renames r deeper deeper') :
    Limited.Renames r (unaryOver vars deeperUnary deeper)
      (unaryOver (vars.rename r) deeperUnary' deeper') := by
  intro height
  refine .bind (.accept (by decide)) fun _ => .ite Iff.rfl (fun _ => hu.nested height) fun _ => ?_
  refine .acceptOne_bind (by decide) (fun op _ => ?_)
    (.acceptOne_bind (by decide) (fun ops _ => ?_) ?_)
  · exact .bind (hu.nested height) fun e => .pure (Expr.unary op.2 e)
  · exact .bind (hu.nested height) fun e => .bind (renames_assignable e) fun slot =>
      .pure (stepped slot ops.2.1)
  · exact renames_stepAfter hd height

end

/-! ## Chains and assignments -/

/-- The operators of a level are no names and do not look into their operands. -/
def Level.Renames (r : Renaming) (level : Level) : Prop :=
  ∀ op ∈ level, NoName op.1 ∧ ∀ left right, (op.2 left right).rename r =
    op.2 (left.rename r) (right.rename r)

/-- No operator of a level is a name. -/
theorem renames_levels : ∀ level ∈ levels, Level.Renames r level := by
  have noNames : ∀ level ∈ levels, ∀ op ∈ level, NoName op.1 := by decide
  have blind : ∀ level ∈ levels, ∀ op ∈ level, ∀ left right,
      (op.2 left right).rename r = op.2 (left.rename r) (right.rename r) := by
    simp only [levels, List.forall_mem_cons, Expr.rename, List.not_mem_nil, false_implies,
      implies_true, and_true]
  exact fun level isLevel op mem => ⟨noNames level isLevel op mem, blind level isLevel op mem⟩

section

variable {operand operand' deeper deeper' : Limited Expr}

/-- A chain of operators renames, by recursion on what is left of it. -/
theorem renames_chain {level : Level} (hl : Level.Renames r level)
    (ho : Limited.Renames r operand operand') (height : Nat) (left : Expr) :
    (chain level operand height left).Renames r (Expr.rename r)
      (chain level operand' height (left.rename r)) := by
  induction height generalizing left with
  | zero =>
    rw [chain, chain]
    exact .acceptOne_bind (fun op mem => (hl op mem).1) (fun _ _ => .fail_of_eq rfl) (.pure left)
  | succ height ih =>
    rw [chain, chain]
    refine .acceptOne_bind (fun op mem => (hl op mem).1) (fun op mem => ?_) (.pure left)
    refine .bind (ho height) fun right => ?_
    rw [← (hl op mem).2]
    exact ih (op.2 left right)

/-- The binary levels rename. -/
theorem renames_binary {levels : List Level} (hl : ∀ level ∈ levels, Level.Renames r level)
    (ho : Limited.Renames r operand operand') :
    Limited.Renames r (binary operand levels) (binary operand' levels) := by
  induction levels with
  | nil => exact ho
  | cons level tighter ih =>
    obtain ⟨first, others⟩ := List.forall_mem_cons.mp hl
    exact fun height => .bind (ih others height) fun left =>
      renames_chain first (ih others) height left

/-- An assignment renames. -/
theorem renames_assignOver (ho : Limited.Renames r operand operand')
    (hd : Limited.Renames r deeper deeper') :
    Limited.Renames r (assignOver operand deeper) (assignOver operand' deeper') := by
  intro height
  refine .bind (renames_binary renames_levels ho height) fun left =>
    .seesOne_bind (by decide) (fun stored mem => ?_) (.pure left)
  have blind : ∀ stored ∈ assignments, ∀ slot e,
      (stored.2 slot e).rename r = stored.2 slot (e.rename r) := by
    simp [assignments, Expr.rename]
  refine .bind (renames_assignable left) fun slot => .bind .advance fun _ =>
    .bind (hd.nested height) fun e => ?_
  rw [id, ← blind stored mem]
  exact .pure (Expr.assign slot (stored.2 slot e))

end

/-! ## The grammar -/

mutual

/-- Unary expressions rename at every depth, by recursion on what is left of it. -/
theorem renames_unary (vars : Variables) : (nesting : Nat) →
    Limited.Renames r (unary vars nesting) (unary (vars.rename r) nesting)
  | 0 => renames_unaryOver renames_tooDeep renames_tooDeep
  | nesting + 1 => renames_unaryOver (renames_unary vars nesting) (renames_expression vars nesting)

/-- As `renames_unary`, for expressions. -/
theorem renames_expression (vars : Variables) : (nesting : Nat) →
    Limited.Renames r (expression vars nesting) (expression (vars.rename r) nesting)
  | 0 => renames_assignOver (renames_unaryOver renames_tooDeep renames_tooDeep) renames_tooDeep
  | nesting + 1 => renames_assignOver
      (renames_unaryOver (renames_unary vars nesting) (renames_expression vars nesting))
      (renames_expression vars nesting)

end

end BareC.Grammar
