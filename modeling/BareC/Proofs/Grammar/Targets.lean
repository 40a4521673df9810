import BareC.Proofs.Grammar.Expressions

/-!
# What can be assigned to

Whether something can be assigned to is decided by looking at its tree, and not at the tokens that
it was read from. A tree that is a variable comes from the name of that variable, with parentheses
around it and with plus signs in front of it, in any order (`target_of_unary`): parentheses and plus
signs leave no trace in the tree. Every other way to read an operand builds a node.

`Names` is the property that goes along the grammar: if the tree is a variable, the tokens that were
taken are such a spelling of its name. The levels of operators hand it through, since without an
operator they return what they have read.

That a plus sign leaves no trace is what the parser does, and whether it ought to is not decided
here. The tree cannot tell, so no later stage can decide it either.
-/

namespace BareC.Grammar

/-- The tokens are the name of a variable with this slot, in any number of parentheses. With
`signs`, there may be plus signs in front of the name and in front of the parentheses. -/
inductive Target (signs : Bool) (vars : Variables) (slot : Nat) : List Token → Prop
  | name {t : Token} : isName t = true → vars.lookup t.text = some slot → Target signs vars slot [t]
  | parens {opening closing : Token} {ts : List Token} : opening.is "(" = true →
      closing.is ")" = true →
    Target signs vars slot ts → Target signs vars slot (opening :: (ts ++ [closing]))
  | plus {sign : Token} {ts : List Token} : signs = true → sign.is "+" = true →
      Target signs vars slot ts →
    Target signs vars slot (sign :: ts)

/-! ## Operands -/

/-- The parser reads a variable from nothing but a target. -/
def Parser.Names (vars : Variables) (p : Parser Expr) : Prop :=
  ∀ (c : Cursor) (slot : Nat) (c' : Cursor), p.run c = .ok (.var slot, c') →
    ∃ ts, c.ahead = ts ++ c'.ahead ∧ Target true vars slot ts

section Operands

variable {vars : Variables} {deeperUnary deeper : Limited Expr} {height : Nat}

/-- What becomes of an operand that begins with a name. -/
theorem target_of_name {t : Token} (isName : isName t = true) {c c' : Cursor} {slot : Nat}
    (run : (do
      if ← Parser.accept "(" then
        let args ← arguments (deeper.nested .expression height)
        if maxParameters < args.length then Parser.fail .tooManyArguments
        return .call t.text args
      else
        match vars.lookup t.text with
        | some slot => return .var slot
        | none =>
          Parser.failOn t.line (.undeclared t.text) : Parser Expr).run c = .ok (.var slot, c')) :
    c' = c ∧ Target true vars slot [t] := by
  rw [Parser.run_accept_bind] at run
  split at run
  · -- A call is no variable.
    obtain ⟨args, c₁, -, run⟩ := Parser.exists_of_run_bind run
    by_cases many : maxParameters < args.length
    · rw [if_pos many] at run
      cases run
    · rw [if_neg many] at run
      cases run
  · cases found : vars.lookup t.text with
    | none =>
      simp only [found] at run
      cases run
    | some slot' =>
      simp only [found] at run
      cases run
      exact ⟨rfl, .name isName found⟩

/-- A primary that is a name is a variable in scope. -/
theorem names_primary (hd : (deeper.nested .expression height).Names vars) :
    (primary vars deeper height).Names vars := by
  intro c slot c' run
  rw [primary, Parser.run_accept_bind] at run
  by_cases opening : c.next.is "(" = true
  · rw [if_pos opening] at run
    obtain ⟨e, c₁, inner, run⟩ := Parser.exists_of_run_bind run
    obtain ⟨_, c₂, closing, run⟩ := Parser.exists_of_run_bind run
    obtain ⟨closes, behind⟩ := Parser.of_run_expect closing
    cases run
    obtain ⟨ts, ahead, target⟩ := hd _ _ _ inner
    refine ⟨c.next :: (ts ++ [c₁.next]), ?_, .parens opening closes target⟩
    have behind : c' = c₁.advance := behind
    rw [Cursor.ahead_of_is opening, ahead, Cursor.ahead_of_is closes, behind]
    simp only [List.cons_append, List.append_assoc, List.nil_append]
  · rw [if_neg opening] at run
    obtain ⟨t, c₁, next, run⟩ := Parser.exists_of_run_bind run
    cases next
    split at run
    next =>
      cases run
    next =>
      split at run
      next => cases run
      next =>
        split at run
        next isName =>
          obtain ⟨t, c₁, taken, run⟩ := Parser.exists_of_run_bind run
          cases taken
          obtain ⟨rfl, target⟩ := target_of_name isName run
          refine ⟨_, ?_, target⟩
          apply Cursor.ahead_eq_cons
          rw [Token.kind_of_isName isName]
          exact Token.Kind.noConfusion
        next => cases run

/-- An operand with a step behind it is no variable. -/
theorem names_stepAfter (hd : (deeper.nested .expression height).Names vars) :
    (stepAfter vars deeper height).Names vars := by
  intro c slot c' run
  obtain ⟨e, c₁, operand, run⟩ := Parser.exists_of_run_bind run
  rw [Parser.run_seesOne_bind] at run
  cases found : (steps.find? fun entry => c₁.next.is entry.1).map (·.2) with
  | none =>
    rw [found] at run
    cases run
    exact names_primary hd c slot _ operand
  | some step =>
    rw [found] at run
    obtain ⟨slot', c₂, -, run⟩ := Parser.exists_of_run_bind run
    cases run

/-- As `names_primary`, for a unary expression: the plus hands its operand through. -/
theorem names_unaryOver (hu : (deeperUnary.nested .expression height).Names vars)
    (hd : (deeper.nested .expression height).Names vars) :
    (unaryOver vars deeperUnary deeper height).Names vars := by
  intro c slot c' run
  rw [unaryOver, Parser.run_accept_bind] at run
  by_cases sign : c.next.is "+" = true
  · rw [if_pos sign] at run
    obtain ⟨ts, ahead, target⟩ := hu _ _ _ run
    refine ⟨c.next :: ts, ?_, .plus rfl sign target⟩
    rw [Cursor.ahead_of_is sign, ahead, List.cons_append]
  · rw [if_neg sign] at run
    -- The other operators build nodes.
    simp only [Bool.false_eq_true, if_false] at run
    rw [Parser.run_acceptOne_bind] at run
    split at run
    next =>
      rw [Parser.run_acceptOne_bind] at run
      split at run
      next => exact names_stepAfter hd c slot c' run
      next =>
        obtain ⟨e, c₁, -, run⟩ := Parser.exists_of_run_bind run
        obtain ⟨slot', c₂, -, run⟩ := Parser.exists_of_run_bind run
        cases run
    next =>
      obtain ⟨e, c₁, -, run⟩ := Parser.exists_of_run_bind run
      cases run

end Operands

/-! ## Chains and assignments -/

section Chains

variable {vars : Variables} {operand deeper : Limited Expr}

/-- A chain in which there is an operator is no variable. -/
theorem eq_of_run_chain {level : Level} (isLevel : level ∈ levels) {height : Nat} {left : Expr}
    {c c' : Cursor} {slot : Nat}
    (run : (chain level operand height left).run c = .ok (.var slot, c')) :
    left = .var slot ∧ c' = c := by
  induction height generalizing left c with
  | zero =>
    rw [chain, Parser.run_acceptOne_bind] at run
    split at run
    next =>
      cases run
      exact ⟨rfl, rfl⟩
    next => exact absurd run Parser.run_fail_ne_ok
  | succ height ih =>
    rw [chain, Parser.run_acceptOne_bind] at run
    split at run
    next =>
      cases run
      exact ⟨rfl, rfl⟩
    next op found =>
      obtain ⟨right, c₁, -, run⟩ := Parser.exists_of_run_bind run
      have node := (ih run).1
      have mem := List.mem_of_find?_eq_some found
      rcases levels_cases level isLevel _ mem with eq | eq | ⟨o, eq⟩ <;>
      · dsimp only at eq
        subst eq
        cases node

/-- As `names_primary`, for the binary levels: without an operator the operand is handed through. -/
theorem names_binary (ho : ∀ height, (operand height).Names vars) {ls : List Level}
    (areLevels : ∀ level ∈ ls, level ∈ levels) (height : Nat) :
    (binary operand ls height).Names vars := by
  induction ls with
  | nil => exact ho height
  | cons level ls ih =>
    obtain ⟨isLevel, areLevels⟩ := List.forall_mem_cons.mp areLevels
    intro c slot c' run
    obtain ⟨left, c₁, first, run⟩ := Parser.exists_of_run_bind run
    obtain ⟨rfl, rfl⟩ := eq_of_run_chain isLevel run
    exact ih areLevels c slot c' first

/-- As `names_primary`, for an assignment. -/
theorem names_assignOver (ho : ∀ height, (operand height).Names vars) (height : Nat) :
    (assignOver operand deeper height).Names vars := by
  intro c slot c' run
  obtain ⟨left, c₁, first, run⟩ := Parser.exists_of_run_bind run
  rw [Parser.run_seesOne_bind] at run
  cases found : (assignments.find? fun entry => c₁.next.is entry.1).map (·.2) with
  | none =>
    rw [found] at run
    cases run
    exact names_binary ho (fun _ mem => mem) height c slot _ first
  | some stored =>
    rw [found] at run
    obtain ⟨slot', c₂, -, run⟩ := Parser.exists_of_run_bind run
    obtain ⟨e, c₃, -, run⟩ := Parser.exists_of_run_bind run
    obtain ⟨right, c₄, -, run⟩ := Parser.exists_of_run_bind run
    cases run

end Chains

/-! ## The recursion of the grammar -/

/-- As `names_primary`, one level deeper. -/
theorem names_nested {vars : Variables} {deeper : Limited Expr}
    (hd : ∀ height, (deeper height).Names vars) (height : Nat) :
    (deeper.nested .expression height).Names vars := by
  cases height with
  | zero => exact fun _ _ _ run => absurd run Parser.run_fail_ne_ok
  | succ height => exact hd height

/-- At the greatest depth nothing is read. -/
theorem names_tooDeep {vars : Variables} (height : Nat) :
    ((Limited.tooDeep .expression : Limited Expr).nested .expression height).Names vars :=
  names_nested (fun _ _ _ _ run => absurd run Parser.run_fail_ne_ok) height

/-- Operands and expressions at every depth, by induction on what is left of it. -/
theorem names_unary_expression (vars : Variables) (nesting : Nat) :
    (∀ height, (unary vars nesting height).Names vars) ∧
    ∀ height, (expression vars nesting height).Names vars := by
  induction nesting with
  | zero =>
    have operand (height : Nat) : (unary vars 0 height).Names vars :=
      names_unaryOver (names_tooDeep height) (names_tooDeep height)
    exact ⟨operand, names_assignOver operand⟩
  | succ nesting ih =>
    have operand (height : Nat) : (unary vars (nesting + 1) height).Names vars :=
      names_unaryOver (names_nested ih.1 height) (names_nested ih.2 height)
    exact ⟨operand, names_assignOver operand⟩

/-- An operand that is a variable was read from the name of the variable, which may have parentheses
around it and plus signs in front of it. -/
theorem target_of_unary {vars : Variables} {nesting height slot : Nat} {c c' : Cursor}
    (run : (unary vars nesting height).run c = .ok (.var slot, c')) :
    ∃ ts, c.ahead = ts ++ c'.ahead ∧ Target true vars slot ts :=
  (names_unary_expression vars nesting).1 height c slot c' run

end BareC.Grammar
