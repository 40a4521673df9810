import BareC.Proofs.Journal.Parsers

/-!
# Expressions with a journal

The grammar of expressions once more, with counters for its limits. What bounds its recursion here
decides nothing: the counters have come to their limits before it is used up.

There is one lemma for each production, with the productions one level deeper as hypotheses, and an
induction on what is left of the nesting. The height comes back at the end of each chain of
operators; that this is how the counter is kept, and what it means for the trees that are built, is
found in `Grammar/Height`.
-/

namespace BareC.Grammar

namespace Journaled

/-- Stands where the counters are at their limits. -/
def unread {α : Type} : Journaled α := liftM (Parser.fail .expectedExpression : Parser α)

def moreArguments (argument : Journaled Expr) (bound : List Token) (read : List Expr) :
    Journaled (List Expr) := do
  let read := (← argument) :: read
  match bound with
  | [] => Parser.fail .expectedExpression
  | _ :: bound =>
    if ← Parser.accept "," then moreArguments argument bound read
    else
      Parser.expect ")"
      return read.reverse

def arguments (argument : Journaled Expr) : Journaled (List Expr) := do
  if ← Parser.accept ")" then return []
  else moreArguments argument (← (get : Parser Cursor)).ahead []

def primary (vars : Variables) (deeper : Journaled Expr) : Journaled Expr := do
  if ← Parser.accept "(" then
    let e ← nested .expression deeper
    Parser.expect ")"
    return e
  let t ← Parser.peek
  if t.kind = .num then
    let _ ← Parser.advance
    return .num (BitVec.ofInt 32 t.value)
  else if t.kind = .str then Parser.fail .stringLiteral
  else if isName t then
    let _ ← Parser.advance
    if ← Parser.accept "(" then
      let args ← arguments (nested .expression deeper)
      if maxParameters < args.length then Parser.fail .tooManyArguments
      return .call t.text args
    else
      match vars.lookup t.text with
      | some slot => return .var slot
      | none => Parser.failOn t.line (.undeclared t.text)
  else Parser.fail .expectedExpression

def stepAfter (vars : Variables) (deeper : Journaled Expr) : Journaled Expr := do
  let (e, o) ← withTokens vars (primary vars deeper)
  match ← Parser.seesOne steps with
  | none => return e
  | some (op, undo) =>
    let slot ← target e o
    let _ ← Parser.advance
    return .binary undo (stepped slot op) (.num 1)

def unaryOver (vars : Variables) (deeperUnary deeper : Journaled Expr) : Journaled Expr := do
  if ← Parser.accept "+" then nested .expression deeperUnary
  else if let some op ← Parser.acceptOne unaryOps then
    return .unary op (← nested .expression deeperUnary)
  else if let some (op, _) ← Parser.acceptOne steps then
    let (e, o) ← withTokens vars (nested .expression deeperUnary)
    let slot ← target e o
    return stepped slot op
  else stepAfter vars deeper

/-- The rest of a chain. It is read as far as the height lets it. -/
def chain (level : Level) (operand : Journaled Expr) :
    (bound : Nat) → (left : Expr) → Journaled Expr
  | bound, left => do
    match ← Parser.acceptOne level with
    | none => return left
    | some op =>
      grow
      match bound with
      | 0 => unread
      | bound + 1 => chain level operand bound (op left (← operand))

/-- An expression of the levels given. Each of them gives back the height that its chain has taken.
-/
def binary (operand : Journaled Expr) : List Level → Journaled Expr
  | [] => operand
  | level :: tighter => restoring do
    chain level (binary operand tighter) maxHeight (← binary operand tighter)

def assignOver (vars : Variables) (operand deeper : Journaled Expr) : Journaled Expr := do
  let (left, o) ← withTokens vars (binary operand levels)
  match ← Parser.seesOne assignments with
  | none => return left
  | some stored =>
    let slot ← target left o
    let _ ← Parser.advance
    return .assign slot (stored slot (← nested .expression deeper))

mutual

def unary (vars : Variables) : (bound : Nat) → Journaled Expr
  | 0 => unaryOver vars unread unread
  | bound + 1 => unaryOver vars (unary vars bound) (expression vars bound)

def expression (vars : Variables) : (bound : Nat) → Journaled Expr
  | 0 => assignOver vars (unaryOver vars unread unread) unread
  | bound + 1 => assignOver vars (unaryOver vars (unary vars bound) (expression vars bound))
      (expression vars bound)

end

/-! ## The grammar is followed -/

section Operands

variable {nesting height : Nat} {vars : Variables}

/-- Further arguments follow the parser's, if an argument does. -/
theorem follows_moreArguments {argument : Journaled Expr} {argument' : Parser Expr}
    (h : Follows true nesting height argument argument') (bound : List Token) (read : List Expr) :
    Follows true nesting height (moreArguments argument bound read)
      (Grammar.moreArguments argument' bound read) := by
  induction bound generalizing read with
  | nil =>
    apply Follows.bind h
    intro e
    exact .lift _
  | cons t bound ih =>
    apply Follows.bind h
    intro e
    apply Follows.lift_bind
    intro more
    apply Follows.ite
    · intro _
      exact ih (e :: read)
    · intro _
      exact .lift_bind fun _ => .pure _

/-- As `follows_moreArguments`, for the whole list with its parentheses. -/
theorem follows_arguments {argument : Journaled Expr} {argument' : Parser Expr}
    (h : Follows true nesting height argument argument') :
    Follows true nesting height (arguments argument) (Grammar.arguments argument') := by
  apply Follows.lift_bind
  intro none
  apply Follows.ite
  · intro _
    exact .pure []
  · intro _
    exact .lift_bind fun c => follows_moreArguments h c.ahead []

variable {deeperUnary deeper : Journaled Expr} {deeperUnary' deeper' : Limited Expr}

/-- A primary follows the parser's. -/
theorem follows_primary
    (hd : Follows true nesting height (nested .expression deeper)
      (deeper'.nested .expression height)) :
    Follows true nesting height (primary vars deeper) (Grammar.primary vars deeper' height) := by
  apply Follows.lift_bind
  intro opening
  apply Follows.ite
  · intro _
    apply Follows.bind hd
    intro e
    exact .lift_bind fun _ => .pure e
  intro _
  apply Follows.lift_bind
  intro t
  apply Follows.ite
  · intro _
    exact .lift_bind fun _ => .pure _
  intro _
  apply Follows.ite
  · intro _
    exact .lift _
  intro _
  apply Follows.ite
  · intro _
    apply Follows.lift_bind
    intro _
    apply Follows.lift_bind
    intro call
    apply Follows.ite
    · intro _
      apply Follows.bind (follows_arguments hd)
      intro args
      exact .ite (fun _ => .lift_bind fun _ => .pure _) fun _ => .pure _
    · intro _
      cases vars.lookup t.text with
      | none => exact .lift _
      | some slot => exact .pure _
  · intro _
    exact .lift _

/-- A step operator follows the parser's: its operand is a target in both or in neither. -/
theorem follows_stepAfter (names : (deeper'.nested .expression height).Names vars)
    (hd : Follows true nesting height (nested .expression deeper)
      (deeper'.nested .expression height)) :
    Follows true nesting height (stepAfter vars deeper)
      (Grammar.stepAfter vars deeper' height) := by
  apply Follows.withTokens_bind (follows_primary hd) (names_primary names)
  intro e o isTarget
  apply Follows.lift_bind
  intro step
  cases step with
  | none => exact .pure e
  | some ops =>
    apply Follows.bind (.target isTarget)
    intro slot
    exact .lift_bind fun _ => .pure _

/-- A unary expression follows the parser's. -/
theorem follows_unaryOver (names : (deeperUnary'.nested .expression height).Names vars)
    (names' : (deeper'.nested .expression height).Names vars)
    (hu : Follows true nesting height (nested .expression deeperUnary)
      (deeperUnary'.nested .expression height))
    (hd : Follows true nesting height (nested .expression deeper)
      (deeper'.nested .expression height)) :
    Follows true nesting height (unaryOver vars deeperUnary deeper)
      (Grammar.unaryOver vars deeperUnary' deeper' height) := by
  apply Follows.lift_bind
  intro plus
  apply Follows.ite
  · intro _
    exact hu
  intro _
  apply Follows.lift_bind
  intro op
  cases op with
  | some op => exact .bind hu fun e => .pure _
  | none =>
    apply Follows.lift_bind
    intro step
    cases step with
    | none => exact follows_stepAfter names' hd
    | some ops =>
      apply Follows.withTokens_bind hu names
      intro e o isTarget
      exact .bind (.target isTarget) fun slot => .pure _

end Operands

section Chains

variable {nesting : Nat} {vars : Variables} {operand deeper : Journaled Expr}
    {operand' deeper' : Limited Expr}
  (ho : ∀ height, Follows true nesting height operand (operand' height))

include ho

/-- A chain ends where the height is used up, and so its bound is never reached. -/
theorem follows_chain (level : Level) {height bound : Nat} (enough : height ≤ bound) (left : Expr) :
    Follows false nesting height (chain level operand bound left)
      (Grammar.chain level operand' height left) := by
  induction height generalizing bound left with
  | zero =>
    rw [chain, Grammar.chain]
    apply Follows.lift_bind
    intro op
    cases op with
    | none => exact .pure left
    | some op => exact .grow_bind_zero _
  | succ height ih =>
    obtain ⟨bound, rfl⟩ : ∃ more, bound = more + 1 := ⟨bound - 1, by omega⟩
    rw [chain, Grammar.chain]
    apply Follows.lift_bind
    intro op
    cases op with
    | none => exact .pure left
    | some op =>
      apply Follows.grow_bind_succ
      apply Follows.bind (ho height)
      intro right
      exact ih (Nat.le_of_succ_le_succ enough) (op left right)

/-- A chain of operators follows the parser's on every level, the height being restored behind it.
-/
theorem follows_binary (ls : List Level) (height : Nat) :
    Follows true nesting height (binary operand ls) (Grammar.binary operand' ls height) := by
  induction ls generalizing height with
  | nil => exact ho height
  | cons level ls ih =>
    apply Follows.of_le
    intro le
    apply Follows.restoring
    apply Follows.bind (ih height)
    intro left
    exact follows_chain ih level le left

/-- An assignment follows the parser's, with the same targets. -/
theorem follows_assignOver (names : ∀ height, (operand' height).Names vars)
    {height : Nat}
    (hd : Follows true nesting height (nested .expression deeper)
      (deeper'.nested .expression height)) :
    Follows true nesting height (assignOver vars operand deeper)
      (Grammar.assignOver operand' deeper' height) := by
  have left := names_binary names (fun _ mem => mem) height
  apply Follows.withTokens_bind (follows_binary ho levels height) left
  intro e o isTarget
  apply Follows.lift_bind
  intro stored
  cases stored with
  | none => exact .pure e
  | some stored =>
    apply Follows.bind (.target isTarget)
    intro slot
    apply Follows.lift_bind
    intro _
    apply Follows.bind hd
    intro right
    exact .pure _

end Chains

/-- Operands and expressions follow the parser's at every depth, by induction on what is left of it.
-/
theorem follows_unary_expression (vars : Variables) (nesting : Nat) :
    (∀ height,
      Follows true nesting height (unary vars nesting) (Grammar.unary vars nesting height)) ∧
      ∀ height, Follows true nesting height (expression vars nesting)
        (Grammar.expression vars nesting height) := by
  induction nesting with
  | zero =>
    have operand (height : Nat) :
        Follows true 0 height (unary vars 0) (Grammar.unary vars 0 height) :=
      follows_unaryOver (names_tooDeep height) (names_tooDeep height) (.nested_zero _ _)
        (.nested_zero _ _)
    have names := (names_unary_expression vars 0).1
    exact ⟨operand, fun height => follows_assignOver operand names (.nested_zero _ _)⟩
  | succ nesting ih =>
    have operand (height : Nat) :
        Follows true (nesting + 1) height (unary vars (nesting + 1))
          (Grammar.unary vars (nesting + 1) height) := by
      obtain ⟨unary, expression⟩ := names_unary_expression vars nesting
      exact follows_unaryOver (names_nested unary height) (names_nested expression height)
        (.nested_succ ih.1) (.nested_succ ih.2)
    have names := (names_unary_expression vars (nesting + 1)).1
    exact ⟨operand, fun height => follows_assignOver operand names (.nested_succ ih.2)⟩

/-- The expressions' half of `follows_unary_expression` -/
theorem follows_expression (vars : Variables) (nesting height : Nat) :
    Follows true nesting height (expression vars nesting)
      (Grammar.expression vars nesting height) :=
  (follows_unary_expression vars nesting).2 height

end Journaled

end BareC.Grammar
