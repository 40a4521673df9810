import BareC.Grammar.Cursor

/-!
# Expressions

The grammar of expressions by levels, from assignment down to names and numbers. Two limits keep
expressions small. *Nesting* counts parentheses, unary operators, arguments and the right sides of
assignments inside each other; *height* counts these too, and every operator of a chain besides, so
that it bounds the tree. Each parser is given what is left of both, and the recursion of the grammar
is recursion on the nesting that is left: every way round goes through a place that takes one off.
-/

namespace BareC.Grammar

/-- The variables in scope with their slots, the innermost and latest first. -/
abbrev Variables := List (String × Nat)

/-- The deepest nesting of expressions and statements. -/
def maxNesting : Nat := 64

/-- The tallest expression. -/
def maxHeight : Nat := 1024

/-- The most parameters and arguments: those that are passed in registers. -/
def maxParameters : Nat := 8

/-- A parser that is given how much height is left. -/
abbrev Limited (α : Type) := (height : Nat) → Parser α

namespace Limited

/-- Where no nesting is left. -/
def tooDeep {α : Type} (what : Nesting) : Limited α :=
  fun _ => Parser.fail (.tooDeep what)

/-- One level deeper. -/
def nested {α : Type} (what : Nesting) (inner : Limited α) : Limited α
  | 0 => Parser.fail (.tooDeep what)
  | height + 1 => inner height

end Limited

/-! ## Tables of operators -/

/-- A level of binary operators that associate to the left. -/
abbrev Level := List (String × (Expr → Expr → Expr))

/-- The levels, loosest first. -/
def levels : List Level :=
  [[("||", .logicalOr)],
   [("&&", .logicalAnd)],
   [("|", .binary .bitOr)],
   [("^", .binary .bitXor)],
   [("&", .binary .bitAnd)],
   [("==", .binary .eq), ("!=", .binary .ne)],
   [("<", .binary .lt), ("<=", .binary .le), (">", .binary .gt), (">=", .binary .ge)],
   [("<<", .binary .shl), (">>", .binary .shr)],
   [("+", .binary .add), ("-", .binary .sub)],
   [("*", .binary .mul), ("/", .binary .div), ("%", .binary .rem)]]

/-- The value that an assignment stores, from the slot and the right side. -/
def assignments : List (String × (Nat → Expr → Expr)) :=
  ("=", fun _ e => e) ::
    [("+=", BinaryOp.add), ("-=", .sub), ("*=", .mul), ("/=", .div), ("%=", .rem), ("&=", .bitAnd),
     ("|=", .bitOr), ("^=", .bitXor), ("<<=", .shl), (">>=", .shr)].map
      fun (spelling, op) => (spelling, fun slot e => .binary op (.var slot) e)

def unaryOps : List (String × UnaryOp) :=
  [("-", .neg), ("!", .not), ("~", .bitNot)]

/-- The operators that step a variable, with the one that undoes the step. -/
def steps : List (String × BinaryOp × BinaryOp) :=
  [("++", .add, .sub), ("--", .sub, .add)]

/-- A variable stepped by one; its value is the new one. -/
def stepped (slot : Nat) (op : BinaryOp) : Expr :=
  .assign slot (.binary op (.var slot) (.num 1))

/-! ## The grammar -/

/-- The slot of an expression that can be assigned to. -/
def assignable : Expr → Parser Nat
  | .var slot => return slot
  | _ => Parser.fail .notAssignable

/-- The arguments of a call behind the first, up to the closing parenthesis. Each of them takes a
token, so that the tokens ahead bound their number. -/
def moreArguments (argument : Parser Expr) (bound : List Token) (read : List Expr) :
    Parser (List Expr) := do
  let read := (← argument) :: read
  match bound with
  | [] => Parser.fail .expectedExpression
  | _ :: bound =>
    if ← Parser.accept "," then moreArguments argument bound read
    else
      Parser.expect ")"
      return read.reverse

/-- The arguments of a call behind its opening parenthesis. -/
def arguments (argument : Parser Expr) : Parser (List Expr) := do
  if ← Parser.accept ")" then return []
  else moreArguments argument (← get).ahead []

/-- A number, a variable, a call or an expression in parentheses. -/
def primary (vars : Variables) (deeper : Limited Expr) : Limited Expr := fun height => do
  if ← Parser.accept "(" then
    let e ← deeper.nested .expression height
    Parser.expect ")"
    return e
  let t ← Parser.peek
  if t.kind = .num then
    let _ ← Parser.advance
    return .num (BitVec.ofInt 32 t.value)
  else if t.kind = .str then Parser.fail .stringLiteral
  else if isName t then
    let _ ← Parser.advance
    if ← Parser.accept "(" then
      let args ← arguments (deeper.nested .expression height)
      if maxParameters < args.length then Parser.fail .tooManyArguments
      return .call t.text args
    else
      match vars.lookup t.text with
      | some slot => return .var slot
      | none => Parser.failOn t.line (.undeclared t.text)
  else Parser.fail .expectedExpression

/-- An operand with a step behind it. The value is the old one, which is the new one with the step
undone. -/
def stepAfter (vars : Variables) (deeper : Limited Expr) : Limited Expr := fun height => do
  let e ← primary vars deeper height
  match ← Parser.seesOne steps with
  | none => return e
  | some (op, undo) =>
    let slot ← assignable e
    let _ ← Parser.advance
    return .binary undo (stepped slot op) (.num 1)

/-- An operand with its unary operators. -/
def unaryOver (vars : Variables) (deeperUnary deeper : Limited Expr) : Limited Expr :=
  fun height => do
    if ← Parser.accept "+" then deeperUnary.nested .expression height
    else if let some op ← Parser.acceptOne unaryOps then
      return .unary op (← deeperUnary.nested .expression height)
    else if let some (op, _) ← Parser.acceptOne steps then
      let slot ← assignable (← deeperUnary.nested .expression height)
      return stepped slot op
    else stepAfter vars deeper height

/-- The rest of a chain of operators of one level behind its operand `left`. Each operator takes one
off the height of the operands behind it. -/
def chain (level : Level) (operand : Limited Expr) (height : Nat) (left : Expr) : Parser Expr := do
  match ← Parser.acceptOne level with
  | none => return left
  | some op =>
    match height with
    | 0 => Parser.fail (.tooDeep .expression)
    | height + 1 => chain level operand height (op left (← operand height))

/-- An expression of the levels given. -/
def binary (operand : Limited Expr) : List Level → Limited Expr
  | [] => operand
  | level :: tighter => fun height => do
    chain level (binary operand tighter) height (← binary operand tighter height)

/-- An expression with its assignments, which associate to the right. -/
def assignOver (operand deeper : Limited Expr) : Limited Expr := fun height => do
  let left ← binary operand levels height
  match ← Parser.seesOne assignments with
  | none => return left
  | some stored =>
    let slot ← assignable left
    let _ ← Parser.advance
    return .assign slot (stored slot (← deeper.nested .expression height))

mutual

/-- An operand inside which so much nesting is left. -/
def unary (vars : Variables) : (nesting : Nat) → Limited Expr
  | 0 => unaryOver vars (.tooDeep .expression) (.tooDeep .expression)
  | nesting + 1 => unaryOver vars (unary vars nesting) (expression vars nesting)

/-- An expression inside which so much nesting is left. -/
def expression (vars : Variables) : (nesting : Nat) → Limited Expr
  | 0 => assignOver (unaryOver vars (.tooDeep .expression) (.tooDeep .expression))
      (.tooDeep .expression)
  | nesting + 1 => assignOver (unaryOver vars (unary vars nesting) (expression vars nesting))
      (expression vars nesting)

end

end BareC.Grammar
