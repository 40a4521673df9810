import BareC.Grammar.Expression

/-!
# Statements

Statements are read with the scope that they stand in: the variables that can be named, and the
number of slots given out in the function so far. A block gives back the variables it found and
keeps the slots, so no slot is used by two variables.

As with expressions, the recursion of the grammar is recursion on the nesting that is left.
-/

namespace BareC.Grammar

/-- The most slots: a frame's offsets have to fit in the immediate of a load. -/
def maxSlots : Nat := 500

/-- What is declared where a statement stands. -/
structure Scope where
  vars : Variables := []
  /-- The slots given out. -/
  slots : Nat := 0
  deriving DecidableEq, Repr

/-- A parser that may declare variables. -/
abbrev ScopedParser := StateT Scope Parser

/-- Declares a variable and returns its slot. -/
def declare (name : Token) : ScopedParser Nat := do
  let scope ← get
  if maxSlots ≤ scope.slots then Parser.failOn name.line .tooManyLocals
  set ({ vars := (name.text, scope.slots) :: scope.vars, slots := scope.slots + 1 } : Scope)
  return scope.slots

/-- Runs a parser and forgets the variables that it declares. -/
def inBlock {α : Type} (p : ScopedParser α) : ScopedParser α := do
  let outer := (← get).vars
  let a ← p
  modify fun scope => { scope with vars := outer }
  return a

/-- The parsers that a statement is put together from. -/
structure Parts where
  /-- An expression with these variables. -/
  expr : Variables → Parser Expr
  /-- A statement inside this one. Only inside a loop it may leave one. -/
  inner : (inLoop : Bool) → ScopedParser Stmt

namespace Parts

variable (parts : Parts)

/-- An expression in the present scope. -/
def value : ScopedParser Expr := do
  parts.expr (← get).vars

/-- An expression in parentheses. -/
def condition : ScopedParser Expr := do
  Parser.expect "("
  let e ← parts.value
  Parser.expect ")"
  return e

/-- The declarators of a declaration, up to its semicolon. Each of them takes a token. -/
def declarators (bound : List Token) (read : List Stmt) : ScopedParser (List Stmt) := do
  Parser.skipWhile (·.is "*")
  let name ← Parser.name
  if ← Parser.sees "[" then Parser.fail .array
  let slot ← declare name
  let init ← if ← Parser.accept "=" then some <$> parts.value else pure none
  let read := .decl slot init :: read
  match bound with
  | [] => Parser.fail (.expected ";")
  | _ :: bound =>
    if ← Parser.accept "," then declarators bound read
    else
      Parser.expect ";"
      return read.reverse

/-- A declaration, which is a block if it declares several variables. -/
def declaration : ScopedParser Stmt := do
  Parser.skipWhile isTypeWord
  match ← parts.declarators (← getThe Cursor).ahead [] with
  | [decl] => return decl
  | decls => return .block decls

/-- The statements up to the closing brace. Each of them takes a token. -/
def statements (inLoop : Bool) (bound : List Token) (read : List Stmt) :
    ScopedParser (List Stmt) := do
  if ← Parser.sees "\x7d" then return read.reverse
  if (← getThe Cursor).atEnd then Parser.fail (.expected "\x7d")
  let s ← parts.inner inLoop
  match bound with
  | [] => Parser.fail (.expected "\x7d")
  | _ :: bound => statements inLoop bound (s :: read)

/-- A block with its braces. -/
def block (inLoop : Bool) : ScopedParser (List Stmt) := do
  Parser.expect "\x7b"
  let stmts ← inBlock (do
    let stmts ← parts.statements inLoop (← getThe Cursor).ahead []
    Parser.expect "\x7d"
    return stmts)
  return stmts

/-- An expression unless the next token is spelled so. -/
def valueUnless (s : String) : ScopedParser (Option Expr) := do
  if ← Parser.sees s then return none else some <$> parts.value

/-- The first part of a `for` with its semicolon. -/
def forInit : ScopedParser (Option Stmt) := do
  if ← Parser.accept ";" then return none
  else if isTypeWord (← Parser.peek) then some <$> parts.declaration
  else
    let e ← parts.value
    Parser.expect ";"
    return some (.expr e)

/-- A `for` behind its first word. What it declares is forgotten behind its body. -/
def forLoop : ScopedParser Stmt := do
  Parser.expect "("
  inBlock do
    let init ← parts.forInit
    let cond ← parts.valueUnless ";"
    Parser.expect ";"
    let step ← parts.valueUnless ")"
    Parser.expect ")"
    let body ← parts.inner true
    return .forLoop init cond step body

/-- A `return` behind its first word. -/
def ret : ScopedParser Stmt := do
  if ← Parser.accept ";" then return .ret none
  let e ← parts.value
  Parser.expect ";"
  return .ret (some e)

/-- An `if` behind its first word. An `else` belongs to the nearest one. -/
def ifElse (inLoop : Bool) : ScopedParser Stmt := do
  let cond ← parts.condition
  let yes ← parts.inner inLoop
  let no ← if ← Parser.accept "else" then some <$> parts.inner inLoop else pure none
  return .ifElse cond yes no

/-- A `while` behind its first word. -/
def whileLoop : ScopedParser Stmt := do
  let cond ← parts.condition
  let body ← parts.inner true
  return .whileLoop cond body

/-- A `do` behind its first word. -/
def doWhile : ScopedParser Stmt := do
  let body ← parts.inner true
  Parser.expect "while"
  let cond ← parts.condition
  Parser.expect ";"
  return .doWhile body cond

/-- A jump out of the present round of a loop. -/
def jump (inLoop : Bool) (s : Stmt) : ScopedParser Stmt := do
  let t ← Parser.advance
  if !inLoop then Parser.failOn t.line (.outsideLoop t.text)
  Parser.expect ";"
  return s

/-- A statement. -/
def statement (inLoop : Bool) : ScopedParser Stmt := do
  let t ← Parser.peek
  if t.kind = .error then Parser.fail (.marker t.text)
  else if t.is "\x7b" then return .block (← parts.block inLoop)
  else if isTypeWord t then parts.declaration
  else if ← Parser.accept ";" then return .empty
  else if ← Parser.accept "return" then parts.ret
  else if ← Parser.accept "if" then parts.ifElse inLoop
  else if ← Parser.accept "while" then parts.whileLoop
  else if ← Parser.accept "do" then parts.doWhile
  else if ← Parser.accept "for" then parts.forLoop
  else if t.is "break" then jump inLoop .breakLoop
  else if t.is "continue" then jump inLoop .continueLoop
  else
    Parser.refuseUnsupported
    let e ← parts.value
    Parser.expect ";"
    return .expr e

end Parts

/-- A statement inside a construct where so much nesting and height is left. -/
def statement : (nesting height : Nat) → (inLoop : Bool) → ScopedParser Stmt
  | nesting + 1, height + 1, inLoop =>
    { expr := fun vars => expression vars nesting height
      inner := statement nesting height : Parts }.statement inLoop
  | _, _, _ => Parser.fail (.tooDeep .statements)

/-- The body of a function. -/
def functionBody : ScopedParser (List Stmt) :=
  { expr := fun vars => expression vars maxNesting maxHeight
    inner := statement maxNesting maxHeight : Parts }.block false

end BareC.Grammar
