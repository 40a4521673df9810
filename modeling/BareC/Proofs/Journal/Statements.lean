import BareC.Proofs.Grammar.Statements
import BareC.Proofs.Journal.Expressions

/-!
# Statements with a journal

The grammar of statements with counters for its limits. What a statement does not read deeper it
reads as before; what it does is counted, and counted back when it has been read or has failed.

The parts one level deeper follow those of the parser (`JournaledParts.Follow`), and the recursion
on the nesting is the induction at the end. The scope of a statement is not looked at by the
counters, so the rules for scopes are handed on as they are.
-/

namespace BareC.Grammar

/-- The parsers that a statement with a journal is put together from. -/
structure JournaledParts where
  expr : Variables → Journaled Expr
  inner : (inLoop : Bool) → ScopedJournaled Stmt

namespace JournaledParts

variable (parts : JournaledParts)

def value : ScopedJournaled Expr := do
  parts.expr (← get).vars

def condition : ScopedJournaled Expr := do
  Parser.expect "("
  let e ← parts.value
  Parser.expect ")"
  return e

def declarator : ScopedJournaled Stmt := do
  Parser.skipWhile (·.is "*")
  let name ← Parser.name
  if ← Parser.sees "[" then Parser.fail .array
  let slot ← ScopedJournaled.lift (declare name)
  let init ← if ← Parser.accept "=" then some <$> parts.value else pure none
  return .decl slot init

def declarators (bound : List Token) (read : List Stmt) : ScopedJournaled (List Stmt) := do
  let decl ← parts.declarator
  match bound with
  | [] => Parser.fail (.expected ";")
  | _ :: bound =>
    if ← Parser.accept "," then declarators bound (decl :: read)
    else
      Parser.expect ";"
      return (decl :: read).reverse

def declaration : ScopedJournaled Stmt := do
  Parser.skipWhile isTypeWord
  match ← parts.declarators (← (get : Parser Cursor)).ahead [] with
  | [decl] => return decl
  | decls => return .block decls

def statements (inLoop : Bool) (bound : List Token) (read : List Stmt) :
    ScopedJournaled (List Stmt) := do
  if ← Parser.sees "\x7d" then return read.reverse
  if (← (get : Parser Cursor)).atEnd then Parser.fail (.expected "\x7d")
  let s ← parts.inner inLoop
  match bound with
  | [] => Parser.fail (.expected "\x7d")
  | _ :: bound => statements inLoop bound (s :: read)

def block (inLoop : Bool) : ScopedJournaled (List Stmt) := do
  Parser.expect "\x7b"
  let stmts ← ScopedJournaled.inBlock (do
    let stmts ← parts.statements inLoop (← (get : Parser Cursor)).ahead []
    Parser.expect "\x7d"
    return stmts)
  return stmts

def valueUnless (s : String) : ScopedJournaled (Option Expr) := do
  if ← Parser.sees s then return none else some <$> parts.value

def forInit : ScopedJournaled (Option Stmt) := do
  if ← Parser.accept ";" then return none
  else if isTypeWord (← Parser.peek) then some <$> parts.declaration
  else
    let e ← parts.value
    Parser.expect ";"
    return some (.expr e)

def forLoop : ScopedJournaled Stmt := do
  Parser.expect "("
  ScopedJournaled.inBlock do
    let init ← parts.forInit
    let cond ← parts.valueUnless ";"
    Parser.expect ";"
    let step ← parts.valueUnless ")"
    Parser.expect ")"
    let body ← parts.inner true
    return .forLoop init cond step body

def ret : ScopedJournaled Stmt := do
  if ← Parser.accept ";" then return .ret none
  let e ← parts.value
  Parser.expect ";"
  return .ret (some e)

def ifElse (inLoop : Bool) : ScopedJournaled Stmt := do
  let cond ← parts.condition
  let yes ← parts.inner inLoop
  let no ← if ← Parser.accept "else" then some <$> parts.inner inLoop else pure none
  return .ifElse cond yes no

def whileLoop : ScopedJournaled Stmt := do
  let cond ← parts.condition
  let body ← parts.inner true
  return .whileLoop cond body

def doWhile : ScopedJournaled Stmt := do
  let body ← parts.inner true
  Parser.expect "while"
  let cond ← parts.condition
  Parser.expect ";"
  return .doWhile body cond

def statement (inLoop : Bool) : ScopedJournaled Stmt := do
  let t ← Parser.peek
  if t.kind = .error then Parser.fail (.marker t.text)
  else if t.is "\x7b" then return .block (← parts.block inLoop)
  else if isTypeWord t then parts.declaration
  else if ← Parser.accept ";" then return .empty
  else if ← Parser.accept "return" then parts.ret
  else if ← Parser.accept "if" then parts.ifElse inLoop
  else if ← Parser.accept "while" then parts.whileLoop
  else if ← Parser.accept "do" then parts.doWhile
  else if ← Parser.accept "for" then parts.forLoop
  else if t.is "break" then ScopedJournaled.lift (Parts.jump inLoop .breakLoop)
  else if t.is "continue" then ScopedJournaled.lift (Parts.jump inLoop .continueLoop)
  else
    Parser.refuseUnsupported
    let e ← parts.value
    Parser.expect ";"
    return .expr e

/-! ## The grammar is followed -/

/-- The parts of a statement, and those that keep a journal of reading the same. -/
structure Follow (nesting height : Nat) (parts : JournaledParts) (parts' : Parts) : Prop where
  expr : ∀ vars, Journaled.Follows true nesting height (parts.expr vars) (parts'.expr vars)
  inner :
    ∀ inLoop, ScopedJournaled.Follows nesting height (parts.inner inLoop) (parts'.inner inLoop)

namespace Follow

open ScopedJournaled

variable {parts} {parts' : Parts} {nesting height : Nat} (h : parts.Follow nesting height parts')

include h

/-- A value follows the parser's. -/
theorem value : Follows nesting height parts.value parts'.value := by
  apply Follows.bind .get
  intro scope
  exact .unscoped (h.expr scope.vars)

/-- A condition follows the parser's. -/
theorem condition : Follows nesting height parts.condition parts'.condition := by
  apply Follows.silent_bind
  intro _
  apply Follows.bind h.value
  intro e
  exact .silent_bind fun _ => .pure e

/-- A value that may be left out follows the parser's. -/
theorem valueUnless (s : String) :
    Follows nesting height (parts.valueUnless s) (parts'.valueUnless s) := by
  apply Follows.silent_bind
  intro found
  exact .ite (fun _ => .pure none) fun _ => .map some h.value

/-! ### Declarations -/

/-- A declarator follows the parser's. -/
theorem declarator : Follows nesting height parts.declarator parts'.declarator := by
  apply Follows.silent_bind
  intro _
  apply Follows.silent_bind
  intro name
  apply Follows.silent_bind
  intro array
  apply Follows.ite (fun _ => .fail_bind)
  intro _
  apply Follows.bind (.lift _)
  intro slot
  apply Follows.silent_bind
  intro initial
  apply Follows.ite
  · intro _
    exact .bind (.map some h.value) fun init => .pure _
  · intro _
    exact .bind (.pure none) fun init => .pure _

/-- Declarators follow the parser's, by induction on the bound. -/
theorem declarators (bound : List Token) (read : List Stmt) :
    Follows nesting height (parts.declarators bound read) (parts'.declarators bound read) := by
  induction bound generalizing read with
  | nil =>
    rw [Parts.declarators_nil]
    exact .bind h.declarator fun _ => .silent _
  | cons t bound ih =>
    rw [Parts.declarators_cons]
    apply Follows.bind h.declarator
    intro decl
    apply Follows.silent_bind
    intro more
    apply Follows.ite
    · intro _
      exact ih (decl :: read)
    · intro _
      exact .silent_bind fun _ => .pure _

/-- A declaration follows the parser's. -/
theorem declaration : Follows nesting height parts.declaration parts'.declaration := by
  apply Follows.silent_bind
  intro _
  apply Follows.bind (.cursor)
  intro c
  apply Follows.bind (h.declarators c.ahead [])
  intro decls
  match decls with
  | [] | [_] | _ :: _ :: _ => exact .pure _

/-! ### Blocks -/

/-- Statements follow the parser's, by induction on the bound. -/
theorem statements (inLoop : Bool) (bound : List Token) (read : List Stmt) :
    Follows nesting height (parts.statements inLoop bound read)
      (parts'.statements inLoop bound read) := by
  induction bound generalizing read with
  | nil =>
    apply Follows.silent_bind
    intro closing
    apply Follows.ite (fun _ => .pure _)
    intro _
    apply Follows.bind .cursor
    intro c
    apply Follows.ite (fun _ => .fail_bind)
    intro _
    exact .bind (h.inner inLoop) fun s => .silent _
  | cons t bound ih =>
    apply Follows.silent_bind
    intro closing
    apply Follows.ite (fun _ => .pure _)
    intro _
    apply Follows.bind .cursor
    intro c
    apply Follows.ite (fun _ => .fail_bind)
    intro _
    exact .bind (h.inner inLoop) fun s => ih (s :: read)

/-- A block follows the parser's. -/
theorem block (inLoop : Bool) :
    Follows nesting height (parts.block inLoop) (parts'.block inLoop) := by
  apply Follows.silent_bind
  intro _
  apply Follows.inBlock
  apply Follows.bind .cursor
  intro c
  apply Follows.bind (h.statements inLoop c.ahead [])
  intro stmts
  exact .silent_bind fun _ => .pure stmts

/-! ### Statements with parts -/

/-- The first part of a loop's header follows the parser's. -/
theorem forInit : Follows nesting height parts.forInit parts'.forInit := by
  apply Follows.silent_bind
  intro none
  apply Follows.ite
  · intro _
    exact .pure _
  intro _
  apply Follows.silent_bind
  intro t
  apply Follows.ite
  · intro _
    exact .map some h.declaration
  · intro _
    exact .bind h.value fun e => .silent_bind fun _ => .pure _

/-- A loop with a header follows the parser's. -/
theorem forLoop : Follows nesting height parts.forLoop parts'.forLoop := by
  apply Follows.silent_bind
  intro _
  apply Follows.inBlock
  apply Follows.bind h.forInit
  intro init
  apply Follows.bind (h.valueUnless ";")
  intro cond
  apply Follows.silent_bind
  intro _
  apply Follows.bind (h.valueUnless ")")
  intro step
  apply Follows.silent_bind
  intro _
  exact .bind (h.inner true) fun body => .pure _

/-- A return follows the parser's. -/
theorem ret : Follows nesting height parts.ret parts'.ret := by
  apply Follows.silent_bind
  intro none
  apply Follows.ite
  · intro _
    exact .pure _
  · intro _
    exact .bind h.value fun e => .silent_bind fun _ => .pure _

/-- A conditional follows the parser's. -/
theorem ifElse (inLoop : Bool) :
    Follows nesting height (parts.ifElse inLoop) (parts'.ifElse inLoop) := by
  apply Follows.bind h.condition
  intro cond
  apply Follows.bind (h.inner inLoop)
  intro yes
  apply Follows.silent_bind
  intro other
  apply Follows.ite
  · intro _
    exact .bind (.map some (h.inner inLoop)) fun no => .pure _
  · intro _
    exact .bind (.pure none) fun no => .pure _

/-- A loop follows the parser's. -/
theorem whileLoop : Follows nesting height parts.whileLoop parts'.whileLoop := by
  apply Follows.bind h.condition
  intro cond
  exact .bind (h.inner true) fun body => .pure _

/-- As `Follow.whileLoop`, the condition being read last. -/
theorem doWhile : Follows nesting height parts.doWhile parts'.doWhile := by
  apply Follows.bind (h.inner true)
  intro body
  apply Follows.silent_bind
  intro _
  apply Follows.bind h.condition
  intro cond
  exact .silent_bind fun _ => .pure _

/-- What a statement is is decided by the token that it begins with. -/
theorem statement (inLoop : Bool) :
    Follows nesting height (parts.statement inLoop) (parts'.statement inLoop) := by
  apply Follows.silent_bind
  intro t
  apply Follows.ite (fun _ => .silent _)
  intro _
  apply Follows.ite (fun _ => .bind (h.block inLoop) fun stmts => .pure _)
  intro _
  apply Follows.ite (fun _ => h.declaration)
  intro _
  apply Follows.silent_bind
  intro empty
  apply Follows.ite (fun _ => .pure _)
  intro _
  apply Follows.silent_bind
  intro isRet
  apply Follows.ite (fun _ => h.ret)
  intro _
  apply Follows.silent_bind
  intro isIf
  apply Follows.ite (fun _ => h.ifElse inLoop)
  intro _
  apply Follows.silent_bind
  intro isWhile
  apply Follows.ite (fun _ => h.whileLoop)
  intro _
  apply Follows.silent_bind
  intro isDo
  apply Follows.ite (fun _ => h.doWhile)
  intro _
  apply Follows.silent_bind
  intro isFor
  apply Follows.ite (fun _ => h.forLoop)
  intro _
  apply Follows.ite (fun _ => .lift _)
  intro _
  apply Follows.ite (fun _ => .lift _)
  intro _
  apply Follows.silent_bind
  intro _
  apply Follows.bind h.value
  intro e
  exact .silent_bind fun _ => .pure _

end Follow

end JournaledParts

/-! ## The recursion of the grammar -/

namespace ScopedJournaled

/-- A statement inside a construct. -/
def statement : (bound : Nat) → (inLoop : Bool) → ScopedJournaled Stmt
  | 0, _ => fun _ => Journaled.nested .statements Journaled.unread
  | bound + 1, inLoop => fun scope =>
    Journaled.nested .statements (({ expr := fun vars => Journaled.expression vars bound
                                     inner := statement bound : JournaledParts }.statement
                                       inLoop).run scope)

/-- The body of a function. -/
def functionBody : ScopedJournaled (List Stmt) :=
  { expr := fun vars => Journaled.expression vars maxNesting
    inner := statement maxNesting : JournaledParts }.block false

/-- Statements follow the parser's at every depth, by induction on what is left of it. -/
theorem follows_statement (nesting height : Nat) (inLoop : Bool) :
    Follows nesting height (statement nesting inLoop)
      (Grammar.statement nesting height inLoop) := by
  induction nesting generalizing height inLoop with
  | zero =>
    intro scope
    have fails : (Grammar.statement 0 height inLoop).run scope =
        (Limited.tooDeep .statements).nested .statements height := by
      cases height <;> rfl
    rw [fails]
    exact .nested_zero .statements Journaled.unread
  | succ nesting ih =>
    intro scope
    let inner (height : Nat) : Parts :=
      { expr := fun vars =>
        Grammar.expression vars nesting height, inner := Grammar.statement nesting height }
    have deeper : (Grammar.statement (nesting + 1) height inLoop).run scope =
        Limited.nested .statements (fun height =>
          ((inner height).statement inLoop).run scope) height := by
      cases height <;> rfl
    rw [deeper]
    apply Journaled.Follows.nested_succ
    intro height
    apply JournaledParts.Follow.statement
    exact ⟨fun vars => Journaled.follows_expression vars nesting height, ih height⟩

/-- The body of a function follows the parser's from the full limits. -/
theorem follows_functionBody : Follows maxNesting maxHeight functionBody Grammar.functionBody := by
  apply JournaledParts.Follow.block
  exact ⟨fun vars => Journaled.follows_expression vars maxNesting maxHeight,
    fun inLoop => follows_statement maxNesting maxHeight inLoop⟩

end ScopedJournaled

end BareC.Grammar
