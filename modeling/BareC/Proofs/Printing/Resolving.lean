import BareC.Proofs.Printing.Trees

/-!
# Resolving names

What a unit says about a tree over names: every use of a variable becomes the slot of the innermost
declaration that it stands behind. Scopes are opened by blocks and by `for` only, and slots are
given out in the order of the text, the parameters having the first ones.

The clauses follow the trees over names, with the scope as a parameter that a declaration changes
and a block gives back. Well-formedness is decided along the way: names in scope, arities of the
functions that are called, jumps inside of loops, and conditionals that can be told apart without
braces. It is a condition on the tree; whether the tree is within the limits of the parser is not
part of it.
-/

namespace BareC.Named

/-! ## Resolving -/

open Grammar (Scope Variables)

/-- The slot of the innermost declaration of a name. -/
def slotOf (vars : Variables) (name : Name) : Nat :=
  (vars.lookup name.text).getD 0

/-- The scope with one more variable in it. -/
def declared (scope : Scope) (name : Name) : Scope :=
  { vars := (name.text, scope.slots) :: scope.vars, slots := scope.slots + 1 }

mutual

def Expr.resolve (vars : Variables) : Expr → BareC.Expr
  | .num v => .num v
  | .var name => .var (slotOf vars name)
  | .assign name e => .assign (slotOf vars name) (e.resolve vars)
  | .unary op e => .unary op (e.resolve vars)
  | .binary op l r => op.node (l.resolve vars) (r.resolve vars)
  | .call name args => .call name.text (resolveArgs vars args)

def resolveArgs (vars : Variables) : List Expr → List BareC.Expr
  | [] => []
  | e :: es => e.resolve vars :: resolveArgs vars es

end

/-- A variable is in scope where its own first value is computed. -/
def Declarator.resolve (scope : Scope) (d : Declarator) : BareC.Stmt :=
  .decl scope.slots (d.init.map (·.resolve (declared scope d.name).vars))

/-- The scope behind some declarators. -/
def afterDeclarators (scope : Scope) : List Declarator → Scope
  | [] => scope
  | d :: ds => afterDeclarators (declared scope d.name) ds

def resolveDeclarators (scope : Scope) : List Declarator → List BareC.Stmt
  | [] => []
  | d :: ds => d.resolve scope :: resolveDeclarators (declared scope d.name) ds

namespace Declaration

def after (scope : Scope) (d : Declaration) : Scope :=
  afterDeclarators scope (d.first :: d.others)

/-- A declaration of several variables is a block. -/
def resolve (scope : Scope) (d : Declaration) : BareC.Stmt :=
  match d.others with
  | [] => d.first.resolve scope
  | _ => .block (resolveDeclarators scope (d.first :: d.others))

end Declaration

namespace Start

def after (scope : Scope) : Start → Scope
  | nothing | expr _ => scope
  | decl d => d.after scope

def resolve (scope : Scope) : Start → Option BareC.Stmt
  | nothing => none
  | expr e => some (.expr (e.resolve scope.vars))
  | decl d => some (d.resolve scope)

end Start

mutual

/-- The scope behind a statement. Names are forgotten behind a block and behind a `for`; slots stay
given out. -/
def Stmt.after (scope : Scope) : Stmt → Scope
  | .decl d => d.after scope
  | .ifElse _ yes no => afterStmt? (yes.after scope) no
  | .whileLoop _ body | .doWhile body _ => body.after scope
  | .forLoop start _ _ body => { body.after (start.after scope) with vars := scope.vars }
  | .block stmts => { afterStmts scope stmts with vars := scope.vars }
  | .ret _ | .expr _ | .breakLoop | .continueLoop | .empty => scope

def afterStmt? (scope : Scope) : Option Stmt → Scope
  | none => scope
  | some s => s.after scope

def afterStmts (scope : Scope) : List Stmt → Scope
  | [] => scope
  | s :: ss => afterStmts (s.after scope) ss

end

mutual

def Stmt.resolve (scope : Scope) : Stmt → BareC.Stmt
  | .ret value => .ret (value.map (·.resolve scope.vars))
  | .expr e => .expr (e.resolve scope.vars)
  | .decl d => d.resolve scope
  | .ifElse cond yes no =>
    .ifElse (cond.resolve scope.vars) (yes.resolve scope) (resolveStmt? (yes.after scope) no)
  | .whileLoop cond body => .whileLoop (cond.resolve scope.vars) (body.resolve scope)
  | .doWhile body cond => .doWhile (body.resolve scope) (cond.resolve (body.after scope).vars)
  | .forLoop start cond step body =>
    .forLoop (start.resolve scope) (cond.map (·.resolve (start.after scope).vars))
      (step.map (·.resolve (start.after scope).vars)) (body.resolve (start.after scope))
  | .breakLoop => .breakLoop
  | .continueLoop => .continueLoop
  | .block stmts => .block (resolveStmts scope stmts)
  | .empty => .empty

def resolveStmt? (scope : Scope) : Option Stmt → Option BareC.Stmt
  | none => none
  | some s => some (s.resolve scope)

def resolveStmts (scope : Scope) : List Stmt → List BareC.Stmt
  | [] => []
  | s :: ss => s.resolve scope :: resolveStmts (s.after scope) ss

end

namespace Function

/-- The scope of a body, in which the parameters have the first slots. -/
def scope (f : Function) : Scope :=
  f.params.foldl declared {}

def resolve (f : Function) : BareC.Function :=
  { name := f.name.text
    params := f.params.length
    locals := (afterStmts f.scope f.body).slots
    body := resolveStmts f.scope f.body
    line := f.line }

end Function

/-! ## What can be printed -/

/-- A name stands for a variable. -/
def isDeclared (vars : Variables) (name : Name) : Bool :=
  (vars.lookup name.text).isSome

mutual

/-- The variables are in scope, and the functions have the number of parameters that they are called
with. -/
def Expr.wellFormed (arities : Arities) (vars : Variables) : Expr → Bool
  | .num _ => true
  | .var name => isDeclared vars name
  | .assign name e => isDeclared vars name && e.wellFormed arities vars
  | .unary _ e => e.wellFormed arities vars
  | .binary _ l r => l.wellFormed arities vars && r.wellFormed arities vars
  | .call name args =>
    arities.lookup name.text == some args.length && args.length ≤ Grammar.maxParameters &&
      wellFormedArgs arities vars args

def wellFormedArgs (arities : Arities) (vars : Variables) : List Expr → Bool
  | [] => true
  | e :: es => e.wellFormed arities vars && wellFormedArgs arities vars es

end

def wellFormedExpr? (arities : Arities) (vars : Variables) : Option Expr → Bool
  | none => true
  | some e => e.wellFormed arities vars

def wellFormedDeclarators (arities : Arities) (scope : Scope) : List Declarator → Bool
  | [] => true
  | d :: ds =>
    wellFormedExpr? arities (declared scope d.name).vars d.init &&
      wellFormedDeclarators arities (declared scope d.name) ds

def Declaration.wellFormed (arities : Arities) (scope : Scope) (d : Declaration) : Bool :=
  wellFormedDeclarators arities scope (d.first :: d.others)

def Start.wellFormed (arities : Arities) (scope : Scope) : Start → Bool
  | .nothing => true
  | .expr e => e.wellFormed arities scope.vars
  | .decl d => d.wellFormed arities scope

mutual

/-- An `else` behind the statement would belong to something inside it. -/
def Stmt.endsOpen : Stmt → Bool
  | .ifElse _ _ no => endsOpenElse no
  | .whileLoop _ body | .forLoop _ _ _ body => body.endsOpen
  | .ret _ | .expr _ | .decl _ | .doWhile _ _ | .breakLoop | .continueLoop | .block _ | .empty =>
    false

def endsOpenElse : Option Stmt → Bool
  | none => true
  | some s => s.endsOpen

end

mutual

/-- The expressions are well-formed where they stand, nothing outside of a loop leaves one, and no
`else` is printed that would belong to another `if`. -/
def Stmt.wellFormed (arities : Arities) (inLoop : Bool) (scope : Scope) : Stmt → Bool
  | .ret value => wellFormedExpr? arities scope.vars value
  | .expr e => e.wellFormed arities scope.vars
  | .decl d => d.wellFormed arities scope
  | .ifElse cond yes no =>
    cond.wellFormed arities scope.vars && yes.wellFormed arities inLoop scope &&
      (no.isNone || !yes.endsOpen) && wellFormedStmt? arities inLoop (yes.after scope) no
  | .whileLoop cond body =>
    cond.wellFormed arities scope.vars && body.wellFormed arities true scope
  | .doWhile body cond =>
    body.wellFormed arities true scope && cond.wellFormed arities (body.after scope).vars
  | .forLoop start cond step body =>
    start.wellFormed arities scope && wellFormedExpr? arities (start.after scope).vars cond &&
      wellFormedExpr? arities (start.after scope).vars step &&
      body.wellFormed arities true (start.after scope)
  | .breakLoop | .continueLoop => inLoop
  | .block stmts => wellFormedStmts arities inLoop scope stmts
  | .empty => true

def wellFormedStmt? (arities : Arities) (inLoop : Bool) (scope : Scope) : Option Stmt → Bool
  | none => true
  | some s => s.wellFormed arities inLoop scope

def wellFormedStmts (arities : Arities) (inLoop : Bool) (scope : Scope) : List Stmt → Bool
  | [] => true
  | s :: ss =>
    s.wellFormed arities inLoop scope && wellFormedStmts arities inLoop (s.after scope) ss

end

/-- The names and numbers of parameters of some functions. -/
def arities (fs : List Function) : Arities :=
  fs.map fun f => (f.name.text, f.params.length)

/-- Functions that can make up a unit. -/
structure WellFormed (fs : List Function) : Prop where
  distinct : (fs.map (·.name.text)).Nodup
  bodies : ∀ f ∈ fs, wellFormedStmts (arities fs) false f.scope f.body = true

instance (fs : List Function) : Decidable (WellFormed fs) :=
  decidable_of_iff ((fs.map (·.name.text)).Nodup ∧
      ∀ f ∈ fs, wellFormedStmts (arities fs) false f.scope f.body = true)
    ⟨fun h => ⟨h.1, h.2⟩, fun h => ⟨h.distinct, h.bodies⟩⟩

/-- No limit is hit when a function is read. -/
structure Function.Fits (f : Function) : Prop where
  params : f.params.length ≤ Grammar.maxParameters
  slots : (afterStmts f.scope f.body).slots ≤ Grammar.maxSlots
  nesting : costOfStmts (Expr.nesting 0) f.body ≤ Grammar.maxNesting
  height : costOfStmts (Expr.height 0) f.body ≤ Grammar.maxHeight

instance (f : Function) : Decidable f.Fits :=
  decidable_of_iff (f.params.length ≤ Grammar.maxParameters ∧
      (afterStmts f.scope f.body).slots ≤ Grammar.maxSlots ∧
      costOfStmts (Expr.nesting 0) f.body ≤ Grammar.maxNesting ∧
      costOfStmts (Expr.height 0) f.body ≤ Grammar.maxHeight)
    ⟨fun h => ⟨h.1, h.2.1, h.2.2.1, h.2.2.2⟩, fun h => ⟨h.params, h.slots, h.nesting, h.height⟩⟩

end BareC.Named
