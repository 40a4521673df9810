import BareC.Syntax

/-!
# Which calls have a target

A call is linked if the unit defines a function of its name with as many parameters as it has
arguments. A function with a call that is not is turned into a diagnostic, and since its own callers
then lose their target, this is repeated until no function is left to turn. Every round that changes
anything leaves one function less, which bounds the rounds.
-/

namespace BareC

/-! ## The calls of a tree -/

mutual

/-- The calls in an expression, each with its number of arguments, outer calls before inner ones. -/
def Expr.calls : Expr → List (String × Nat)
  | .num _ | .var _ => []
  | .assign _ e | .unary _ e => e.calls
  | .binary _ l r | .logicalAnd l r | .logicalOr l r => l.calls ++ r.calls
  | .call name args => (name, args.length) :: callsOfArgs args

def callsOfArgs : List Expr → List (String × Nat)
  | [] => []
  | e :: es => e.calls ++ callsOfArgs es

end

/-- The calls in an expression that may be missing. -/
def callsOfExpr? : Option Expr → List (String × Nat)
  | none => []
  | some e => e.calls

mutual

/-- The calls in a statement, in the order in which they are checked: the conditions of a loop
before its body, wherever they are written. -/
def Stmt.calls : Stmt → List (String × Nat)
  | .ret value => callsOfExpr? value
  | .expr e => e.calls
  | .decl _ init => callsOfExpr? init
  | .ifElse cond yes no => cond.calls ++ yes.calls ++ callsOfStmt? no
  | .whileLoop cond body | .doWhile body cond => cond.calls ++ body.calls
  | .forLoop init cond step body =>
    callsOfStmt? init ++ callsOfExpr? cond ++ callsOfExpr? step ++ body.calls
  | .block stmts => callsOfStmts stmts
  | .breakLoop | .continueLoop | .empty => []

def callsOfStmt? : Option Stmt → List (String × Nat)
  | none => []
  | some s => s.calls

def callsOfStmts : List Stmt → List (String × Nat)
  | [] => []
  | s :: ss => s.calls ++ callsOfStmts ss

end

def Function.calls (f : Function) : List (String × Nat) :=
  callsOfStmts f.body

/-! ## Linking -/

/-- What is defined: names with their numbers of parameters, the latest definition first. -/
abbrev Arities := List (String × Nat)

/-- Why a call has no target. -/
def Arities.fault? (a : Arities) (call : String × Nat) : Option SyntaxFault :=
  match a.lookup call.1 with
  | none => some (.undefinedCallee call.1)
  | some params => if params = call.2 then none else some (.wrongArity call.1)

namespace Program

def arities (p : Program) : Arities :=
  (p.functions.map fun f => (f.name, f.params)).reverse

/-- The item, or a diagnostic for the first of its calls that has no target. -/
def checkItem (a : Arities) : Item → Item
  | .error d => .error d
  | .function f =>
    match f.calls.findSome? a.fault? with
    | none => .function f
    | some fault => .error ⟨fault, f.line⟩

/-- One round over all items. -/
def checkCalls (p : Program) : Program :=
  ⟨p.items.map (checkItem p.arities)⟩

/-- The unit with only those functions left whose calls are all linked. -/
def link (p : Program) : Program :=
  let q := p.checkCalls
  if q.functions.length < p.functions.length then q.link else p
termination_by p.functions.length

end Program

end BareC
