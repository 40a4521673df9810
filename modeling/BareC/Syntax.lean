import BareC.Bytes
import BareC.Token

/-!
# Syntax trees

A compilation unit is a list of items: functions, and diagnostics in the places where a function
should have been. Inside a function names are gone. A variable is the number of its slot in the
frame, the parameters having the first ones, and only the functions that are called keep their
names.
-/

namespace BareC

inductive UnaryOp where
  | neg
  | not
  | bitNot
  deriving DecidableEq, Repr

/-- The operators that evaluate both sides. -/
inductive BinaryOp where
  | add | sub | mul | div | rem
  | bitAnd | bitOr | bitXor | shl | shr
  | lt | le | gt | ge | eq | ne
  deriving DecidableEq, Repr

inductive Expr where
  | num (value : Word)
  | var (slot : Nat)
  | assign (slot : Nat) (value : Expr)
  | unary (op : UnaryOp) (operand : Expr)
  | binary (op : BinaryOp) (left right : Expr)
  | logicalAnd (left right : Expr)
  | logicalOr (left right : Expr)
  | call (name : String) (args : List Expr)
  deriving Repr, Inhabited

inductive Stmt where
  /-- A return; without a value it returns zero. -/
  | ret (value : Option Expr)
  | expr (e : Expr)
  /-- A declared variable starts at zero unless it is given a value. -/
  | decl (slot : Nat) (init : Option Expr)
  | ifElse (cond : Expr) (yes : Stmt) (no : Option Stmt)
  | whileLoop (cond : Expr) (body : Stmt)
  | doWhile (body : Stmt) (cond : Expr)
  | forLoop (init : Option Stmt) (cond step : Option Expr) (body : Stmt)
  | breakLoop
  | continueLoop
  | block (stmts : List Stmt)
  | empty
  deriving Repr, Inhabited

/-- A function with a body. -/
structure Function where
  name : String
  /-- The parameters are in the first slots. -/
  params : Nat
  /-- The number of slots, those of the parameters among them. -/
  locals : Nat
  body : List Stmt
  line : LineNumber
  deriving Repr

/-- What a program's nesting can be too deep in. -/
inductive Nesting where
  | expression
  | statements
  deriving DecidableEq, Repr

/-- What can be wrong with a declaration. -/
inductive SyntaxFault where
  /-- An earlier stage left a marker here. -/
  | marker (message : String)
  | expected (spelling : String)
  | expectedIdentifier
  | expectedType
  | expectedExpression
  | expectedBody
  | unsupported (word : String)
  | globalVariable
  | array
  | stringLiteral
  | tooManyParameters
  | tooManyArguments
  | tooManyLocals
  | tooDeep (what : Nesting)
  | conflicting (name : String)
  | outsideLoop (word : String)
  | notAssignable
  | undeclared (name : String)
  | undefinedCallee (name : String)
  | wrongArity (name : String)
  deriving DecidableEq, Repr

/-- The wording of a fault. -/
def SyntaxFault.message : SyntaxFault → String
  | .marker message => message
  | .expected spelling => "expected '" ++ spelling ++ "'"
  | .expectedIdentifier => "expected an identifier"
  | .expectedType => "expected a type"
  | .expectedExpression => "expected an expression"
  | .expectedBody => "expected '\x7b' or ';'"
  | .unsupported word => "'" ++ word ++ "' is not supported"
  | .globalVariable => "global variables are not supported"
  | .array => "arrays are not supported"
  | .stringLiteral => "string literals are not supported"
  | .tooManyParameters => "too many parameters"
  | .tooManyArguments => "too many arguments"
  | .tooManyLocals => "too many local variables"
  | .tooDeep .expression => "expression nested too deeply"
  | .tooDeep .statements => "statements nested too deeply"
  | .conflicting name => "conflicting declaration of '" ++ name ++ "'"
  | .outsideLoop word => "'" ++ word ++ "' outside of a loop"
  | .notAssignable => "expression is not assignable"
  | .undeclared name => "undeclared variable '" ++ name ++ "'"
  | .undefinedCallee name => "call to undefined function '" ++ name ++ "'"
  | .wrongArity name => "wrong number of arguments to '" ++ name ++ "'"

/-- A fault and the line it is reported on. -/
structure Diagnostic where
  fault : SyntaxFault
  line : LineNumber
  deriving DecidableEq, Repr

/-- What stands in one place of a unit. -/
inductive Item where
  | function (f : Function)
  | error (d : Diagnostic)
  deriving Repr

namespace Item

def function? : Item → Option Function
  | .function f => some f
  | .error _ => none

def error? : Item → Option Diagnostic
  | .function _ => none
  | .error d => some d

end Item

/-- A compilation unit. -/
structure Program where
  items : List Item := []
  deriving Repr

namespace Program

def functions (p : Program) : List Function :=
  p.items.filterMap Item.function?

def errors (p : Program) : List Diagnostic :=
  p.items.filterMap Item.error?

def hasErrors (p : Program) : Bool :=
  !p.errors.isEmpty

/-- The first function of the name. -/
def function? (p : Program) (name : String) : Option Function :=
  p.functions.find? (·.name == name)

end Program

end BareC
