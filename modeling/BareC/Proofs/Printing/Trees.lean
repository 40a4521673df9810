import BareC.Grammar.Unit
import BareC.Token.Classes

/-!
# Trees over names

The functions that a programmer has in mind: trees in which a variable has a name, and in which
nothing is known of slots. They are printed as tokens, with no more parentheses than the levels of
the operators require. Two measures say what that costs: the nesting and the height that a parser
has to have left to read the tokens.

Two ways to print one tree are not compared. The measures are those of the printed form, with the
parentheses that it has, and a tree written with more of them costs more than they say.
-/

namespace BareC.Named

/-- A word that can be the name of a variable or of a function. -/
def isNameText (s : String) : Bool :=
  match s.toList with
  | [] => false
  | c :: cs => Token.isWordStart c && cs.all Token.isWordPart && !Grammar.isKeyword s

structure Name where
  text : String
  valid : isNameText text = true
  deriving DecidableEq, Repr

/-! ## Trees -/

/-- The operators between two operands. -/
inductive Operator where
  | logicalOr
  | logicalAnd
  /-- One that evaluates both sides. -/
  | strict (op : BinaryOp)
  deriving DecidableEq, Repr

inductive Expr where
  | num (value : Word)
  | var (name : Name)
  | assign (name : Name) (value : Expr)
  | unary (op : UnaryOp) (operand : Expr)
  | binary (op : Operator) (left right : Expr)
  | call (name : Name) (args : List Expr)
  deriving Repr

/-- A variable of a declaration, and what it starts with. -/
structure Declarator where
  name : Name
  init : Option Expr
  deriving Repr

/-- A declaration of one variable or of several. -/
structure Declaration where
  first : Declarator
  others : List Declarator
  deriving Repr

/-- The first part of a `for`. -/
inductive Start where
  | nothing
  | expr (e : Expr)
  | decl (d : Declaration)
  deriving Repr

inductive Stmt where
  | ret (value : Option Expr)
  | expr (e : Expr)
  | decl (d : Declaration)
  | ifElse (cond : Expr) (yes : Stmt) (no : Option Stmt)
  | whileLoop (cond : Expr) (body : Stmt)
  | doWhile (body : Stmt) (cond : Expr)
  | forLoop (start : Start) (cond step : Option Expr) (body : Stmt)
  | breakLoop
  | continueLoop
  | block (stmts : List Stmt)
  | empty
  deriving Repr

structure Function where
  name : Name
  params : List Name
  body : List Stmt
  /-- The line that all of it is printed on. -/
  line : LineNumber
  deriving Repr

/-! ## Operators -/

namespace Operator

/-- How tightly an operator binds. The tightest ones have level ten. -/
def level : Operator → Nat
  | logicalOr => 1
  | logicalAnd => 2
  | strict .bitOr => 3
  | strict .bitXor => 4
  | strict .bitAnd => 5
  | strict .eq | strict .ne => 6
  | strict .lt | strict .le | strict .gt | strict .ge => 7
  | strict .shl | strict .shr => 8
  | strict .add | strict .sub => 9
  | strict .mul | strict .div | strict .rem => 10

def spelling : Operator → String
  | logicalOr => "||"
  | logicalAnd => "&&"
  | strict .add => "+"
  | strict .sub => "-"
  | strict .mul => "*"
  | strict .div => "/"
  | strict .rem => "%"
  | strict .bitAnd => "&"
  | strict .bitOr => "|"
  | strict .bitXor => "^"
  | strict .shl => "<<"
  | strict .shr => ">>"
  | strict .lt => "<"
  | strict .le => "<="
  | strict .gt => ">"
  | strict .ge => ">="
  | strict .eq => "=="
  | strict .ne => "!="

/-- The node that an operator stands for. -/
def node : Operator → BareC.Expr → BareC.Expr → BareC.Expr
  | logicalOr => .logicalOr
  | logicalAnd => .logicalAnd
  | strict op => .binary op

end Operator

def unarySpelling : UnaryOp → String
  | .neg => "-"
  | .not => "!"
  | .bitNot => "~"

/-- The level of an operand: below a unary operator there is nothing looser than another one. -/
def unaryLevel : Nat := 11

/-! ## Printing -/

/-- A name or a keyword. -/
def word (line : LineNumber) (s : String) : Token :=
  { kind := .ident, text := s, line }

/-- An operator or a piece of punctuation. -/
def sign (line : LineNumber) (s : String) : Token :=
  { kind := .punct, text := s, line }

/-- A number is written without a sign. -/
def literal (line : LineNumber) (v : Word) : Token :=
  { kind := .num, text := toString v.toNat, value := v.toNat, line }

/-- Tokens in parentheses, where these are required. -/
def inParens (line : LineNumber) (required : Bool) (ts : List Token) : List Token :=
  if required then sign line "(" :: (ts ++ [sign line ")"]) else ts

/-- Lists of tokens with commas between them and something behind the last. -/
def separated (line : LineNumber) (closing : String) : List (List Token) → List Token
  | [] => [sign line closing]
  | [ts] => ts ++ [sign line closing]
  | ts :: us :: tss => ts ++ sign line "," :: separated line closing (us :: tss)

mutual

/-- The tokens of an expression where one of this level or tighter is wanted. An assignment has
level zero. -/
def Expr.tokens (line : LineNumber) : (level : Nat) → Expr → List Token
  | _, .num v => [literal line v]
  | _, .var name => [word line name.text]
  | level, .assign name e =>
    inParens line (0 < level) (word line name.text :: sign line "=" :: e.tokens line 0)
  | _, .unary op e => sign line (unarySpelling op) :: e.tokens line unaryLevel
  | level, .binary op l r =>
    inParens line (op.level < level)
      (l.tokens line op.level ++ sign line op.spelling :: r.tokens line (op.level + 1))
  | _, .call name args =>
    word line name.text :: sign line "(" :: separated line ")" (tokensOfArgs line args)

/-- The tokens of each argument. -/
def tokensOfArgs (line : LineNumber) : List Expr → List (List Token)
  | [] => []
  | e :: es => e.tokens line 0 :: tokensOfArgs line es

end

/-- The tokens of an expression that may be missing. -/
def tokensOfExpr? (line : LineNumber) : Option Expr → List Token
  | none => []
  | some e => e.tokens line 0

def Declarator.tokens (line : LineNumber) (d : Declarator) : List Token :=
  match d.init with
  | none => [word line d.name.text]
  | some e => word line d.name.text :: sign line "=" :: e.tokens line 0

def Declaration.tokens (line : LineNumber) (d : Declaration) : List Token :=
  word line "int" :: separated line ";" ((d.first :: d.others).map (·.tokens line))

/-- The first part of a `for` with its semicolon. -/
def Start.tokens (line : LineNumber) : Start → List Token
  | .nothing => [sign line ";"]
  | .expr e => e.tokens line 0 ++ [sign line ";"]
  | .decl d => d.tokens line

/-- An expression in parentheses. -/
def conditionTokens (line : LineNumber) (e : Expr) : List Token :=
  sign line "(" :: (e.tokens line 0 ++ [sign line ")"])

mutual

def Stmt.tokens (line : LineNumber) : Stmt → List Token
  | .ret value => word line "return" :: (tokensOfExpr? line value ++ [sign line ";"])
  | .expr e => e.tokens line 0 ++ [sign line ";"]
  | .decl d => d.tokens line
  | .ifElse cond yes no =>
    word line "if" :: (conditionTokens line cond ++ (yes.tokens line ++ tokensOfElse line no))
  | .whileLoop cond body => word line "while" :: (conditionTokens line cond ++ body.tokens line)
  | .doWhile body cond =>
    word line "do" ::
      (body.tokens line ++ word line "while" :: (conditionTokens line cond ++ [sign line ";"]))
  | .forLoop start cond step body =>
    word line "for" :: sign line "(" :: (start.tokens line ++ (tokensOfExpr? line cond ++
      sign line ";" :: (tokensOfExpr? line step ++ sign line ")" :: body.tokens line)))
  | .breakLoop => [word line "break", sign line ";"]
  | .continueLoop => [word line "continue", sign line ";"]
  | .block stmts => sign line "\x7b" :: (tokensOfStmts line stmts ++ [sign line "\x7d"])
  | .empty => [sign line ";"]

def tokensOfElse (line : LineNumber) : Option Stmt → List Token
  | none => []
  | some s => word line "else" :: s.tokens line

def tokensOfStmts (line : LineNumber) : List Stmt → List Token
  | [] => []
  | s :: ss => s.tokens line ++ tokensOfStmts line ss

end

def Function.tokens (f : Function) : List Token :=
  word f.line "int" :: word f.line f.name.text :: sign f.line "(" ::
    (separated f.line ")" (f.params.map fun name => [word f.line "int", word f.line name.text]) ++
      sign f.line "\x7b" :: (tokensOfStmts f.line f.body ++ [sign f.line "\x7d"]))

/-- The tokens of a whole unit, whose end stands on a given line. -/
def tokensOfUnit (fs : List Function) (line : LineNumber) : List Token :=
  fs.flatMap Function.tokens ++ [.endOfSource line]

/-! ## What printing costs -/

/-- The operators of one level that stand one behind the other at the left end of an expression. -/
def Expr.links (level : Nat) : Expr → Nat
  | .binary op l _ => if op.level = level then l.links level + 1 else 0
  | _ => 0

/-- What a pair of parentheses costs, where it is required. -/
def parensCost (required : Bool) : Nat :=
  if required then 1 else 0

mutual

/-- The nesting of an expression that is printed where one of this level or tighter is wanted. -/
def Expr.nesting : (level : Nat) → Expr → Nat
  | _, .num _ | _, .var _ => 0
  | level, .assign _ e => e.nesting 0 + 1 + parensCost (0 < level)
  | _, .unary _ e => e.nesting unaryLevel + 1
  | level, .binary op l r =>
    max (l.nesting op.level) (r.nesting (op.level + 1)) + parensCost (op.level < level)
  | _, .call _ args => nestingOfArgs args

def nestingOfArgs : List Expr → Nat
  | [] => 0
  | e :: es => max (e.nesting 0 + 1) (nestingOfArgs es)

end

mutual

/-- The height, in which each operator of a chain counts for the operands behind it. -/
def Expr.height : (level : Nat) → Expr → Nat
  | _, .num _ | _, .var _ => 0
  | level, .assign _ e => e.height 0 + 1 + parensCost (0 < level)
  | _, .unary _ e => e.height unaryLevel + 1
  | level, .binary op l r =>
    max (l.height op.level) (l.links op.level + 1 + r.height (op.level + 1)) +
      parensCost (op.level < level)
  | _, .call _ args => heightOfArgs args

def heightOfArgs : List Expr → Nat
  | [] => 0
  | e :: es => max (e.height 0 + 1) (heightOfArgs es)

end

section Costs

variable (ofExpr : Expr → Nat)

/-- What an expression costs that may be missing. -/
def costOfExpr? : Option Expr → Nat
  | none => 0
  | some e => ofExpr e

def costOfDeclarators : List Declarator → Nat
  | [] => 0
  | d :: ds => max (costOfExpr? ofExpr d.init) (costOfDeclarators ds)

def Declaration.cost (d : Declaration) : Nat :=
  costOfDeclarators ofExpr (d.first :: d.others)

def Start.cost : Start → Nat
  | nothing => 0
  | expr e => ofExpr e
  | decl d => d.cost ofExpr

mutual

/-- The nesting or the height of a statement, if `ofExpr` is that of an expression: both go one
level up with every statement around it. -/
def Stmt.cost : Stmt → Nat
  | .ret value => costOfExpr? ofExpr value + 1
  | .expr e => ofExpr e + 1
  | .decl d => d.cost ofExpr + 1
  | .ifElse cond yes no => max (ofExpr cond) (max yes.cost (costOfStmt? no)) + 1
  | .whileLoop cond body | .doWhile body cond => max (ofExpr cond) body.cost + 1
  | .forLoop start cond step body =>
    max (start.cost ofExpr)
      (max (costOfExpr? ofExpr cond) (max (costOfExpr? ofExpr step) body.cost)) + 1
  | .block stmts => costOfStmts stmts + 1
  | .breakLoop | .continueLoop | .empty => 1

def costOfStmt? : Option Stmt → Nat
  | none => 0
  | some s => s.cost

def costOfStmts : List Stmt → Nat
  | [] => 0
  | s :: ss => max s.cost (costOfStmts ss)

end

end Costs

end BareC.Named
