import BareC.Assembly.Instructions
import BareC.Isa.Halt
import BareC.Syntax

/-!
# Code of a unit

The code of an expression leaves its value in `a0` and the stack as it was. The code of a statement
leaves the stack as it was, or jumps to the end of the function, or out of the innermost loop. Every
function has a frame that its slots live in. If there is a `main`, the code begins with a call of it
followed by the halt, with what `main` returned as the exit code.

Labels inside functions are numbers that are handed out one by one, so that no two places share one.
-/

namespace BareC

/-- Computations that take fresh labels. -/
abbrev Fresh := StateM Nat

/-- A label that was not taken before. -/
def fresh : Fresh Label := do
  let n ← get
  set (n + 1)
  return .inner n

/-! ## Expressions -/

open Assembly (zero ra s0 a0 a1 slotPlace)

mutual

/-- The code of an expression, `known` being the names of the functions that there are. A call of
any other name has the value zero and does not look at its arguments. -/
def Expr.draft (known : List String) : Expr → Fresh (List Draft)
  | .num v => return Draft.loadConst a0 v
  | .var slot => return [.loadWord a0 s0 (slotPlace slot)]
  | .assign slot value => do
    let value ← value.draft known
    return value ++ [.storeWord a0 s0 (slotPlace slot)]
  | .unary op operand => do
    let operand ← operand.draft known
    return operand ++ [Draft.operateUnary op]
  | .binary op left right => do
    let left ← left.draft known
    let right ← right.draft known
    return left ++ Draft.push ++ right ++ Draft.pop a1 ++ Draft.operate op
  | .logicalAnd left right => do
    let isFalse ← fresh
    let done ← fresh
    let left ← left.draft known
    let right ← right.draft known
    return left ++ Draft.gotoIfZero isFalse ++ right ++
      [.alu .sltu a0 zero a0, Draft.goto done, .mark isFalse] ++ Draft.loadConst a0 0 ++
      [.mark done]
  | .logicalOr left right => do
    let isTrue ← fresh
    let done ← fresh
    let left ← left.draft known
    let right ← right.draft known
    return left ++ Draft.gotoIfNonzero isTrue ++ right ++
      [.alu .sltu a0 zero a0, Draft.goto done, .mark isTrue] ++ Draft.loadConst a0 1 ++
      [.mark done]
  | .call name args =>
    if known.contains name then do
      let pushed ← draftOfArgs known args
      return pushed ++ Draft.popArguments args.length ++ [.jump ra (.entry name)]
    else return Draft.loadConst a0 0

/-- The code that pushes arguments from left to right. -/
def draftOfArgs (known : List String) : List Expr → Fresh (List Draft)
  | [] => return []
  | e :: es => do
    let first ← e.draft known
    let others ← draftOfArgs known es
    return first ++ Draft.push ++ others

end

/-- The code of an expression that may be missing, which then is none. -/
def draftOfExpr? (known : List String) : Option Expr → Fresh (List Draft)
  | none => return []
  | some e => e.draft known

/-! ## Statements -/

/-- Where statements jump to. -/
structure Exits where
  /-- The end of the function. -/
  ret : Label
  /-- The next round and the end of the innermost loop. -/
  loop? : Option (Label × Label) := none

/-- The jump to one of the exits; outside of loops there is none. -/
def Exits.draft (exits : Exits) (side : Label × Label → Label) : List Draft :=
  match exits.loop? with
  | none => []
  | some ends => [Draft.goto (side ends)]

mutual

/-- The code of a statement. -/
def Stmt.draft (known : List String) (exits : Exits) : Stmt → Fresh (List Draft)
  | .ret none => return Draft.loadConst a0 0 ++ [Draft.goto exits.ret]
  | .ret (some e) => do
    let value ← e.draft known
    return value ++ [Draft.goto exits.ret]
  | .expr e => e.draft known
  | .decl slot none => return [.storeWord zero s0 (slotPlace slot)]
  | .decl slot (some e) => do
    let value ← e.draft known
    return value ++ [.storeWord a0 s0 (slotPlace slot)]
  | .ifElse cond yes none => do
    let done ← fresh
    let cond ← cond.draft known
    let yes ← yes.draft known exits
    return cond ++ Draft.gotoIfZero done ++ yes ++ [.mark done]
  | .ifElse cond yes (some no) => do
    let otherwise ← fresh
    let done ← fresh
    let cond ← cond.draft known
    let yes ← yes.draft known exits
    let no ← no.draft known exits
    return cond ++ Draft.gotoIfZero otherwise ++ yes ++ [Draft.goto done, .mark otherwise] ++ no ++
      [.mark done]
  | .whileLoop cond body => do
    let top ← fresh
    let done ← fresh
    let cond ← cond.draft known
    let body ← body.draft known { exits with loop? := some (top, done) }
    return [.mark top] ++ cond ++ Draft.gotoIfZero done ++ body ++ [Draft.goto top, .mark done]
  | .doWhile body cond => do
    let top ← fresh
    let next ← fresh
    let done ← fresh
    let body ← body.draft known { exits with loop? := some (next, done) }
    let cond ← cond.draft known
    return [.mark top] ++ body ++ [.mark next] ++ cond ++ Draft.gotoIfNonzero top ++ [.mark done]
  | .forLoop init cond step body => do
    let top ← fresh
    let next ← fresh
    let done ← fresh
    let init ← draftOfStmt? known exits init
    let check ← draftOfExpr? known cond
    let body ← body.draft known { exits with loop? := some (next, done) }
    let step ← draftOfExpr? known step
    let check := if cond.isSome then check ++ Draft.gotoIfZero done else []
    return init ++ [.mark top] ++ check ++ body ++ [.mark next] ++ step ++
      [Draft.goto top, .mark done]
  | .breakLoop => return exits.draft (·.2)
  | .continueLoop => return exits.draft (·.1)
  | .block stmts => draftOfStmts known exits stmts
  | .empty => return []

/-- The code of a statement that may be missing, which then is none. -/
def draftOfStmt? (known : List String) (exits : Exits) : Option Stmt → Fresh (List Draft)
  | none => return []
  | some s => s.draft known exits

def draftOfStmts (known : List String) (exits : Exits) : List Stmt → Fresh (List Draft)
  | [] => return []
  | s :: ss => do
    let first ← s.draft known exits
    let others ← draftOfStmts known exits ss
    return first ++ others

end

/-! ## Functions and programs -/

/-- The code of a function before it is encoded. Reaching the end of its body returns zero. -/
def Function.draft (known : List String) (f : Function) : Fresh (List Draft) := do
  let ret ← fresh
  let body ← draftOfStmts known { ret } f.body
  return [.mark (.entry f.name)] ++ Draft.prologue f.params f.locals ++ body ++
    Draft.loadConst a0 0 ++ [.mark ret] ++ Draft.epilogue

/-- The code of a function. -/
def Function.code (known : List String) (f : Function) : Fresh Assembly :=
  Draft.encode <$> f.draft known

/-- The code of functions one behind the other. -/
def codeOfFunctions (known : List String) : List Function → Fresh Assembly
  | [] => return []
  | f :: fs => do
    let first ← f.code known
    let others ← codeOfFunctions known fs
    return first ++ others

namespace Program

/-- The call of `main` and the halt behind it. -/
def entryStub (known : List String) : Assembly :=
  if known.contains "main" then
    .jump ra (.entry "main") :: haltCode.map .word
  else []

/-- The code of a unit with its labels. -/
def assembly (p : Program) : Assembly :=
  let known := p.functions.map (·.name)
  entryStub known ++ ((codeOfFunctions known p.functions).run 0).1

/-- The instruction words of a unit. -/
def words (p : Program) : List Word :=
  p.assembly.link

/-- The machine code of a unit. -/
def code (p : Program) : Bytes :=
  p.words.flatMap Word.toBytes

/-- The length of the machine code. -/
def codeLength (p : Program) : Nat :=
  4 * p.words.length

end Program

/-- Writes as much of some code over the front of a region as it has room for. Returns the number of
bytes written and the region. -/
def emitInto (code : Bytes) (region : Array UInt8) : Nat × Array UInt8 :=
  let written := code.take region.size
  (written.length, written.toArray ++ region.extract written.length region.size)

/-- Writes the machine code of a unit into a region. -/
def Program.generate (p : Program) (region : Array UInt8) : Nat × Array UInt8 :=
  emitInto p.code region

end BareC
