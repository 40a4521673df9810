import BareC.Proofs.Assembly.Labels
import BareC.Proofs.Isa.Immediates

/-!
# The meaning of a unit

A reference evaluator of syntax trees. It knows nothing of registers, addresses or labels: the
variables of an activation are a partial map from slots to words, operators are given by signed
integer arithmetic, and a loop is one round after another. Reading a slot that nothing has been
written to has no meaning, nor has a call of a name that is not defined.

Beside the value, the evaluator keeps account of the stack that the computation would need: eight
bytes and the rounded frame for every active call, and four for every value that waits for another
one to be computed.

Loops and calls may go on for ever, so both are given fuel. A computation ends if some fuel is
enough for it.

This is a definition and proves nothing. Division by zero and shifts by too much have the results of
the machine, since the language leaves them open, and operands are evaluated from left to right. A
name that is defined more than once means its last definition.
-/

namespace BareC

/-! ## Operators -/

/-- What stands for a truth value. -/
def Word.truth (p : Prop) [Decidable p] : Word :=
  if p then 1 else 0

/-- The result of an operator on signed numbers, cut to a word. Dividing by zero gives minus one and
leaves the dividend; shifts count modulo 32, and the right one keeps the sign. -/
def BinaryOp.eval (a b : Word) : BinaryOp → Word
  | .add => BitVec.ofInt 32 (a.toInt + b.toInt)
  | .sub => BitVec.ofInt 32 (a.toInt - b.toInt)
  | .mul => BitVec.ofInt 32 (a.toInt * b.toInt)
  | .div => if b.toInt = 0 then -1 else BitVec.ofInt 32 (a.toInt.tdiv b.toInt)
  | .rem => if b.toInt = 0 then a else BitVec.ofInt 32 (a.toInt.tmod b.toInt)
  | .bitAnd => a &&& b
  | .bitOr => a ||| b
  | .bitXor => a ^^^ b
  | .shl => BitVec.ofInt 32 (a.toInt * 2 ^ (b.toNat % 32))
  | .shr => BitVec.ofInt 32 (a.toInt / 2 ^ (b.toNat % 32))
  | .lt => Word.truth (a.toInt < b.toInt)
  | .le => Word.truth (a.toInt ≤ b.toInt)
  | .gt => Word.truth (a.toInt > b.toInt)
  | .ge => Word.truth (a.toInt ≥ b.toInt)
  | .eq => Word.truth (a = b)
  | .ne => Word.truth (a ≠ b)

def UnaryOp.eval (a : Word) : UnaryOp → Word
  | .neg => BitVec.ofInt 32 (-a.toInt)
  | .not => Word.truth (a = 0)
  | .bitNot => ~~~a

/-! ## Activations -/

/-- An active call of a function. -/
structure Activation where
  /-- What has been written to the slots. -/
  slots : Nat → Option Word
  /-- The most stack that was needed below the frame so far. -/
  deepest : Nat

/-- Computations inside of an activation. -/
abbrev Eval := StateT Activation Option

namespace Eval

/-- The value of a slot, if there is one. -/
def read (slot : Nat) : Eval Word := do
  (← get).slots slot

def write (slot : Nat) (v : Word) : Eval Unit :=
  modify fun a => { a with slots := fun s => if s = slot then some v else a.slots s }

/-- Takes account of so many bytes of stack. -/
def need (bytes : Nat) : Eval Unit :=
  modify fun a => { a with deepest := max a.deepest bytes }

end Eval

/-- What calls do: the value of a function on some arguments, and the stack that it needs. -/
abbrev Calls := String → List Word → Option (Word × Nat)

/-! ## Expressions -/

mutual

/-- The value of an expression while so many other values are waiting. -/
def Expr.eval (call : Calls) (waiting : Nat) : Expr → Eval Word
  | .num v => return v
  | .var slot => Eval.read slot
  | .assign slot value => do
    let v ← value.eval call waiting
    Eval.write slot v
    return v
  | .unary op operand => do
    let a ← operand.eval call waiting
    return op.eval a
  | .binary op left right => do
    let a ← left.eval call waiting
    Eval.need (4 * (waiting + 1))
    let b ← right.eval call (waiting + 1)
    return op.eval a b
  | .logicalAnd left right => do
    let a ← left.eval call waiting
    if a = 0 then return 0
    let b ← right.eval call waiting
    return Word.truth (b ≠ 0)
  | .logicalOr left right => do
    let a ← left.eval call waiting
    if a ≠ 0 then return 1
    let b ← right.eval call waiting
    return Word.truth (b ≠ 0)
  | .call name args => do
    let vs ← evalArgs call waiting args
    let (v, bytes) ← call name vs
    Eval.need (4 * waiting + bytes)
    return v

/-- The values of arguments from left to right, each of which waits for those behind it. -/
def evalArgs (call : Calls) (waiting : Nat) : List Expr → Eval (List Word)
  | [] => return []
  | e :: es => do
    let v ← e.eval call waiting
    Eval.need (4 * (waiting + 1))
    let vs ← evalArgs call (waiting + 1) es
    return v :: vs

end

/-! ## Statements -/

/-- Where a statement goes on. -/
inductive Flow where
  | next
  | broke
  | continued
  | returned (v : Word)
  deriving DecidableEq, Repr

/-- What comes of a loop behind a round of it: nothing yet, or that the loop is left. -/
def Flow.leaves : Flow → Option Flow
  | .next | .continued => none
  | .broke => some .next
  | .returned v => some (.returned v)

/-- What comes behind the body in a round, unless the body leaves the loop. -/
def Flow.stays (flow : Flow) (behind : Eval (Option Flow)) : Eval (Option Flow) :=
  match flow.leaves with
  | none => behind
  | some left => return some left

/-- Round after round until one leaves the loop. -/
def Eval.loop (round : Eval (Option Flow)) : (fuel : Nat) → Eval Flow
  | 0 => failure
  | fuel + 1 => do
    match ← round with
    | none => loop round fuel
    | some flow => return flow

/-- The condition holds, or there is none. -/
def evalCond (call : Calls) : Option Expr → Eval Bool
  | none => return true
  | some cond => do
    let c ← cond.eval call 0
    return c ≠ 0

/-- The step of a `for`, which may be missing. -/
def evalStep (call : Calls) : Option Expr → Eval Unit
  | none => return ()
  | some step => do
    let _ ← step.eval call 0

mutual

/-- What a statement does, with so much fuel for every loop. -/
def Stmt.exec (call : Calls) (fuel : Nat) : Stmt → Eval Flow
  | .ret none => return .returned 0
  | .ret (some e) => do
    let v ← e.eval call 0
    return .returned v
  | .expr e => do
    let _ ← e.eval call 0
    return .next
  | .decl slot none => do
    Eval.write slot 0
    return .next
  | .decl slot (some e) => do
    let v ← e.eval call 0
    Eval.write slot v
    return .next
  | .ifElse cond yes no => do
    let c ← cond.eval call 0
    if c ≠ 0 then yes.exec call fuel else execStmt? call fuel no
  | .whileLoop cond body => Eval.loop (do
      let c ← cond.eval call 0
      if c = 0 then return some .next
      let flow ← body.exec call fuel
      return flow.leaves) fuel
  | .doWhile body cond => Eval.loop (do
      let flow ← body.exec call fuel
      flow.stays do
        let c ← cond.eval call 0
        return if c = 0 then some .next else none) fuel
  | .forLoop init cond step body => do
    let flow ← execStmt? call fuel init
    if flow ≠ .next then return flow
    Eval.loop (do
      if !(← evalCond call cond) then return some .next
      let flow ← body.exec call fuel
      flow.stays do
        evalStep call step
        return none) fuel
  | .breakLoop => return .broke
  | .continueLoop => return .continued
  | .block stmts => execStmts call fuel stmts
  | .empty => return .next

def execStmt? (call : Calls) (fuel : Nat) : Option Stmt → Eval Flow
  | none => return .next
  | some s => s.exec call fuel

/-- Statements in order, up to one that goes on elsewhere. -/
def execStmts (call : Calls) (fuel : Nat) : List Stmt → Eval Flow
  | [] => return .next
  | s :: ss => do
    let flow ← s.exec call fuel
    if flow = .next then execStmts call fuel ss else return flow

end

/-! ## Functions -/

/-- What a function returns if its body goes on there. Falling off the end returns zero. -/
def Flow.result? : Flow → Option Word
  | .next => some 0
  | .returned v => some v
  | .broke | .continued => none

/-- The value of a function on some arguments, and the stack that it needs. -/
def Function.eval (call : Calls) (fuel : Nat) (f : Function) (args : List Word) :
    Option (Word × Nat) := do
  if args.length ≠ f.params then failure
  let (flow, a) ← (execStmts call fuel f.body).run { slots := (args[·]?), deepest := 0 }
  let v ← flow.result?
  return (v, 8 + Assembly.frameSize f.locals + a.deepest)

namespace Program

/-- What a call of a function of the unit does, if it can be found out with so much fuel. It runs
the last definition of the name. -/
def eval (p : Program) : (fuel : Nat) → Calls
  | 0 => fun _ _ => none
  | fuel + 1 => fun name args => do
    let f ← p.lastDefinition? name
    f.eval (p.eval fuel) fuel args

/-- What `main` does on its arguments; those behind the first two are zero. -/
def evalMain (p : Program) (fuel : Nat) (argc argv : Word) : Option (Word × Nat) := do
  let f ← p.lastDefinition? "main"
  p.eval fuel "main" ((argc :: argv :: List.replicate 6 0).take f.params)

end Program

end BareC
