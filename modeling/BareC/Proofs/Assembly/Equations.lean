import BareC.Proofs.Assembly.Drafts

/-!
# Generated code, construct by construct

What the code of each construct is made of, with the labels it takes written as numbers counted from
the first one free. All other modules know the code of a construct by these equations.

Every equation runs the supply of labels from some number on, and gives the code and the next number
that is free. It comes from the draft of the construct: the supply is run through the draft, and
what it gives is encoded (`Fresh.run_bind`, `Fresh.run_encode`). Labels are written in the order in
which the construct takes them, which is not the order in which it marks them.

The equations say nothing of what code is for. They hold of any tree at all, also of one that no
source stands for.
-/

namespace BareC

/-! ## Fresh labels -/

namespace Fresh

variable {α β : Type} (n : Nat)

/-- A result by itself takes no labels. -/
theorem run_pure (x : α) : (pure x : Fresh α).run n = (x, n) :=
  rfl

/-- Labels are taken in the order of the computations. -/
theorem run_bind (x : Fresh α) (f : α → Fresh β) :
    (x >>= f).run n = (f (x.run n).1).run (x.run n).2 :=
  rfl

/-- The number of a fresh label is the first one free. -/
theorem run_fresh : fresh.run n = (.inner n, n + 1) :=
  rfl

/-- Encoding takes no labels. -/
theorem run_encode (x : Fresh (List Draft)) :
    (Draft.encode <$> x : Fresh Assembly).run n = (Draft.encode (x.run n).1, (x.run n).2) :=
  rfl

end Fresh

namespace Assembly

/-- The test in front of a loop's body, which may be missing. -/
def gotoUnless (cond : Option Expr) (check : Assembly) (done : Label) : Assembly :=
  if cond.isSome then check ++ gotoIfZero done else []

end Assembly

open Assembly

variable (known : List String) (exits : Exits) (n : Nat)

/-! ## Expressions -/

namespace Expr

/-- A constant is loaded. -/
@[simp]
theorem run_code_num (v : Word) :
    ((num v).code known).run n = (loadConst a0 v, n) :=
  rfl

/-- A variable is loaded from its slot. -/
@[simp]
theorem run_code_var (slot : Nat) :
    ((var slot).code known).run n = ([loadWord a0 s0 (slotPlace slot)], n) :=
  rfl

/-- The value of an assignment is stored, and stays where it was computed. -/
@[simp]
theorem run_code_assign (slot : Nat) (value : Expr) :
    ((assign slot value).code known).run n =
      let v := (value.code known).run n
      (v.1 ++ [storeWord a0 s0 (slotPlace slot)], v.2) := by
  simp only [code, draft, Fresh.run_encode, Fresh.run_bind, Fresh.run_pure, Draft.encode_append]
  rfl

/-- A unary operator works on the value where it is. -/
@[simp]
theorem run_code_unary (op : UnaryOp) (operand : Expr) :
    ((unary op operand).code known).run n =
      let v := (operand.code known).run n
      (v.1 ++ [operateUnary op], v.2) := by
  simp only [code, draft, Fresh.run_encode, Fresh.run_bind, Fresh.run_pure, Draft.encode_append]
  rfl

/-- The left value waits on the stack while the right one is computed. -/
@[simp]
theorem run_code_binary (op : BinaryOp) (left right : Expr) :
    ((binary op left right).code known).run n =
      let l := (left.code known).run n
      let r := (right.code known).run l.2
      (l.1 ++ push ++ r.1 ++ pop a1 ++ operate op, r.2) := by
  simp only [code, draft, Fresh.run_encode, Fresh.run_bind, Fresh.run_pure, Draft.encode_append]
  rfl

/-- A conjunction takes two labels before its operands take theirs. -/
@[simp]
theorem run_code_logicalAnd (left right : Expr) :
    ((logicalAnd left right).code known).run n =
      let l := (left.code known).run (n + 2)
      let r := (right.code known).run l.2
      (l.1 ++ gotoIfZero (.inner n) ++ r.1 ++
        [alu .sltu a0 zero a0, goto (.inner (n + 1)), .mark (.inner n)] ++ loadConst a0 0 ++
        [.mark (.inner (n + 1))], r.2) := by
  simp only [code, draft, Fresh.run_encode, Fresh.run_bind, Fresh.run_pure, Fresh.run_fresh,
    Draft.encode_append]
  rfl

/-- A disjunction differs from a conjunction in the jump and in the constant. -/
@[simp]
theorem run_code_logicalOr (left right : Expr) :
    ((logicalOr left right).code known).run n =
      let l := (left.code known).run (n + 2)
      let r := (right.code known).run l.2
      (l.1 ++ gotoIfNonzero (.inner n) ++ r.1 ++
        [alu .sltu a0 zero a0, goto (.inner (n + 1)), .mark (.inner n)] ++ loadConst a0 1 ++
        [.mark (.inner (n + 1))], r.2) := by
  simp only [code, draft, Fresh.run_encode, Fresh.run_bind, Fresh.run_pure, Fresh.run_fresh,
    Draft.encode_append]
  rfl

/-- A call of a function pushes its arguments, pops them into their registers, and jumps. -/
theorem run_code_call {name : String} (h : name ∈ known) (args : List Expr) :
    ((call name args).code known).run n =
      let pushed := (codeOfArgs known args).run n
      (pushed.1 ++ popArguments args.length ++ [.jump ra (.entry name)], pushed.2) := by
  rw [code, draft, if_pos (List.contains_iff_mem.mpr h)]
  simp only [codeOfArgs, Fresh.run_encode, Fresh.run_bind, Fresh.run_pure, Draft.encode_append]
  rfl

/-- A call of a name that there is no function for has no code for its arguments. -/
theorem run_code_call_unknown {name : String} (h : name ∉ known) (args : List Expr) :
    ((call name args).code known).run n = (loadConst a0 0, n) := by
  rw [code, draft, if_neg (by simpa using h)]
  rfl

end Expr

@[simp]
theorem run_codeOfArgs_nil : (codeOfArgs known []).run n = ([], n) :=
  rfl

/-- Every argument is pushed before the next one is computed. -/
@[simp]
theorem run_codeOfArgs_cons (e : Expr) (es : List Expr) :
    (codeOfArgs known (e :: es)).run n =
      let first := (e.code known).run n
      let others := (codeOfArgs known es).run first.2
      (first.1 ++ push ++ others.1, others.2) := by
  simp only [Expr.code, codeOfArgs, draftOfArgs, Fresh.run_encode, Fresh.run_bind, Fresh.run_pure,
    Draft.encode_append]
  rfl

@[simp]
theorem run_codeOfExpr?_none : (codeOfExpr? known none).run n = ([], n) :=
  rfl

/-- An expression that is there has its code. -/
@[simp]
theorem run_codeOfExpr?_some (e : Expr) :
    (codeOfExpr? known (some e)).run n = (e.code known).run n :=
  rfl

/-! ## Statements -/

/-- The exits inside a loop. -/
def Exits.inside (next done : Nat) : Exits :=
  { exits with loop? := some (.inner next, .inner done) }

namespace Stmt

/-- A return without a value returns zero. -/
@[simp]
theorem run_code_ret_none :
    ((ret none).code known exits).run n = (loadConst a0 0 ++ [goto exits.ret], n) := by
  simp only [code, draft, Fresh.run_encode, Fresh.run_pure, Draft.encode_append]
  rfl

/-- A return with a value jumps to the end of the function. -/
@[simp]
theorem run_code_ret_some (e : Expr) :
    ((ret (some e)).code known exits).run n =
      let v := (e.code known).run n
      (v.1 ++ [goto exits.ret], v.2) := by
  simp only [code, draft, Fresh.run_encode, Fresh.run_bind, Fresh.run_pure, Draft.encode_append]
  rfl

/-- A statement that is an expression has the code of that; the value is left where it is. -/
@[simp]
theorem run_code_expr (e : Expr) :
    ((expr e).code known exits).run n = (e.code known).run n :=
  rfl

/-- A declaration without a value stores zero. -/
@[simp]
theorem run_code_decl_none (slot : Nat) :
    ((decl slot none).code known exits).run n = ([storeWord zero s0 (slotPlace slot)], n) :=
  rfl

/-- A declaration with a value stores that. -/
@[simp]
theorem run_code_decl_some (slot : Nat) (e : Expr) :
    ((decl slot (some e)).code known exits).run n =
      let v := (e.code known).run n
      (v.1 ++ [storeWord a0 s0 (slotPlace slot)], v.2) := by
  simp only [code, draft, Fresh.run_encode, Fresh.run_bind, Fresh.run_pure, Draft.encode_append]
  rfl

/-- Without an alternative there is one label, behind the statement that is skipped. -/
@[simp]
theorem run_code_ifElse_none (cond : Expr) (yes : Stmt) :
    ((ifElse cond yes none).code known exits).run n =
      let c := (cond.code known).run (n + 1)
      let y := (yes.code known exits).run c.2
      (c.1 ++ gotoIfZero (.inner n) ++ y.1 ++ [.mark (.inner n)], y.2) := by
  simp only [code, draft, Fresh.run_encode, Fresh.run_bind, Fresh.run_pure, Fresh.run_fresh,
    Draft.encode_append]
  rfl

/-- With an alternative there is a second label, behind that. -/
@[simp]
theorem run_code_ifElse_some (cond : Expr) (yes no : Stmt) :
    ((ifElse cond yes (some no)).code known exits).run n =
      let c := (cond.code known).run (n + 2)
      let y := (yes.code known exits).run c.2
      let o := (no.code known exits).run y.2
      (c.1 ++ gotoIfZero (.inner n) ++ y.1 ++ [goto (.inner (n + 1)), .mark (.inner n)] ++ o.1 ++
        [.mark (.inner (n + 1))], o.2) := by
  simp only [code, draft, Fresh.run_encode, Fresh.run_bind, Fresh.run_pure, Fresh.run_fresh,
    Draft.encode_append]
  rfl

/-- A loop with its test in front goes on at the test. -/
@[simp]
theorem run_code_whileLoop (cond : Expr) (body : Stmt) :
    ((whileLoop cond body).code known exits).run n =
      let c := (cond.code known).run (n + 2)
      let b := (body.code known (exits.inside n (n + 1))).run c.2
      ([.mark (.inner n)] ++ c.1 ++ gotoIfZero (.inner (n + 1)) ++ b.1 ++
        [goto (.inner n), .mark (.inner (n + 1))], b.2) := by
  simp only [code, draft, Fresh.run_encode, Fresh.run_bind, Fresh.run_pure, Fresh.run_fresh,
    Draft.encode_append]
  rfl

/-- A loop with its test behind has a label of its own for where it goes on. -/
@[simp]
theorem run_code_doWhile (body : Stmt) (cond : Expr) :
    ((doWhile body cond).code known exits).run n =
      let b := (body.code known (exits.inside (n + 1) (n + 2))).run (n + 3)
      let c := (cond.code known).run b.2
      ([.mark (.inner n)] ++ b.1 ++ [.mark (.inner (n + 1))] ++ c.1 ++ gotoIfNonzero (.inner n) ++
        [.mark (.inner (n + 2))], c.2) := by
  simp only [code, draft, Fresh.run_encode, Fresh.run_bind, Fresh.run_pure, Fresh.run_fresh,
    Draft.encode_append]
  rfl

/-- The loop with a step goes on at the step; the labels are taken before its parts have any. -/
@[simp]
theorem run_code_forLoop (init : Option Stmt) (cond step : Option Expr) (body : Stmt) :
    ((forLoop init cond step body).code known exits).run n =
      let i := (codeOfStmt? known exits init).run (n + 3)
      let c := (codeOfExpr? known cond).run i.2
      let b := (body.code known (exits.inside (n + 1) (n + 2))).run c.2
      let s := (codeOfExpr? known step).run b.2
      (i.1 ++ [.mark (.inner n)] ++ gotoUnless cond c.1 (.inner (n + 2)) ++ b.1 ++
        [.mark (.inner (n + 1))] ++ s.1 ++ [goto (.inner n), .mark (.inner (n + 2))], s.2) := by
  simp only [code, draft, Fresh.run_encode, Fresh.run_bind, Fresh.run_pure, Fresh.run_fresh,
    Draft.encode_append, Draft.encode_ite]
  rfl

/-- Leaving a loop is a jump behind it. -/
@[simp]
theorem run_code_breakLoop :
    (breakLoop.code known exits).run n = (exits.gotoLoop (·.2), n) :=
  rfl

/-- Going on is a jump to the next round. -/
@[simp]
theorem run_code_continueLoop :
    (continueLoop.code known exits).run n = (exits.gotoLoop (·.1), n) :=
  rfl

/-- A block has the code of its statements. -/
@[simp]
theorem run_code_block (stmts : List Stmt) :
    ((block stmts).code known exits).run n = (codeOfStmts known exits stmts).run n :=
  rfl

@[simp]
theorem run_code_empty : (empty.code known exits).run n = ([], n) :=
  rfl

end Stmt

@[simp]
theorem run_codeOfStmt?_none : (codeOfStmt? known exits none).run n = ([], n) :=
  rfl

/-- A statement that is there has its code. -/
@[simp]
theorem run_codeOfStmt?_some (s : Stmt) :
    (codeOfStmt? known exits (some s)).run n = (s.code known exits).run n :=
  rfl

@[simp]
theorem run_codeOfStmts_nil : (codeOfStmts known exits []).run n = ([], n) :=
  rfl

/-- Statements have their code one behind the other. -/
@[simp]
theorem run_codeOfStmts_cons (s : Stmt) (ss : List Stmt) :
    (codeOfStmts known exits (s :: ss)).run n =
      let first := (s.code known exits).run n
      let others := (codeOfStmts known exits ss).run first.2
      (first.1 ++ others.1, others.2) := by
  simp only [Stmt.code, codeOfStmts, draftOfStmts, Fresh.run_encode, Fresh.run_bind, Fresh.run_pure,
    Draft.encode_append]

/-! ## Functions -/

/-- The code of a function behind the mark of its entry. -/
def Function.codeFrom (f : Function) : Assembly :=
  prologue f.params f.locals ++ ((codeOfStmts known { ret := .inner n } f.body).run (n + 1)).1 ++
    loadConst a0 0 ++ [.mark (.inner n)] ++ epilogue

/-- The code of a function begins with the mark of its entry, and its first label is that of its
end. -/
theorem Function.run_code (f : Function) :
    (f.code known).run n =
      (.mark (.entry f.name) :: f.codeFrom known n,
        ((codeOfStmts known { ret := .inner n } f.body).run (n + 1)).2) := by
  simp only [codeFrom, ← List.cons_append, code, draft, Fresh.run_encode, Fresh.run_bind,
    Fresh.run_pure, Fresh.run_fresh, Draft.encode_append]
  rfl

@[simp]
theorem run_codeOfFunctions_nil : (codeOfFunctions known []).run n = ([], n) :=
  rfl

/-- Functions have their code one behind the other. -/
@[simp]
theorem run_codeOfFunctions_cons (f : Function) (fs : List Function) :
    (codeOfFunctions known (f :: fs)).run n =
      let first := (f.code known).run n
      let others := (codeOfFunctions known fs).run first.2
      (first.1 ++ others.1, others.2) :=
  rfl

end BareC
