import BareC.Proofs.Semantics.Evaluation

/-!
# How computations are taken apart

A computation of the evaluator that ends is made of parts that end. And the account of the stack
only grows on the way, so that what is enough for the whole computation is enough for each part.

The first part takes a computation that ended apart into its steps, the second says that each
construct only deepens the account. Neither says anything of computations that do not end: those
have no result to be taken apart.
-/

namespace BareC

namespace Eval

variable {α β : Type} {x : Eval α} {f : α → Eval β} {a a' : Activation}

theorem run_bind_eq_some {r : β × Activation} :
    (x >>= f).run a = some r ↔ ∃ v a₁, x.run a = some (v, a₁) ∧ (f v).run a₁ = some r := by
  rw [StateT.run_bind, Option.bind_eq_bind, Option.bind_eq_some_iff]
  constructor
  · rintro ⟨⟨v, a₁⟩, hx, hf⟩
    exact ⟨v, a₁, hx, hf⟩
  · rintro ⟨v, a₁, hx, hf⟩
    exact ⟨(v, a₁), hx, hf⟩

theorem run_pure_eq_some {v v' : α} :
    (pure v : Eval α).run a = some (v', a') ↔ v = v' ∧ a = a' := by
  rw [StateT.run_pure, Option.pure_def, Option.some.injEq, Prod.mk.injEq]

theorem run_lift_eq_some {o : Option α} {v : α} :
    (liftM o : Eval α).run a = some (v, a') ↔ o = some v ∧ a = a' := by
  show (o.bind fun v => some (v, a)) = _ ↔ _
  rw [Option.bind_eq_some_iff]
  constructor
  · rintro ⟨u, hu, eq⟩
    cases eq
    exact ⟨hu, rfl⟩
  · rintro ⟨hv, rfl⟩
    exact ⟨v, hv, rfl⟩

theorem run_read_eq_some {slot : Nat} {v : Word} :
    (read slot).run a = some (v, a') ↔ a.slots slot = some v ∧ a = a' :=
  run_lift_eq_some

theorem run_write_eq_some {slot : Nat} {v : Word} {u : Unit} :
    (write slot v).run a = some (u, a') ↔
      { a with slots := fun s => if s = slot then some v else a.slots s } = a' := by
  show some ((), _) = _ ↔ _
  simp

theorem run_need_eq_some {bytes : Nat} {u : Unit} :
    (need bytes).run a = some (u, a') ↔ { a with deepest := max a.deepest bytes } = a' := by
  show some ((), _) = _ ↔ _
  simp

/-! ## The account of the stack -/

/-- The computation does not take back any need of stack. -/
def Deepens (x : Eval α) : Prop :=
  ∀ a v a', x.run a = some (v, a') → a.deepest ≤ a'.deepest

namespace Deepens

theorem pure {v : α} : Deepens (Pure.pure v) := by
  intro a v' a' run
  obtain ⟨-, rfl⟩ := run_pure_eq_some.mp run
  exact Nat.le_refl _

/-- Two computations that only deepen do so in a row. -/
theorem bind (hx : Deepens x) (hf : ∀ v, Deepens (f v)) : Deepens (x >>= f) := by
  intro a r a' run
  obtain ⟨v, a₁, first, second⟩ := run_bind_eq_some.mp run
  exact Nat.le_trans (hx a v a₁ first) (hf v a₁ r a' second)

/-- A choice between computations that only deepen only deepens. -/
theorem ite {c : Prop} [Decidable c] {y : Eval α} (hx : Deepens x) (hy : Deepens y) :
    Deepens (if c then x else y) := by
  split
  next => exact hx
  next => exact hy

theorem read {slot : Nat} : Deepens (Eval.read slot) := by
  intro a v a' run
  obtain ⟨-, rfl⟩ := run_read_eq_some.mp run
  exact Nat.le_refl _

theorem write {slot : Nat} {v : Word} : Deepens (Eval.write slot v) := by
  intro a u a' run
  cases run_write_eq_some.mp run
  exact Nat.le_refl _

theorem need {bytes : Nat} : Deepens (Eval.need bytes) := by
  intro a u a' run
  cases run_need_eq_some.mp run
  exact Nat.le_max_left ..

theorem stays {behind : Eval (Option Flow)} (h : Deepens behind) (flow : Flow) :
    Deepens (flow.stays behind) := by
  unfold Flow.stays
  split
  next => exact h
  next => exact .pure

theorem lift {x : Option α} : Deepens (liftM x : Eval α) := by
  intro a v a' run
  obtain ⟨-, rfl⟩ := run_lift_eq_some.mp run
  exact Nat.le_refl _

end Deepens

end Eval

open Eval

variable (call : Calls)

mutual

/-- Evaluating an expression only deepens, one case for each kind. -/
theorem Expr.deepens_eval : (e : Expr) → (waiting : Nat) → Deepens (e.eval call waiting)
  | .num _, _ => .pure
  | .var _, _ => .read
  | .assign _ value, waiting => .bind (value.deepens_eval waiting) fun _ =>
      .bind .write fun _ => .pure
  | .unary _ operand, waiting => .bind (operand.deepens_eval waiting) fun _ => .pure
  | .binary _ left right, waiting => .bind (left.deepens_eval waiting) fun _ => .bind .need fun _ =>
      .bind (right.deepens_eval (waiting + 1)) fun _ => .pure
  | .logicalAnd left right, waiting => .bind (left.deepens_eval waiting) fun _ =>
      .ite .pure (.bind (right.deepens_eval waiting) fun _ => .pure)
  | .logicalOr left right, waiting => .bind (left.deepens_eval waiting) fun _ =>
      .ite .pure (.bind (right.deepens_eval waiting) fun _ => .pure)
  | .call _ args, waiting => .bind (deepens_evalArgs args waiting) fun _ => .bind .lift fun _ =>
      .bind .need fun _ => .pure

/-- As `Expr.deepens_eval`, for arguments. -/
theorem deepens_evalArgs : (es : List Expr) → (waiting : Nat) →
    Deepens (evalArgs call waiting es)
  | [], _ => .pure
  | e :: es, waiting => .bind (e.deepens_eval waiting) fun _ => .bind .need fun _ =>
      .bind (deepens_evalArgs es (waiting + 1)) fun _ => .pure

end

/-! ## Statements -/

/-- A loop only deepens where its rounds do, by induction on the bound. -/
theorem Eval.deepens_loop {round : Eval (Option Flow)} (h : Deepens round) (fuel : Nat) :
    Deepens (loop round fuel) := by
  induction fuel with
  | zero =>
    intro a v a' run
    cases run
  | succ fuel ih =>
    refine .bind h fun left? => ?_
    cases left? with
    | none => exact ih
    | some flow => exact .pure

/-- As `Expr.deepens_eval`, for a condition that may be missing. -/
theorem deepens_evalCond (cond : Option Expr) : Deepens (evalCond call cond) := by
  cases cond with
  | none => exact .pure
  | some e => exact .bind (e.deepens_eval call 0) fun _ => .pure

/-- As `Expr.deepens_eval`, for the step of a loop. -/
theorem deepens_evalStep (step : Option Expr) : Deepens (evalStep call step) := by
  cases step with
  | none => exact .pure
  | some e => exact .bind (e.deepens_eval call 0) fun _ => .pure

mutual

/-- Executing a statement only deepens, one case for each kind. -/
theorem Stmt.deepens_exec (fuel : Nat) : (s : Stmt) → Deepens (s.exec call fuel)
  | .ret none => .pure
  | .ret (some e) => .bind (e.deepens_eval call 0) fun _ => .pure
  | .expr e => .bind (e.deepens_eval call 0) fun _ => .pure
  | .decl _ none => .bind .write fun _ => .pure
  | .decl _ (some e) => .bind (e.deepens_eval call 0) fun _ => .bind .write fun _ => .pure
  | .ifElse cond yes no => .bind (cond.deepens_eval call 0) fun _ =>
      .ite (yes.deepens_exec fuel) (deepens_execStmt? fuel no)
  | .whileLoop cond body => by
    refine deepens_loop (.bind (cond.deepens_eval call 0) fun _ => .ite .pure ?_) fuel
    exact .bind (body.deepens_exec fuel) fun _ => .pure
  | .doWhile body cond => by
    refine deepens_loop (.bind (body.deepens_exec fuel) fun flow => .stays ?_ flow) fuel
    exact .bind (cond.deepens_eval call 0) fun _ => .pure
  | .forLoop init cond step body => by
    refine .bind (deepens_execStmt? fuel init) fun flow => .ite .pure (deepens_loop ?_ fuel)
    refine .bind (deepens_evalCond call cond) fun _ => .ite .pure ?_
    refine .bind (body.deepens_exec fuel) fun flow => .stays ?_ flow
    exact .bind (deepens_evalStep call step) fun _ => .pure
  | .breakLoop => .pure
  | .continueLoop => .pure
  | .block stmts => deepens_execStmts fuel stmts
  | .empty => .pure

/-- As `Stmt.deepens_exec`, for a statement that may be missing. -/
theorem deepens_execStmt? (fuel : Nat) : (s : Option Stmt) → Deepens (execStmt? call fuel s)
  | none => .pure
  | some s => s.deepens_exec fuel

/-- As `Stmt.deepens_exec`, for a list. -/
theorem deepens_execStmts (fuel : Nat) : (ss : List Stmt) → Deepens (execStmts call fuel ss)
  | [] => .pure
  | s :: ss => .bind (s.deepens_exec fuel) fun _ => .ite (deepens_execStmts fuel ss) .pure

end

end BareC
