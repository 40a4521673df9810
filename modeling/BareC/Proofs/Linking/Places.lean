import BareC.Proofs.Grammar.Scopes
import BareC.Syntax.Calls

/-!
# Places of calls

Where an expression can stand is said by relations with one rule for every place of a tree, apart
from the lists of calls that a round of linking goes through. Those lists hold the calls of all
places and no others.

The relations (`Expr.In`, `Stmt.Has`) are how statements about units are read, and the lists are
what the program computes with. Neither says whether control ever comes to a place, and a call in a
branch that is never taken counts like any other.
-/

namespace BareC

/-! ## Places -/

/-- The expression `x` is `e` or stands somewhere inside it. -/
inductive Expr.In (x : Expr) : (e : Expr) → Prop
  | self : In x x
  | assign {slot value} : In x value → In x (.assign slot value)
  | unary {op operand} : In x operand → In x (.unary op operand)
  | binaryLeft {op left right} : In x left → In x (.binary op left right)
  | binaryRight {op left right} : In x right → In x (.binary op left right)
  | andLeft {left right} : In x left → In x (.logicalAnd left right)
  | andRight {left right} : In x right → In x (.logicalAnd left right)
  | orLeft {left right} : In x left → In x (.logicalOr left right)
  | orRight {left right} : In x right → In x (.logicalOr left right)
  | argument {name args e} : e ∈ args → In x e → In x (.call name args)

/-- The expression `x` stands somewhere inside a statement. -/
inductive Stmt.Has (x : Expr) : (s : Stmt) → Prop
  | ret {e} : x.In e → Has x (.ret (some e))
  | expr {e} : x.In e → Has x (.expr e)
  | decl {slot e} : x.In e → Has x (.decl slot (some e))
  | ifCond {cond yes no} : x.In cond → Has x (.ifElse cond yes no)
  | ifYes {cond yes no} : Has x yes → Has x (.ifElse cond yes no)
  | ifNo {cond yes no} : Has x no → Has x (.ifElse cond yes (some no))
  | whileCond {cond body} : x.In cond → Has x (.whileLoop cond body)
  | whileBody {cond body} : Has x body → Has x (.whileLoop cond body)
  | doBody {cond body} : Has x body → Has x (.doWhile body cond)
  | doCond {cond body} : x.In cond → Has x (.doWhile body cond)
  | forInit {init cond step body} : Has x init → Has x (.forLoop (some init) cond step body)
  | forCond {init cond step body} : x.In cond → Has x (.forLoop init (some cond) step body)
  | forStep {init cond step body} : x.In step → Has x (.forLoop init cond (some step) body)
  | forBody {init cond step body} : Has x body → Has x (.forLoop init cond step body)
  | block {stmts s} : s ∈ stmts → Has x s → Has x (.block stmts)

/-- The expression stands somewhere in the body of the function. -/
def Function.Has (f : Function) (x : Expr) : Prop :=
  ∃ s ∈ f.body, s.Has x

/-- The function calls `name` with these arguments somewhere in its body. -/
def Function.Calls (f : Function) (name : String) (args : List Expr) : Prop :=
  f.Has (.call name args)

/-- The expressions of a statement are among those of its list. -/
theorem subset_exprsOfStmts {s : Stmt} {ss : List Stmt} (h : s ∈ ss) :
    s.exprs ⊆ exprsOfStmts ss := by
  induction h with
  | head => exact List.subset_append_left _ _
  | tail _ _ ih => exact List.Subset.trans ih (List.subset_append_right _ _)

/-- Whatever stands in a statement stands in one of its expressions. -/
theorem Stmt.Has.exists_mem_exprs {x : Expr} {s : Stmt} (h : s.Has x) : ∃ e ∈ s.exprs, x.In e := by
  induction h with
  | ret h | expr h | decl h | ifCond h | whileCond h => exact ⟨_, List.mem_cons_self, h⟩
  | ifYes _ ih =>
    obtain ⟨e, mem, h⟩ := ih
    exact ⟨e, List.mem_cons_of_mem _ (List.mem_append_left _ mem), h⟩
  | ifNo _ ih =>
    obtain ⟨e, mem, h⟩ := ih
    exact ⟨e, List.mem_cons_of_mem _ (List.mem_append_right _ mem), h⟩
  | whileBody _ ih =>
    obtain ⟨e, mem, h⟩ := ih
    exact ⟨e, List.mem_cons_of_mem _ mem, h⟩
  | doBody _ ih | forInit _ ih =>
    obtain ⟨e, mem, h⟩ := ih
    exact ⟨e, List.mem_append_left _ mem, h⟩
  | doCond h => exact ⟨_, List.mem_append_right _ List.mem_cons_self, h⟩
  | forCond h => exact ⟨_, List.mem_append_right _ (List.mem_append_left _ List.mem_cons_self), h⟩
  | forStep h =>
    refine ⟨_, List.mem_append_right _ (List.mem_append_right _ ?_), h⟩
    exact List.mem_append_left _ List.mem_cons_self
  | forBody _ ih =>
    obtain ⟨e, mem, h⟩ := ih
    exact ⟨e, List.mem_append_right _ (List.mem_append_right _ (List.mem_append_right _ mem)), h⟩
  | block mem _ ih =>
    obtain ⟨e, inside, h⟩ := ih
    exact ⟨e, subset_exprsOfStmts mem inside, h⟩

/-! ## The calls that a round checks are these -/

/-- A call of some arguments is a call of one of them. -/
theorem mem_callsOfArgs {call : String × Nat} {args : List Expr} :
    call ∈ callsOfArgs args ↔ ∃ e ∈ args, call ∈ e.calls := by
  induction args with
  | nil => simp [callsOfArgs]
  | cons e es ih => simp [callsOfArgs, ih]

/-- A call of some statements is a call of one of them. -/
theorem mem_callsOfStmts {call : String × Nat} {stmts : List Stmt} :
    call ∈ callsOfStmts stmts ↔ ∃ s ∈ stmts, call ∈ s.calls := by
  induction stmts with
  | nil => simp [callsOfStmts]
  | cons s ss ih => simp [callsOfStmts, ih]

/-- A call within an expression is among its calls. -/
theorem mem_calls_of_in {name : String} {args : List Expr} {e : Expr}
    (h : (Expr.call name args).In e) : (name, args.length) ∈ e.calls := by
  induction h with
  | self => exact List.mem_cons_self
  | assign _ ih | unary _ ih => exact ih
  | binaryLeft _ ih | andLeft _ ih | orLeft _ ih => exact List.mem_append_left _ ih
  | binaryRight _ ih | andRight _ ih | orRight _ ih => exact List.mem_append_right _ ih
  | argument mem _ ih => exact List.mem_cons_of_mem _ (mem_callsOfArgs.mpr ⟨_, mem, ih⟩)

mutual

/-- Every call of an expression stands somewhere in it. -/
theorem in_of_mem_calls {name : String} {n : Nat} :
    (e : Expr) → (name, n) ∈ e.calls → ∃ args, args.length = n ∧ (Expr.call name args).In e
  | .num _, h | .var _, h => absurd h List.not_mem_nil
  | .assign _ value, h =>
    let ⟨args, eq, inside⟩ := in_of_mem_calls value h
    ⟨args, eq, .assign inside⟩
  | .unary _ operand, h =>
    let ⟨args, eq, inside⟩ := in_of_mem_calls operand h
    ⟨args, eq, .unary inside⟩
  | .binary _ left right, h => by
    rcases List.mem_append.mp h with h | h
    · exact (in_of_mem_calls left h).imp fun _ ⟨eq, inside⟩ => ⟨eq, .binaryLeft inside⟩
    · exact (in_of_mem_calls right h).imp fun _ ⟨eq, inside⟩ => ⟨eq, .binaryRight inside⟩
  | .logicalAnd left right, h => by
    rcases List.mem_append.mp h with h | h
    · exact (in_of_mem_calls left h).imp fun _ ⟨eq, inside⟩ => ⟨eq, .andLeft inside⟩
    · exact (in_of_mem_calls right h).imp fun _ ⟨eq, inside⟩ => ⟨eq, .andRight inside⟩
  | .logicalOr left right, h => by
    rcases List.mem_append.mp h with h | h
    · exact (in_of_mem_calls left h).imp fun _ ⟨eq, inside⟩ => ⟨eq, .orLeft inside⟩
    · exact (in_of_mem_calls right h).imp fun _ ⟨eq, inside⟩ => ⟨eq, .orRight inside⟩
  | .call callee args, h => by
    rcases List.mem_cons.mp h with h | h
    · cases h
      exact ⟨args, rfl, .self⟩
    · obtain ⟨e, mem, others, eq, inside⟩ := in_of_mem_callsOfArgs args h
      exact ⟨others, eq, .argument mem inside⟩

/-- As `in_of_mem_calls`, for arguments. -/
theorem in_of_mem_callsOfArgs {name : String} {n : Nat} :
    (args : List Expr) → (name, n) ∈ callsOfArgs args →
      ∃ e ∈ args, ∃ others, others.length = n ∧ (Expr.call name others).In e
  | [], h => absurd h List.not_mem_nil
  | e :: es, h => by
    rcases List.mem_append.mp h with h | h
    · exact ⟨e, List.mem_cons_self, in_of_mem_calls e h⟩
    · obtain ⟨e', mem, found⟩ := in_of_mem_callsOfArgs es h
      exact ⟨e', List.mem_cons_of_mem _ mem, found⟩

end

/-- A call within a statement is among its calls. -/
theorem mem_calls_of_has {name : String} {args : List Expr} {s : Stmt}
    (h : s.Has (.call name args)) : (name, args.length) ∈ s.calls := by
  induction h with
  | ret h | expr h | decl h => exact mem_calls_of_in h
  | ifCond h => exact List.mem_append_left _ (List.mem_append_left _ (mem_calls_of_in h))
  | ifYes _ ih => exact List.mem_append_left _ (List.mem_append_right _ ih)
  | ifNo _ ih | whileBody _ ih | doBody _ ih | forBody _ ih => exact List.mem_append_right _ ih
  | whileCond h | doCond h => exact List.mem_append_left _ (mem_calls_of_in h)
  | forInit _ ih =>
    exact List.mem_append_left _ (List.mem_append_left _ (List.mem_append_left _ ih))
  | forCond h =>
    exact List.mem_append_left _
      (List.mem_append_left _ (List.mem_append_right _ (mem_calls_of_in h)))
  | forStep h => exact List.mem_append_left _ (List.mem_append_right _ (mem_calls_of_in h))
  | block mem _ ih => exact mem_callsOfStmts.mpr ⟨_, mem, ih⟩

/-- As `in_of_mem_calls`, for an expression that may be missing. -/
theorem in_of_mem_calls? {name : String} {n : Nat} {e? : Option Expr}
    (h : (name, n) ∈ callsOfExpr? e?) :
    ∃ e ∈ e?, ∃ args, args.length = n ∧ (Expr.call name args).In e := by
  cases e? with
  | none => exact absurd h List.not_mem_nil
  | some e => exact ⟨e, rfl, in_of_mem_calls e h⟩

mutual

/-- Every call of a statement stands somewhere in it. -/
theorem has_of_mem_calls {name : String} {n : Nat} :
    (s : Stmt) → (name, n) ∈ s.calls → ∃ args, args.length = n ∧ s.Has (.call name args)
  | .ret value, h => by
    obtain ⟨e, rfl, args, eq, inside⟩ := in_of_mem_calls? h
    exact ⟨args, eq, .ret inside⟩
  | .expr e, h => (in_of_mem_calls e h).imp fun _ ⟨eq, inside⟩ => ⟨eq, .expr inside⟩
  | .decl slot init, h => by
    obtain ⟨e, rfl, args, eq, inside⟩ := in_of_mem_calls? h
    exact ⟨args, eq, .decl inside⟩
  | .ifElse cond yes no, h => by
    rcases List.mem_append.mp h with h | h
    · rcases List.mem_append.mp h with h | h
      · exact (in_of_mem_calls cond h).imp fun _ ⟨eq, inside⟩ => ⟨eq, .ifCond inside⟩
      · exact (has_of_mem_calls yes h).imp fun _ ⟨eq, has⟩ => ⟨eq, .ifYes has⟩
    · cases no with
      | none => exact absurd h List.not_mem_nil
      | some no => exact (has_of_mem_calls no h).imp fun _ ⟨eq, has⟩ => ⟨eq, .ifNo has⟩
  | .whileLoop cond body, h => by
    rcases List.mem_append.mp h with h | h
    · exact (in_of_mem_calls cond h).imp fun _ ⟨eq, inside⟩ => ⟨eq, .whileCond inside⟩
    · exact (has_of_mem_calls body h).imp fun _ ⟨eq, has⟩ => ⟨eq, .whileBody has⟩
  | .doWhile body cond, h => by
    rcases List.mem_append.mp h with h | h
    · exact (in_of_mem_calls cond h).imp fun _ ⟨eq, inside⟩ => ⟨eq, .doCond inside⟩
    · exact (has_of_mem_calls body h).imp fun _ ⟨eq, has⟩ => ⟨eq, .doBody has⟩
  | .forLoop init cond step body, h => by
    rcases List.mem_append.mp h with h | h
    · rcases List.mem_append.mp h with h | h
      · rcases List.mem_append.mp h with h | h
        · cases init with
          | none => exact absurd h List.not_mem_nil
          | some init => exact (has_of_mem_calls init h).imp fun _ ⟨eq, has⟩ => ⟨eq, .forInit has⟩
        · obtain ⟨e, rfl, args, eq, inside⟩ := in_of_mem_calls? h
          exact ⟨args, eq, .forCond inside⟩
      · obtain ⟨e, rfl, args, eq, inside⟩ := in_of_mem_calls? h
        exact ⟨args, eq, .forStep inside⟩
    · exact (has_of_mem_calls body h).imp fun _ ⟨eq, has⟩ => ⟨eq, .forBody has⟩
  | .block stmts, h => by
    obtain ⟨s, mem, args, eq, has⟩ := has_of_mem_callsOfStmts stmts h
    exact ⟨args, eq, .block mem has⟩
  | .breakLoop, h | .continueLoop, h | .empty, h => absurd h List.not_mem_nil

/-- As `has_of_mem_calls`, for a list. -/
theorem has_of_mem_callsOfStmts {name : String} {n : Nat} :
    (stmts : List Stmt) → (name, n) ∈ callsOfStmts stmts →
      ∃ s ∈ stmts, ∃ args, args.length = n ∧ s.Has (.call name args)
  | [], h => absurd h List.not_mem_nil
  | s :: ss, h => by
    rcases List.mem_append.mp h with h | h
    · exact ⟨s, List.mem_cons_self, has_of_mem_calls s h⟩
    · obtain ⟨s', mem, found⟩ := has_of_mem_callsOfStmts ss h
      exact ⟨s', List.mem_cons_of_mem _ mem, found⟩

end

/-- A round checks the calls of a function wherever they stand, and no others. -/
theorem Function.mem_calls {f : Function} {name : String} {n : Nat} :
    (name, n) ∈ f.calls ↔ ∃ args, args.length = n ∧ f.Calls name args := by
  constructor
  · intro h
    obtain ⟨s, mem, args, eq, has⟩ := has_of_mem_callsOfStmts f.body h
    exact ⟨args, eq, s, mem, has⟩
  · rintro ⟨args, rfl, s, mem, has⟩
    exact mem_callsOfStmts.mpr ⟨s, mem, mem_calls_of_has has⟩

end BareC
