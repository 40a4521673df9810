import BareC.Proofs.Semantics.Evaluation

/-!
# What an activation does to its slots

To the reference evaluator reading a slot that nothing has been written to has no meaning. On a
machine the slot holds what an earlier call left there. So the execution of an activation is written
down here as it is seen on a machine: every slot holds some word from the start, and every access to
a slot and every call is put on record. What a call answers, if it answers, may depend on all that
was recorded before it.

The record stays when the execution is given up because the fuel of a loop has run out or a call did
not answer. An execution that never ends is thereby seen as far as any fuel goes.

Where no slot is read before it was written, this is what the reference evaluator does (`Mirrors`),
and what was left in the slots makes no difference.

The observed execution is an addition of this module. It is written beside the evaluator, construct
by construct, and is tied to it in one direction only: an execution that reads nothing unwritten is
the evaluator's. Of the others the record says what is read and when, and nothing is said of the
value.
-/

namespace BareC

/-! ## Records -/

/-- What is seen of an activation. -/
inductive Access where
  | read (slot : Nat)
  | wrote (slot : Nat)
  | called (name : String)
  deriving DecidableEq, Repr

/-- Every reading of the slot stands behind a writing of it. -/
def WrittenFirst (slot : Nat) (record : List Access) : Prop :=
  ∀ before behind, record = before ++ .read slot :: behind → .wrote slot ∈ before

namespace WrittenFirst

variable {slot : Nat} {record record' : List Access}

/-- The front of a record in order is in order. -/
theorem of_isPrefix (h : WrittenFirst slot record') (le : record <+: record') :
    WrittenFirst slot record := by
  obtain ⟨rest, rfl⟩ := le
  rintro before behind rfl
  exact h before (behind ++ rest) (by rw [List.append_assoc, List.cons_append])

/-- One access more keeps the order unless it is the first reading. -/
theorem concat {a : Access} (h : WrittenFirst slot record)
    (last : a = .read slot → .wrote slot ∈ record) : WrittenFirst slot (record ++ [a]) := by
  intro before behind eq
  rcases List.eq_nil_or_concat behind with rfl | ⟨behind, b, rfl⟩
  · obtain ⟨rfl, same⟩ := List.append_inj' eq rfl
    exact last (List.cons.inj same).1
  · rw [List.concat_eq_append, ← List.cons_append, ← List.append_assoc] at eq
    exact h before behind (List.append_inj' eq rfl).1

/-- Nothing is read before the first reading. -/
theorem of_not_mem (h : .read slot ∉ record) : WrittenFirst slot record := by
  rintro before behind rfl
  exact absurd (List.mem_append_right before List.mem_cons_self) h

end WrittenFirst

/-! ## Executions that are put on record -/

/-- The slots of an activation, with what they hold, and the record so far. -/
structure Observation where
  slots : Nat → Word
  record : List Access

/-- Computations inside of an activation. Giving up leaves the record. -/
abbrev Observed := OptionT (StateM Observation)

/-- What calls answer behind a record. -/
abbrev Replies := List Access → String → List Word → Option Word

namespace Observed

variable {α β : Type}

/-- The value, if there is one, and what was seen. -/
def seen (m : Observed α) (x : Observation) : Option α × Observation :=
  (OptionT.run m).run x

def read (slot : Nat) : Observed Word := do
  let x ← get
  set { x with record := x.record ++ [Access.read slot] }
  return x.slots slot

def write (slot : Nat) (v : Word) : Observed Unit :=
  modify fun x =>
    { slots := fun s => if s = slot then v else x.slots s, record := x.record ++ [.wrote slot] }

def call (replies : Replies) (name : String) (args : List Word) : Observed Word := do
  let x ← get
  set { x with record := x.record ++ [Access.called name] }
  OptionT.mk (pure (replies x.record name args))

/-- Round after round until one leaves the loop. -/
def loop (round : Observed (Option Flow)) : (fuel : Nat) → Observed Flow
  | 0 => failure
  | fuel + 1 => do
    match ← round with
    | none => loop round fuel
    | some flow => return flow

/-- What comes behind the body in a round, unless the body leaves the loop. -/
def unlessLeft (flow : Flow) (behind : Observed (Option Flow)) : Observed (Option Flow) :=
  match flow.leaves with
  | none => behind
  | some left => return some left

/-- Two computations in a row are seen one after the other. -/
theorem seen_bind (m : Observed α) (f : α → Observed β) (x : Observation) :
    (m >>= f).seen x = match m.seen x with
      | (some a, x') => (f a).seen x'
      | (none, x') => (none, x') := by
  have run : (m >>= f).seen x = (match (m.seen x).1 with
    | some a => (f a).run
    | none => (pure none : StateM Observation (Option β))).run (m.seen x).2 := rfl
  rw [run]
  obtain ⟨_ | a, x'⟩ := m.seen x <;> rfl

/-- A call is seen as its reply and one entry of the record. -/
theorem seen_call (replies : Replies) (name : String) (args : List Word) (x : Observation) :
    (call replies name args).seen x =
      (replies x.record name args, { x with record := x.record ++ [.called name] }) := rfl

end Observed

/-! ## Expressions and statements -/

section Definitions

variable (replies : Replies)

mutual

/-- The value of an expression. -/
def Expr.observe : Expr → Observed Word
  | .num v => return v
  | .var slot => Observed.read slot
  | .assign slot value => do
    let v ← value.observe
    Observed.write slot v
    return v
  | .unary op operand => do
    let a ← operand.observe
    return op.eval a
  | .binary op left right => do
    let a ← left.observe
    let b ← right.observe
    return op.eval a b
  | .logicalAnd left right => do
    let a ← left.observe
    if a = 0 then return 0
    let b ← right.observe
    return Word.truth (b ≠ 0)
  | .logicalOr left right => do
    let a ← left.observe
    if a ≠ 0 then return 1
    let b ← right.observe
    return Word.truth (b ≠ 0)
  | .call name args => do
    let vs ← observeArgs args
    Observed.call replies name vs

def observeArgs : List Expr → Observed (List Word)
  | [] => return []
  | e :: es => do
    let v ← e.observe
    let vs ← observeArgs es
    return v :: vs

end

def observeCond : Option Expr → Observed Bool
  | none => return true
  | some cond => do
    let c ← cond.observe replies
    return c ≠ 0

def observeStep : Option Expr → Observed Unit
  | none => return ()
  | some step => do
    let _ ← step.observe replies

mutual

/-- What a statement does, with so much fuel for every loop. -/
def Stmt.observe (fuel : Nat) : Stmt → Observed Flow
  | .ret none => return .returned 0
  | .ret (some e) => do
    let v ← e.observe replies
    return .returned v
  | .expr e => do
    let _ ← e.observe replies
    return .next
  | .decl slot none => do
    Observed.write slot 0
    return .next
  | .decl slot (some e) => do
    let v ← e.observe replies
    Observed.write slot v
    return .next
  | .ifElse cond yes no => do
    let c ← cond.observe replies
    if c ≠ 0 then yes.observe fuel else observeStmt? fuel no
  | .whileLoop cond body => Observed.loop (do
      let c ← cond.observe replies
      if c = 0 then return some .next
      let flow ← body.observe fuel
      return flow.leaves) fuel
  | .doWhile body cond => Observed.loop (do
      let flow ← body.observe fuel
      Observed.unlessLeft flow do
        let c ← cond.observe replies
        return if c = 0 then some .next else none) fuel
  | .forLoop init cond step body => do
    let flow ← observeStmt? fuel init
    if flow ≠ .next then return flow
    Observed.loop (do
      if !(← observeCond replies cond) then return some .next
      let flow ← body.observe fuel
      Observed.unlessLeft flow do
        observeStep replies step
        return none) fuel
  | .breakLoop => return .broke
  | .continueLoop => return .continued
  | .block stmts => observeStmts fuel stmts
  | .empty => return .next

def observeStmt? (fuel : Nat) : Option Stmt → Observed Flow
  | none => return .next
  | some s => s.observe fuel

def observeStmts (fuel : Nat) : List Stmt → Observed Flow
  | [] => return .next
  | s :: ss => do
    let flow ← s.observe fuel
    if flow = .next then observeStmts fuel ss else return flow

end

/-! ## Functions and units -/

/-- The slots of a called function when its body begins. The parameters have been saved, and the
slots behind them hold what was left there. -/
def Observation.opened (left : Nat → Word) (args : List Word) : Observation :=
  ⟨fun slot => args[slot]?.getD (left slot), (List.range args.length).map .wrote⟩

/-- What a function returns, if it does, and the record of its activation. -/
def Function.observe (fuel : Nat) (f : Function) (left : Nat → Word) (args : List Word) :
    Option Word × List Access :=
  if args.length = f.params then
    let seen := (observeStmts replies fuel f.body).seen (.opened left args)
    (seen.1 >>= Flow.result?, seen.2.record)
  else (none, [])

end Definitions

/-- A statement that may be missing is observed as the list of what is there. -/
theorem observeStmts_toList (replies : Replies) (fuel : Nat) (s? : Option Stmt) :
    observeStmts replies fuel s?.toList = observeStmt? replies fuel s? := by
  cases s? with
  | none => rfl
  | some s =>
    have same (flow : Flow) :
        (if flow = .next then pure .next else pure flow : Observed Flow) = pure flow := by
      split
      next h => rw [h]
      next => rfl
    simp only [Option.toList_some, observeStmts, observeStmt?, same, bind_pure]

/-- What a call of a function of the unit returns, if that can be found out with so much fuel. What
was left in the slots of an activation is any function of the records of its callers, innermost
first. -/
def Program.observe (p : Program) (left : List (List Access) → Nat → Word) :
    (fuel : Nat) → (callers : List (List Access)) → String → List Word → Option Word
  | 0, _, _, _ => none
  | fuel + 1, callers, name, args => do
    let f ← p.lastDefinition? name
    (f.observe (fun record => p.observe left fuel (record :: callers)) fuel (left callers) args).1

/-! ## The reference evaluator does the same -/

/-- The evaluator knows of the slots that were written what is seen of them. -/
def Activation.Knows (a : Activation) (x : Observation) : Prop :=
  ∀ slot, a.slots slot = if .wrote slot ∈ x.record then some (x.slots slot) else none

/-- A computation only adds to the record, and one of the evaluator does the same as it does, unless
a slot is read before it was written. -/
structure Mirrors {α : Type} (m : Eval α) (o : Observed α) : Prop where
  adds : ∀ x, x.record <+: (o.seen x).2.record
  same : ∀ (a : Activation) (x : Observation), a.Knows x →
    (∀ slot, WrittenFirst slot (o.seen x).2.record) →
      match o.seen x with
      | (some v, x') => ∃ a', m.run a = some (v, a') ∧ a'.Knows x'
      | (none, _) => m.run a = none

namespace Mirrors

variable {α β : Type}

/-- A result without an access mirrors itself. -/
theorem pure (v : α) : Mirrors (Pure.pure v) (Pure.pure v) where
  adds _ := List.prefix_refl _
  same a _ knows _ := ⟨a, rfl, knows⟩

/-- A failure mirrors itself. -/
theorem failure : Mirrors (Alternative.failure : Eval α) Alternative.failure where
  adds _ := List.prefix_refl _
  same _ _ _ _ := rfl

/-- Mirrored computations in a row mirror each other. -/
theorem bind {m : Eval β} {o : Observed β} {f : β → Eval α} {g : β → Observed α} (h : Mirrors m o)
    (hf : ∀ v, Mirrors (f v) (g v)) : Mirrors (m >>= f) (o >>= g) where
  adds x := by
    have first := h.adds x
    rw [Observed.seen_bind]
    cases seen : o.seen x with
    | mk v? x' =>
      rw [seen] at first
      cases v? with
      | none => exact first
      | some v => exact first.trans ((hf v).adds x')
  same a x knows writtenFirst := by
    have first := h.same a x knows
    rw [Observed.seen_bind] at writtenFirst ⊢
    rw [StateT.run_bind]
    cases seen : o.seen x with
    | mk v? x' =>
      rw [seen] at first writtenFirst
      cases v? with
      | none =>
        rw [first writtenFirst]
        rfl
      | some v =>
        obtain ⟨a', run, knows'⟩ := first fun slot =>
          (writtenFirst slot).of_isPrefix ((hf v).adds x')
        rw [run]
        exact (hf v).same a' x' knows' writtenFirst

/-- A choice between mirrored computations mirrors itself. -/
theorem ite {b : Prop} [Decidable b] {m m' : Eval α} {o o' : Observed α} (h : Mirrors m o)
    (h' : Mirrors m' o') : Mirrors (if b then m else m') (if b then o else o') := by
  split
  · exact h
  · exact h'

/-- The account of the stack is not observed. -/
theorem need_bind {bytes : Nat} {f : Unit → Eval α} {o : Observed α} (h : Mirrors (f ()) o) :
    Mirrors (Eval.need bytes >>= f) o where
  adds := h.adds
  same _ x knows writtenFirst := h.same _ x (fun slot => knows slot) writtenFirst

/-- Reading a slot mirrors itself: the slot holds a value where it was written first. -/
theorem read (slot : Nat) : Mirrors (Eval.read slot) (Observed.read slot) where
  adds _ := List.prefix_append _ _
  same a x knows writtenFirst := by
    have wrote : .wrote slot ∈ x.record := writtenFirst slot x.record [] rfl
    have value : a.slots slot = some (x.slots slot) := (knows slot).trans (if_pos wrote)
    refine ⟨a, ?_, fun s => ?_⟩
    · show (a.slots slot).bind (fun v => some (v, a)) = some (x.slots slot, a)
      rw [value]
      rfl
    · rw [knows s]
      simp

/-- Writing a slot mirrors itself. -/
theorem write (slot : Nat) (v : Word) : Mirrors (Eval.write slot v) (Observed.write slot v) where
  adds _ := List.prefix_append _ _
  same a x knows _ := by
    refine ⟨_, rfl, fun s => ?_⟩
    show (if s = slot then some v else a.slots s) = (if .wrote s ∈ x.record ++ [.wrote slot] then
      some (if s = slot then v else x.slots s) else none : Option Word)
    by_cases same : s = slot
    · subst same
      simp
    · simp [same, knows s]

/-- What calls do, and what they are seen to answer. -/
def Agree (call : Calls) (replies : Replies) : Prop :=
  ∀ record name args, replies record name args = (call name args).map Prod.fst

/-- A call mirrors its reply. -/
theorem call {call : Calls} {replies : Replies} (agree : Agree call replies) (waiting : Nat)
    (name : String) (args : List Word) : Mirrors (do
      let (v, bytes) ← call name args
      Eval.need (4 * waiting + bytes)
      return v) (Observed.call replies name args) where
  adds _ := List.prefix_append _ _
  same a x knows _ := by
    have knows' : a.Knows { x with record := x.record ++ [.called name] } := fun s => by
      rw [knows s]
      simp
    rw [Observed.seen_call, agree]
    have run : StateT.run (do
        let (v, bytes) ← call name args
        Eval.need (4 * waiting + bytes)
        return v : Eval Word) a =
        (call name args).map fun r =>
        (r.1, { a with deepest := max a.deepest (4 * waiting + r.2) }) := by
      cases call name args <;> rfl
    rw [run]
    cases call name args with
    | none => rfl
    | some reply => exact ⟨_, rfl, knows'⟩

/-- A loop mirrors the loop of its rounds, by induction on the bound. -/
theorem loop {round : Eval (Option Flow)} {round' : Observed (Option Flow)}
    (h : Mirrors round round') (fuel : Nat) :
    Mirrors (Eval.loop round fuel) (Observed.loop round' fuel) := by
  induction fuel with
  | zero => exact .failure
  | succ fuel ih =>
    refine .bind h fun flow? => ?_
    cases flow? with
    | none => exact ih
    | some flow => exact .pure flow

/-- What is done unless a statement has left mirrors itself. -/
theorem unlessLeft (flow : Flow) {m : Eval (Option Flow)} {o : Observed (Option Flow)}
    (h : Mirrors m o) : Mirrors (flow.stays m) (Observed.unlessLeft flow o) := by
  rw [Flow.stays, Observed.unlessLeft]
  cases flow.leaves with
  | none => exact h
  | some left => exact .pure _

end Mirrors

section Trees

variable {call : Calls} {replies : Replies}

mutual

/-- The evaluation of an expression mirrors its observation, one case for each kind. -/
theorem Expr.mirrors (agree : Mirrors.Agree call replies) : (e : Expr) → (waiting : Nat) →
    Mirrors (e.eval call waiting) (e.observe replies)
  | .num v, _ => by
    rw [Expr.eval, Expr.observe]
    exact .pure v
  | .var slot, _ => by
    rw [Expr.eval, Expr.observe]
    exact .read slot
  | .assign slot value, waiting => by
    rw [Expr.eval, Expr.observe]
    exact .bind (value.mirrors agree waiting) fun v => .bind (.write slot v) fun _ => .pure v
  | .unary op operand, waiting => by
    rw [Expr.eval, Expr.observe]
    exact .bind (operand.mirrors agree waiting) fun a => .pure _
  | .binary op left right, waiting => by
    rw [Expr.eval, Expr.observe]
    refine .bind (left.mirrors agree waiting) fun a => .need_bind ?_
    exact .bind (right.mirrors agree (waiting + 1)) fun b => .pure _
  | .logicalAnd left right, waiting => by
    rw [Expr.eval, Expr.observe]
    exact .bind (left.mirrors agree waiting) fun a =>
      .ite (.pure 0) (.bind (right.mirrors agree waiting) fun b => .pure _)
  | .logicalOr left right, waiting => by
    rw [Expr.eval, Expr.observe]
    exact .bind (left.mirrors agree waiting) fun a =>
      .ite (.pure 1) (.bind (right.mirrors agree waiting) fun b => .pure _)
  | .call name args, waiting => by
    rw [Expr.eval, Expr.observe]
    exact .bind (mirrors_args agree args waiting) fun vs => .call agree waiting name vs

/-- As `Expr.mirrors`, for arguments. -/
theorem mirrors_args (agree : Mirrors.Agree call replies) : (es : List Expr) → (waiting : Nat) →
    Mirrors (evalArgs call waiting es) (observeArgs replies es)
  | [], _ => by
    rw [evalArgs, observeArgs]
    exact .pure []
  | e :: es, waiting => by
    rw [evalArgs, observeArgs]
    refine .bind (e.mirrors agree waiting) fun v => .need_bind ?_
    exact .bind (mirrors_args agree es (waiting + 1)) fun vs => .pure _

end

/-- As `Expr.mirrors`, for a condition that may be missing. -/
theorem mirrors_cond (agree : Mirrors.Agree call replies) (cond : Option Expr) :
    Mirrors (evalCond call cond) (observeCond replies cond) := by
  cases cond with
  | none => exact .pure true
  | some cond => exact .bind (cond.mirrors agree 0) fun c => .pure _

/-- As `Expr.mirrors`, for the step of a loop. -/
theorem mirrors_step (agree : Mirrors.Agree call replies) (step : Option Expr) :
    Mirrors (evalStep call step) (observeStep replies step) := by
  cases step with
  | none => exact .pure ()
  | some step => exact .bind (step.mirrors agree 0) fun _ => .pure ()

mutual

/-- The execution of a statement mirrors its observation, one case for each kind. -/
theorem Stmt.mirrors (agree : Mirrors.Agree call replies) (fuel : Nat) : (s : Stmt) →
    Mirrors (s.exec call fuel) (s.observe replies fuel)
  | .ret none => by
    rw [Stmt.exec, Stmt.observe]
    exact .pure _
  | .ret (some e) => by
    rw [Stmt.exec, Stmt.observe]
    exact .bind (e.mirrors agree 0) fun v => .pure _
  | .expr e => by
    rw [Stmt.exec, Stmt.observe]
    exact .bind (e.mirrors agree 0) fun _ => .pure _
  | .decl slot none => by
    rw [Stmt.exec, Stmt.observe]
    exact .bind (.write slot 0) fun _ => .pure _
  | .decl slot (some e) => by
    rw [Stmt.exec, Stmt.observe]
    exact .bind (e.mirrors agree 0) fun v => .bind (.write slot v) fun _ => .pure _
  | .ifElse cond yes no => by
    rw [Stmt.exec, Stmt.observe]
    exact .bind (cond.mirrors agree 0) fun c =>
      .ite (yes.mirrors agree fuel) (mirrors_stmt? agree fuel no)
  | .whileLoop cond body => by
    rw [Stmt.exec, Stmt.observe]
    refine .loop (.bind (cond.mirrors agree 0) fun c => .ite (.pure _) ?_) fuel
    exact .bind (body.mirrors agree fuel) fun flow => .pure _
  | .doWhile body cond => by
    rw [Stmt.exec, Stmt.observe]
    refine .loop (.bind (body.mirrors agree fuel) fun flow => .unlessLeft flow ?_) fuel
    exact .bind (cond.mirrors agree 0) fun c => .pure _
  | .forLoop init cond step body => by
    rw [Stmt.exec, Stmt.observe]
    refine .bind (mirrors_stmt? agree fuel init) fun flow => .ite (.pure _) (.loop ?_ fuel)
    refine .bind (mirrors_cond agree cond) fun c => .ite (.pure _) ?_
    refine .bind (body.mirrors agree fuel) fun flow => .unlessLeft flow ?_
    exact .bind (mirrors_step agree step) fun _ => .pure none
  | .breakLoop => by
    rw [Stmt.exec, Stmt.observe]
    exact .pure _
  | .continueLoop => by
    rw [Stmt.exec, Stmt.observe]
    exact .pure _
  | .block stmts => by
    rw [Stmt.exec, Stmt.observe]
    exact mirrors_stmts agree fuel stmts
  | .empty => by
    rw [Stmt.exec, Stmt.observe]
    exact .pure _

/-- As `Stmt.mirrors`, for a statement that may be missing. -/
theorem mirrors_stmt? (agree : Mirrors.Agree call replies) (fuel : Nat) : (s? : Option Stmt) →
    Mirrors (execStmt? call fuel s?) (observeStmt? replies fuel s?)
  | none => by
    rw [execStmt?, observeStmt?]
    exact .pure _
  | some s => by
    rw [execStmt?, observeStmt?]
    exact s.mirrors agree fuel

/-- As `Stmt.mirrors`, for a list. -/
theorem mirrors_stmts (agree : Mirrors.Agree call replies) (fuel : Nat) : (ss : List Stmt) →
    Mirrors (execStmts call fuel ss) (observeStmts replies fuel ss)
  | [] => by
    rw [execStmts, observeStmts]
    exact .pure _
  | s :: ss => by
    rw [execStmts, observeStmts]
    exact .bind (s.mirrors agree fuel) fun flow => .ite (mirrors_stmts agree fuel ss) (.pure flow)

end

/-- The evaluator finds what is seen, whatever was left in the slots. -/
theorem Function.observe_eq (agree : Mirrors.Agree call replies) (fuel : Nat) (f : Function)
    (left : Nat → Word) (args : List Word)
    (writtenFirst : ∀ slot, WrittenFirst slot (f.observe replies fuel left args).2) :
    (f.observe replies fuel left args).1 = (f.eval call fuel args).map Prod.fst := by
  rw [Function.observe] at writtenFirst ⊢
  split at writtenFirst
  next few =>
    rw [if_pos few, Function.eval, if_neg (not_not_intro few)]
    have opened : Activation.Knows { slots := (args[·]?), deepest := 0 } (.opened left args) := by
      intro slot
      simp only [Observation.opened, List.mem_map, List.mem_range, Access.wrote.injEq,
        exists_eq_right]
      split
      next inside => rw [List.getElem?_eq_getElem inside, Option.getD_some]
      next outside => exact List.getElem?_eq_none (Nat.le_of_not_lt outside)
    have same := (mirrors_stmts agree fuel f.body).same _ _ opened writtenFirst
    cases seen : (observeStmts replies fuel f.body).seen (.opened left args) with
    | mk flow? x =>
      rw [seen] at same
      cases flow? with
      | none =>
        rw [same]
        rfl
      | some flow =>
        obtain ⟨a, run, -⟩ := same
        rw [run]
        show flow.result? = (flow.result?.bind _).map Prod.fst
        cases flow.result? <;> rfl
  next other =>
    rw [if_neg other, Function.eval, if_pos other]
    rfl

end Trees

/-- Where no function reads a slot before it was written, what was left in the slots makes no
difference. -/
theorem Program.observe_eq {p : Program}
    (writtenFirst : ∀ f ∈ p.functions, ∀ replies fuel left args slot,
    WrittenFirst slot (f.observe replies fuel left args).2) (left : List (List Access) → Nat → Word)
    (fuel : Nat) (callers : List (List Access)) (name : String) (args : List Word) :
    p.observe left fuel callers name args = (p.eval fuel name args).map Prod.fst := by
  induction fuel generalizing callers name args with
  | zero => rfl
  | succ fuel ih =>
    have eval : p.eval (fuel + 1) name args =
        (p.lastDefinition? name).bind fun f => f.eval (p.eval fuel) fuel args := rfl
    rw [observe, eval]
    cases found : p.lastDefinition? name with
    | none => rfl
    | some f =>
      obtain ⟨-, fs, gs, eq, -⟩ := functions_eq_of_lastDefinition? found
      have isFunction : f ∈ p.functions := eq ▸ List.mem_append_right _ List.mem_cons_self
      exact Function.observe_eq (fun record => ih (record :: callers)) fuel f (left callers) args
        (writtenFirst f isFunction _ fuel (left callers) args)

end BareC
