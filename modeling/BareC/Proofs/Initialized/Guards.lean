import BareC.Proofs.Initialized.Accesses
import BareC.Proofs.Initialized.Visibility

/-!
# Computations that write before they read

`Guards slot Before m Behind` says of an observed computation that it never is the first to read the
slot: started where the slot was written before it was read, and where it has been written at all if
`Before` holds, it keeps to that order; and if it ends with a value for which `Behind` holds, the
slot has been written by then. There is one rule for every way in which computations are put
together. A condition that was known to be enough stays enough, since nothing that was written
becomes unwritten.

Nothing is known here of where slots are declared; the expressions of a statement are a list, and a
slot that none of them reads is guarded by the statement for no other reason. Which statements guard
which slots is the subject of `Sheltered`.
-/

namespace BareC

/-- The computation keeps to the order of writing first and reading then. -/
structure Guards {α : Type} (slot : Nat) (Before : Prop) (m : Observed α)
    (Behind : α → Prop) : Prop where
  keeps : ∀ x, Access.wrote slot ∈ x.record → .wrote slot ∈ (m.seen x).2.record
  orders : ∀ x, WrittenFirst slot x.record → (Before → .wrote slot ∈ x.record) →
    WrittenFirst slot (m.seen x).2.record
  wrote : ∀ x, (Before → .wrote slot ∈ x.record) → ∀ v ∈ (m.seen x).1, Behind v →
    .wrote slot ∈ (m.seen x).2.record

namespace Guards

variable {α β : Type} {slot : Nat} {Before Before' : Prop} {Behind Behind' : α → Prop}
    {m : Observed α}

/-- What is known in front is still known behind. -/
theorem weaken (h : Guards slot Before m Behind) (before : Before → Before')
    (behind : ∀ v, Behind' v → Before' ∨ Behind v) : Guards slot Before' m Behind' where
  keeps := h.keeps
  orders x ordered known := h.orders x ordered fun b => known (before b)
  wrote x known v found hv := by
    rcases behind v hv with b | hv
    · exact h.keeps x (known b)
    · exact h.wrote x (fun b => known (before b)) v found hv

/-- Where it is never asked what is known behind. -/
theorem of_never (h : Guards slot Before m fun _ => False) (never : ∀ v, ¬Behind v) :
    Guards slot Before m Behind :=
  h.weaken id fun v asked => absurd asked (never v)

/-- A result guards the slot if what is asked of it was known in front. -/
theorem pure {v : α} (h : Behind v → Before) : Guards slot Before (Pure.pure v) Behind where
  keeps _ wrote := wrote
  orders _ ordered _ := ordered
  wrote x known v' found hv := by
    cases found
    exact known (h hv)

/-- A failure guards every slot, as nothing stands behind it. -/
theorem failure : Guards slot Before (Alternative.failure : Observed α) Behind where
  keeps _ wrote := wrote
  orders _ ordered _ := ordered
  wrote _ _ _ found := nomatch found

/-- Two computations in a row: the second may rely on what the first has written. -/
theorem bind {Mid : β → Prop} {m : Observed β} {f : β → Observed α} (hm : Guards slot Before m Mid)
    (hf : ∀ v, Guards slot (Before ∨ Mid v) (f v) Behind) :
    Guards slot Before (m >>= f) Behind := by
  have known : ∀ x v x', (Before → .wrote slot ∈ x.record) → m.seen x = (some v, x') →
      Before ∨ Mid v → .wrote slot ∈ x'.record := by
    intro x v x' known seen
    have kept := hm.keeps x
    have wrote := hm.wrote x known v
    rw [seen] at kept wrote
    exact fun h => h.elim (fun b => kept (known b)) (wrote rfl)
  constructor
  case keeps =>
    intro x wrote
    have kept := hm.keeps x wrote
    rw [Observed.seen_bind]
    rcases seen : m.seen x with ⟨_ | v, x'⟩ <;> rw [seen] at kept
    · exact kept
    · exact (hf v).keeps x' kept
  case orders =>
    intro x ordered before
    have ordered' := hm.orders x ordered before
    rw [Observed.seen_bind]
    rcases seen : m.seen x with ⟨_ | v, x'⟩ <;> rw [seen] at ordered'
    · exact ordered'
    · exact (hf v).orders x' ordered' (known x v x' before seen)
  case wrote =>
    intro x before v' found hv
    rw [Observed.seen_bind] at found ⊢
    rcases seen : m.seen x with ⟨_ | v, x'⟩ <;> rw [seen] at found
    · cases found
    · exact (hf v).wrote x' (known x v x' before seen) v' found hv

/-- Where nothing more is known in between. -/
theorem andThen {m : Observed β} {f : β → Observed α} (hm : Guards slot Before m fun _ => False)
    (hf : ∀ v, Guards slot Before (f v) Behind) : Guards slot Before (m >>= f) Behind :=
  hm.bind fun v => (hf v).weaken .inl fun _ => .inr

/-- A choice guards the slot if its branches do. -/
theorem ite {b : Prop} [Decidable b] {m m' : Observed α} (h : b → Guards slot Before m Behind)
    (h' : ¬b → Guards slot Before m' Behind) : Guards slot Before (if b then m else m') Behind := by
  split
  next hb => exact h hb
  next hb => exact h' hb

/-- Reading a slot guards it where it is known to be written. -/
theorem read {s : Nat} (h : s = slot → Before) :
    Guards slot Before (Observed.read s) fun _ => False where
  keeps _ wrote := List.mem_append_left _ wrote
  orders _ ordered known := ordered.concat fun same => known (h (Access.read.inj same))
  wrote _ _ _ _ := False.elim

/-- Writing a slot guards it and makes it known. -/
theorem write (s : Nat) (v : Word) : Guards slot Before (Observed.write s v) fun _ => s = slot where
  keeps _ wrote := List.mem_append_left _ wrote
  orders _ ordered _ := ordered.concat nofun
  wrote _ _ _ _ same := by
    rw [← same]
    exact List.mem_append_right _ (List.mem_singleton_self _)

/-- A call touches no slot of its caller. -/
theorem call (replies : Replies) (name : String) (args : List Word) :
    Guards slot Before (Observed.call replies name args) fun _ => False where
  keeps _ wrote := List.mem_append_left _ wrote
  orders _ ordered _ := ordered.concat nofun
  wrote _ _ _ _ := False.elim

/-- Every round begins with what was known in front of the loop. -/
theorem loop {round : Observed (Option Flow)} {Behind : Flow → Prop}
    (h : Guards slot Before round fun flow? => ∃ flow, flow? = some flow ∧ Behind flow)
    (fuel : Nat) :
    Guards slot Before (Observed.loop round fuel) Behind := by
  induction fuel with
  | zero => exact .failure
  | succ fuel ih =>
    refine h.bind fun flow? => ?_
    cases flow? with
    | none => exact ih.weaken .inl fun _ => .inr
    | some flow => exact .pure fun hf => .inr ⟨flow, rfl, hf⟩

/-- Where nothing more is known behind the loop. -/
theorem rounds {round : Observed (Option Flow)} (h : Guards slot Before round fun _ => False)
    (fuel : Nat) : Guards slot Before (Observed.loop round fuel) fun _ => False :=
  .loop (h.weaken id fun _ ⟨_, _, never⟩ => never.elim) fuel

/-- What is done unless a statement has left guards the slot if it does where the statement has not.
-/
theorem unlessLeft {flow : Flow} {m : Observed (Option Flow)} {Behind : Option Flow → Prop}
    (stays : flow.leaves = none → Guards slot Before m Behind)
    (leaves : ∀ left, flow.leaves = some left → Behind (some left) → Before) :
    Guards slot Before (Observed.unlessLeft flow m) Behind := by
  rw [Observed.unlessLeft]
  cases left : flow.leaves with
  | none => exact stays left
  | some left' => exact .pure (leaves left' left)

end Guards

/-! ## Expressions and statements -/

section Written

variable {slot : Nat} {Before : Prop} {replies : Replies}

mutual

/-- An expression that reads the slot has to know that it was written. -/
theorem Expr.guards : (e : Expr) → (slot ∈ e.reads → Before) →
    Guards slot Before (e.observe replies) fun _ => False
  | .num v, _ => by
    rw [Expr.observe]
    exact .pure False.elim
  | .var s, h => by
    rw [Expr.observe]
    exact .read fun same => h (same ▸ List.mem_singleton_self _)
  | .assign s value, h => by
    rw [Expr.observe]
    exact .andThen (value.guards h) fun v => .bind (.write s v) fun _ => .pure False.elim
  | .unary op operand, h => by
    rw [Expr.observe]
    exact .andThen (operand.guards h) fun a => .pure False.elim
  | .binary op left right, h => by
    rw [Expr.observe]
    refine .andThen (left.guards fun mem => h (List.mem_append_left _ mem)) fun a => ?_
    exact .andThen (right.guards fun mem => h (List.mem_append_right _ mem))
      fun b => .pure False.elim
  | .logicalAnd left right, h | .logicalOr left right, h => by
    rw [Expr.observe]
    refine .andThen (left.guards fun mem => h (List.mem_append_left _ mem)) fun a => ?_
    refine .ite (fun _ => .pure False.elim) fun _ => ?_
    exact .andThen (right.guards fun mem => h (List.mem_append_right _ mem))
      fun b => .pure False.elim
  | .call name args, h => by
    rw [Expr.observe]
    exact .andThen (guards_args args h) fun vs => .call replies name vs

/-- Arguments guard a slot that is written wherever they read it. -/
theorem guards_args : (es : List Expr) → (slot ∈ readsOfArgs es → Before) →
    Guards slot Before (observeArgs replies es) fun _ => False
  | [], _ => by
    rw [observeArgs]
    exact .pure False.elim
  | e :: es, h => by
    rw [observeArgs]
    refine .andThen (e.guards fun mem => h (List.mem_append_left _ mem)) fun v => ?_
    exact .andThen (guards_args es fun mem => h (List.mem_append_right _ mem))
      fun vs => .pure False.elim

end

/-- As `guards_args`, for a condition that may be missing. -/
theorem guards_cond {cond : Option Expr} (h : ∀ e ∈ cond, slot ∈ e.reads → Before) :
    Guards slot Before (observeCond replies cond) fun _ => False := by
  cases cond with
  | none => exact .pure False.elim
  | some e => exact .andThen (e.guards (h e rfl)) fun c => .pure False.elim

/-- As `guards_args`, for the step of a loop. -/
theorem guards_step {step : Option Expr} (h : ∀ e ∈ step, slot ∈ e.reads → Before) :
    Guards slot Before (observeStep replies step) fun _ => False := by
  cases step with
  | none => exact .pure False.elim
  | some e => exact .andThen (e.guards (h e rfl)) fun _ => .pure False.elim

mutual

/-- The same for a statement. -/
theorem Stmt.guards (fuel : Nat) : (s : Stmt) → (∀ e ∈ s.exprs, slot ∈ e.reads → Before) →
    Guards slot Before (s.observe replies fuel) fun _ => False
  | .ret none, _ => by
    rw [Stmt.observe]
    exact .pure False.elim
  | .ret (some e), h => by
    rw [Stmt.observe]
    exact .andThen (e.guards (h e (List.mem_singleton_self e))) fun v => .pure False.elim
  | .expr e, h => by
    rw [Stmt.observe]
    exact .andThen (e.guards (h e (List.mem_singleton_self e))) fun v => .pure False.elim
  | .decl s none, _ => by
    rw [Stmt.observe]
    exact .bind (.write s 0) fun _ => .pure False.elim
  | .decl s (some e), h => by
    rw [Stmt.observe]
    refine .andThen (e.guards (h e (List.mem_singleton_self e))) fun v => ?_
    exact .bind (.write s v) fun _ => .pure False.elim
  | .ifElse cond yes no, h => by
    rw [Stmt.exprs, List.forall_mem_cons, List.forall_mem_append] at h
    rw [Stmt.observe]
    refine .andThen (cond.guards h.1) fun c => .ite (fun _ => yes.guards fuel h.2.1) fun _ => ?_
    exact guards_stmt? fuel no h.2.2
  | .whileLoop cond body, h => by
    rw [Stmt.exprs, List.forall_mem_cons] at h
    rw [Stmt.observe]
    refine .rounds (.andThen (cond.guards h.1) fun c =>
      .ite (fun _ => .pure False.elim) fun _ => ?_) fuel
    exact .andThen (body.guards fuel h.2) fun flow => .pure False.elim
  | .doWhile body cond, h => by
    rw [Stmt.exprs, List.forall_mem_append, List.forall_mem_singleton] at h
    rw [Stmt.observe]
    refine .rounds (.andThen (body.guards fuel h.1) fun flow => ?_) fuel
    refine .unlessLeft (fun _ => ?_) fun _ _ => False.elim
    exact .andThen (cond.guards h.2) fun c => .pure False.elim
  | .forLoop init cond step body, h => by
    simp only [Stmt.exprs, List.forall_mem_append, Option.mem_toList] at h
    obtain ⟨hinit, hcond, hstep, hbody⟩ := h
    rw [Stmt.observe]
    refine .andThen (guards_stmt? fuel init hinit) fun flow =>
      .ite (fun _ => .pure False.elim) fun _ => ?_
    refine .rounds (.andThen (guards_cond hcond) fun c =>
      .ite (fun _ => .pure False.elim) fun _ => ?_) fuel
    refine .andThen (body.guards fuel hbody) fun flow =>
      .unlessLeft (fun _ => ?_) fun _ _ => False.elim
    exact .andThen (guards_step hstep) fun _ => .pure False.elim
  | .breakLoop, _ | .continueLoop, _ | .empty, _ => by
    rw [Stmt.observe]
    exact .pure False.elim
  | .block stmts, h => by
    rw [Stmt.observe]
    exact guards_stmts fuel stmts h

/-- As `guards_args`, for a statement that may be missing. -/
theorem guards_stmt? (fuel : Nat) :
    (s? : Option Stmt) → (∀ e ∈ exprsOfStmt? s?, slot ∈ e.reads → Before) →
    Guards slot Before (observeStmt? replies fuel s?) fun _ => False
  | none, _ => by
    rw [observeStmt?]
    exact .pure False.elim
  | some s, h => by
    rw [observeStmt?]
    exact s.guards fuel h

/-- As `guards_args`, for a list of statements. -/
theorem guards_stmts (fuel : Nat) :
    (ss : List Stmt) → (∀ e ∈ exprsOfStmts ss, slot ∈ e.reads → Before) →
    Guards slot Before (observeStmts replies fuel ss) fun _ => False
  | [], _ => by
    rw [observeStmts]
    exact .pure False.elim
  | s :: ss, h => by
    rw [exprsOfStmts, List.forall_mem_append] at h
    rw [observeStmts]
    refine .andThen (s.guards fuel h.1) fun flow => ?_
    exact .ite (fun _ => guards_stmts fuel ss h.2) fun _ => .pure False.elim

end

end Written

end BareC
