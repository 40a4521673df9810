import BareC.Proofs.Semantics.Expressions

/-!
# Code of statements

A statement goes on behind its code, or at one of its exits: at the end of the function with the
result in `a0`, or at one of the two ends of the innermost loop. A loop goes round by the fuel of
the evaluator, and each round either comes back to the top or leaves the loop.

`Leads` has a clause for each way in which a statement can be left, and a sequence of statements is
followed by cases on it. That the two ends of a loop are where its jumps go is known from the
placement of the marks. Statements that the evaluator does not get to the end of are not covered.
-/

namespace BareC

open Assembly

namespace Linked

variable {η : Type} (C : Linked η) (F : Frame)

/-- Where a statement with these exits, whose code ends at `j`, goes on. -/
def target (exits : Exits) (j : Nat) : Flow → Option Nat
  | .next => some j
  | .returned _ => C.whole.placeOf? exits.ret
  | .broke => exits.loop?.bind fun ends => C.whole.placeOf? ends.2
  | .continued => exits.loop?.bind fun ends => C.whole.placeOf? ends.1

/-- The machine comes to where a statement goes on, and if that is the end of the function then with
the result in `a0`. -/
def Leads (exits : Exits) (j : Nat) (flow : Flow) (slots : Nat → Option Word) (m : Machine η) :
    Prop :=
  ∀ k, C.target exits j flow = some k →
    ∃ m', C.Arrives F 0 m k 0 slots m' ∧ ∀ v, flow = .returned v → m'.regs[Reg.a0] = v

/-- Wherever the code of the statement is placed, it does what the evaluator says. -/
def Executes (s : Stmt) : Prop :=
  ∀ ⦃exits : Exits⦄ ⦃i n fuel : Nat⦄ ⦃a a' : Activation⦄ ⦃flow : Flow⦄ ⦃m : Machine η⦄,
    C.whole.Placed i ((s.code C.known exits).run n).1 →
    (s.exec C.call fuel).run a = some (flow, a') →
    C.InFrame F 0 a.slots m → m.At i → C.Room F a' →
    C.Leads F exits (i + size ((s.code C.known exits).run n).1) flow a'.slots m

def Executes? (s : Option Stmt) : Prop :=
  ∀ ⦃exits : Exits⦄ ⦃i n fuel : Nat⦄ ⦃a a' : Activation⦄ ⦃flow : Flow⦄ ⦃m : Machine η⦄,
    C.whole.Placed i ((codeOfStmt? C.known exits s).run n).1 →
    (execStmt? C.call fuel s).run a = some (flow, a') →
    C.InFrame F 0 a.slots m → m.At i → C.Room F a' →
    C.Leads F exits (i + size ((codeOfStmt? C.known exits s).run n).1) flow a'.slots m

def ExecutesAll (ss : List Stmt) : Prop :=
  ∀ ⦃exits : Exits⦄ ⦃i n fuel : Nat⦄ ⦃a a' : Activation⦄ ⦃flow : Flow⦄ ⦃m : Machine η⦄,
    C.whole.Placed i ((codeOfStmts C.known exits ss).run n).1 →
    (execStmts C.call fuel ss).run a = some (flow, a') →
    C.InFrame F 0 a.slots m → m.At i → C.Room F a' →
    C.Leads F exits (i + size ((codeOfStmts C.known exits ss).run n).1) flow a'.slots m

variable {C F} {exits : Exits} {i j k : Nat} {flow : Flow} {slots slots' : Nat → Option Word}
  {m m' : Machine η}

namespace Leads

/-- What arrives behind a statement leads on to the next. -/
theorem of_arrives (arrives : C.Arrives F 0 m j 0 slots m') : C.Leads F exits j .next slots m := by
  rintro k ⟨⟩
  exact ⟨m', arrives, by simp⟩

/-- What comes in front. -/
theorem prepend (first : C.Arrives F 0 m i 0 slots' m') (leads : C.Leads F exits j flow slots m') :
    C.Leads F exits j flow slots m := by
  intro k hk
  obtain ⟨m'', second, value⟩ := leads k hk
  exact ⟨m'', first.next second (Nat.le_refl _), value⟩

/-- What comes behind, if the statement goes on there. -/
theorem extend (leads : C.Leads F exits j flow slots m)
    (behind : flow = .next → ∀ m', C.InFrame F 0 slots m' → m'.At j →
      ∃ m'', C.Arrives F 0 m' k 0 slots m'') : C.Leads F exits k flow slots m := by
  cases flow with
  | next =>
    obtain ⟨m', first, -⟩ := leads j rfl
    obtain ⟨m'', second⟩ := behind rfl m' first.frame first.at_
    exact .of_arrives (first.next second (Nat.le_refl _))
  | returned v => exact leads
  | broke => exact leads
  | continued => exact leads

end Leads

/-- The machine arrives where it is. -/
theorem arrives_refl (hf : C.InFrame F 0 slots m) (at_ : m.At i) : C.Arrives F 0 m i 0 slots m :=
  ⟨.refl m, at_, hf, .refl _ _⟩

/-! ## Statements without parts -/

/-- The empty statement has no code. -/
theorem executes_empty : C.Executes F .empty := by
  intro exits i n fuel a a' flow m placed exec hf at_ _
  obtain ⟨rfl, rfl⟩ := Eval.run_pure_eq_some.mp exec
  exact .of_arrives (arrives_refl hf at_)

/-- An expression's code executes it as a statement. -/
theorem executes_expr {e : Expr} (he : C.Computes F e) : C.Executes F (.expr e) := by
  intro exits i n fuel a a' flow m placed exec hf at_ room
  obtain ⟨v, a₁, eval, last⟩ := Eval.run_bind_eq_some.mp exec
  obtain ⟨rfl, rfl⟩ := Eval.run_pure_eq_some.mp last
  obtain ⟨m₁, arrives, -⟩ := he placed eval hf at_ room
  exact .of_arrives arrives

/-- A jump to the end of the function with the result in `a0`. -/
theorem leads_return {v : Word} (arrives : C.Arrives F 0 m i 0 slots m')
    (value : m'.regs[Reg.a0] = v) (placed : C.whole.Placed i [goto exits.ret]) :
    C.Leads F exits j (.returned v) slots m := by
  intro k hk
  have jump := Machine.path_gotoLabel (h := C.handler) arrives.frame arrives.at_ placed hk
    (C.compact _ _ hk)
  refine ⟨_, arrives.next jump.reaches (Nat.le_refl _), ?_⟩
  rintro u ⟨⟩
  exact value

/-- A return's code puts zero into the register of the result and jumps to the end of the function.
-/
theorem executes_ret_none : C.Executes F (.ret none) := by
  intro exits i n fuel a a' flow m placed exec hf at_ _
  obtain ⟨rfl, rfl⟩ := Eval.run_pure_eq_some.mp exec
  rw [Stmt.run_code_ret_none, placed_append] at placed
  obtain ⟨m₁, arrives, value⟩ := Machine.path_loadConst (h := C.handler) hf at_ 0 placed.1
  exact leads_return arrives.reaches value placed.2

/-- As `executes_ret_none`, with the value computed there. -/
theorem executes_ret_some {e : Expr} (he : C.Computes F e) : C.Executes F (.ret (some e)) := by
  intro exits i n fuel a a' flow m placed exec hf at_ room
  obtain ⟨v, a₁, eval, last⟩ := Eval.run_bind_eq_some.mp exec
  obtain ⟨rfl, rfl⟩ := Eval.run_pure_eq_some.mp last
  rw [Stmt.run_code_ret_some, placed_append] at placed
  obtain ⟨m₁, arrives, value⟩ := he placed.1 eval hf at_ room
  exact leads_return arrives value placed.2

/-- A declaration's code writes zero to its slot. -/
theorem executes_decl_none {slot : Nat} (hs : slot < F.locals) :
    C.Executes F (.decl slot none) := by
  intro exits i n fuel a a' flow m placed exec hf at_ _
  obtain ⟨_, a₁, write, last⟩ := Eval.run_bind_eq_some.mp exec
  cases Eval.run_write_eq_some.mp write
  obtain ⟨rfl, rfl⟩ := Eval.run_pure_eq_some.mp last
  obtain ⟨m₁, arrives, -⟩ := Machine.path_storeSlot (h := C.handler) hf at_ hs placed
  rw [hf.carries.zero] at arrives
  exact .of_arrives arrives.reaches

/-- As `executes_decl_none`, with the initial value. -/
theorem executes_decl_some {slot : Nat} {e : Expr} (hs : slot < F.locals) (he : C.Computes F e) :
    C.Executes F (.decl slot (some e)) := by
  intro exits i n fuel a a' flow m placed exec hf at_ room
  obtain ⟨v, a₁, eval, rest⟩ := Eval.run_bind_eq_some.mp exec
  obtain ⟨_, a₂, write, last⟩ := Eval.run_bind_eq_some.mp rest
  cases Eval.run_write_eq_some.mp write
  obtain ⟨rfl, rfl⟩ := Eval.run_pure_eq_some.mp last
  rw [Stmt.run_code_decl_some] at placed ⊢
  rw [placed_append] at placed
  obtain ⟨m₁, arrives₁, value₁⟩ := he placed.1 eval hf at_ room
  obtain ⟨m₂, arrives₂, -⟩ := Machine.path_storeSlot (h := C.handler) arrives₁.frame arrives₁.at_
    hs placed.2
  rw [value₁] at arrives₂
  rw [size_append, ← Nat.add_assoc]
  exact .of_arrives (arrives₁.next arrives₂.reaches (Nat.le_refl _))

/-- A jump to one of the two ends of the innermost loop. -/
theorem leads_gotoLoop {side : Label × Label → Label}
    (hk : C.target exits j flow = exits.loop?.bind fun ends => C.whole.placeOf? (side ends))
    (hf : C.InFrame F 0 slots m) (at_ : m.At i) (placed : C.whole.Placed i (exits.gotoLoop side))
    (value : ∀ v, flow ≠ .returned v) : C.Leads F exits j flow slots m := by
  intro k eq
  rw [hk, Option.bind_eq_some_iff] at eq
  obtain ⟨ends, inside, place⟩ := eq
  rw [Exits.gotoLoop, Exits.draft, inside] at placed
  have jump := Machine.path_gotoLabel (h := C.handler) hf at_ placed place (C.compact _ _ place)
  exact ⟨_, jump.reaches, fun v returned => absurd returned (value v)⟩

/-- Leaving a loop jumps to its end. -/
theorem executes_breakLoop : C.Executes F .breakLoop := by
  intro exits i n fuel a a' flow m placed exec hf at_ _
  obtain ⟨rfl, rfl⟩ := Eval.run_pure_eq_some.mp exec
  exact leads_gotoLoop rfl hf at_ placed (by simp)

/-- As `executes_breakLoop`, for its next round. -/
theorem executes_continueLoop : C.Executes F .continueLoop := by
  intro exits i n fuel a a' flow m placed exec hf at_ _
  obtain ⟨rfl, rfl⟩ := Eval.run_pure_eq_some.mp exec
  exact leads_gotoLoop rfl hf at_ placed (by simp)

/-! ## Statements behind each other and choices -/

/-- No statements have no code. -/
theorem executesAll_nil : C.ExecutesAll F [] := by
  intro exits i n fuel a a' flow m placed exec hf at_ _
  obtain ⟨rfl, rfl⟩ := Eval.run_pure_eq_some.mp exec
  exact .of_arrives (arrives_refl hf at_)

/-- A statement more is executed in front of the others. -/
theorem executesAll_cons {s : Stmt} {ss : List Stmt} (hs : C.Executes F s)
    (hss : C.ExecutesAll F ss) : C.ExecutesAll F (s :: ss) := by
  intro exits i n fuel a a' flow m placed exec hf at_ room
  obtain ⟨first, a₁, execFirst, rest⟩ := Eval.run_bind_eq_some.mp exec
  rw [run_codeOfStmts_cons] at placed ⊢
  simp only [placed_append, size_append, ← Nat.add_assoc] at placed ⊢
  split at rest
  next next =>
    subst next
    have room₁ := room.of_le (deepens_execStmts C.call fuel ss _ _ _ rest)
    obtain ⟨m₁, arrives₁, -⟩ := hs placed.1 execFirst hf at_ room₁ _ rfl
    exact .prepend arrives₁ (hss placed.2 rest arrives₁.frame arrives₁.at_ room)
  next elsewhere =>
    obtain ⟨rfl, rfl⟩ := Eval.run_pure_eq_some.mp rest
    exact (hs placed.1 execFirst hf at_ room).extend fun next => absurd next elsewhere

/-- A conditional's code jumps over its branch where the condition is zero. -/
theorem executes_ifElse_none {cond : Expr} {yes : Stmt} (hc : C.Computes F cond)
    (hy : C.Executes F yes) : C.Executes F (.ifElse cond yes none) := by
  intro exits i n fuel a a' flow m placed exec hf at_ room
  obtain ⟨c, a₁, eval, rest⟩ := Eval.run_bind_eq_some.mp exec
  rw [Stmt.run_code_ifElse_none] at placed ⊢
  simp only [placed_append, placed_mark, size_append, ← Nat.add_assoc] at placed ⊢
  obtain ⟨⟨⟨placedCond, placedTest⟩, placedYes⟩, done, -⟩ := placed
  have deeper : a₁.deepest ≤ a'.deepest := (Eval.Deepens.ite (yes.deepens_exec C.call fuel)
    (deepens_execStmt? C.call fuel none)) _ _ _ rest
  obtain ⟨m₁, arrives₁, value₁⟩ := hc placedCond eval hf at_ (room.of_le deeper)
  obtain ⟨m₂, arrives₂, -⟩ := Machine.path_gotoIfZero (h := C.handler) arrives₁.frame arrives₁.at_
    placedTest done (C.compact _ _ done)
  have both := arrives₁.next arrives₂.reaches (Nat.le_refl _)
  rw [value₁] at both
  split at rest
  next nonzero =>
    rw [if_neg nonzero] at both
    exact .prepend both (hy placedYes rest both.frame both.at_ room)
  next zero =>
    obtain ⟨rfl, rfl⟩ := Eval.run_pure_eq_some.mp rest
    rw [if_pos (Decidable.not_not.mp zero)] at both
    exact .of_arrives both

/-- As `executes_ifElse_none`, to the other branch. -/
theorem executes_ifElse_some {cond : Expr} {yes no : Stmt} (hc : C.Computes F cond)
    (hy : C.Executes F yes) (hn : C.Executes F no) : C.Executes F (.ifElse cond yes (some no)) := by
  intro exits i n fuel a a' flow m placed exec hf at_ room
  obtain ⟨c, a₁, eval, rest⟩ := Eval.run_bind_eq_some.mp exec
  rw [Stmt.run_code_ifElse_some] at placed ⊢
  simp only [placed_append, placed_mark, size_append, ← Nat.add_assoc] at placed ⊢
  obtain ⟨⟨⟨⟨⟨placedCond, placedTest⟩, placedYes⟩, skip, otherwise, -⟩, placedNo⟩, done, -⟩ :=
    placed
  have deeper : a₁.deepest ≤ a'.deepest := (Eval.Deepens.ite (yes.deepens_exec C.call fuel)
    (deepens_execStmt? C.call fuel (some no))) _ _ _ rest
  obtain ⟨m₁, arrives₁, value₁⟩ := hc placedCond eval hf at_ (room.of_le deeper)
  obtain ⟨m₂, arrives₂, -⟩ := Machine.path_gotoIfZero (h := C.handler) arrives₁.frame arrives₁.at_
    placedTest otherwise (C.compact _ _ otherwise)
  have both := arrives₁.next arrives₂.reaches (Nat.le_refl _)
  rw [value₁] at both
  split at rest
  next nonzero =>
    rw [if_neg nonzero] at both
    refine .prepend both
      ((hy placedYes rest both.frame both.at_ room).extend fun _ m' hf' at' => ?_)
    exact ⟨_, (Machine.path_gotoLabel (h := C.handler) hf' at' ⟨skip, trivial⟩ done
      (C.compact _ _ done)).reaches⟩
  next zero =>
    rw [if_pos (Decidable.not_not.mp zero)] at both
    exact .prepend both (hn placedNo rest both.frame both.at_ room)

/-! ## Loops -/

/-- What comes of a round of a loop: the machine is at its next one, or goes on where the loop
leads. -/
def Goes (C : Linked η) (F : Frame) (exits : Exits) (next done : Nat) (slots : Nat → Option Word)
    (m : Machine η) : Option Flow → Prop
  | none => ∃ m', C.Arrives F 0 m next 0 slots m'
  | some flow => C.Leads F exits done flow slots m

/-- What goes on may be reached first. -/
theorem Goes.prepend {left? : Option Flow} (first : C.Arrives F 0 m i 0 slots' m')
    (goes : C.Goes F exits j k slots m' left?) : C.Goes F exits j k slots m left? := by
  cases left? with
  | none =>
    obtain ⟨m'', second⟩ := goes
    exact ⟨m'', first.next second (Nat.le_refl _)⟩
  | some flow => exact Leads.prepend first goes

/-- A loop leads where one of its rounds does. -/
theorem leads_loop {round : Eval (Option Flow)} {fuel : Nat} {a a' : Activation}
    (deepens : Eval.Deepens round)
    (goes : ∀ {a a' : Activation} {left? : Option Flow} {m : Machine η},
      round.run a = some (left?, a') → C.InFrame F 0 a.slots m → m.At i → C.Room F a' →
        C.Goes F exits i j a'.slots m left?)
    (exec : (Eval.loop round fuel).run a = some (flow, a')) (hf : C.InFrame F 0 a.slots m)
    (at_ : m.At i) (room : C.Room F a') : C.Leads F exits j flow a'.slots m := by
  induction fuel generalizing a m with
  | zero => cases exec
  | succ fuel ih =>
    obtain ⟨left?, a₁, first, rest⟩ := Eval.run_bind_eq_some.mp exec
    cases left? with
    | none =>
      have room₁ := room.of_le (Eval.deepens_loop deepens fuel _ _ _ rest)
      obtain ⟨m₁, arrives⟩ := goes first hf at_ room₁
      exact .prepend arrives (ih rest arrives.frame arrives.at_)
    | some left =>
      obtain ⟨rfl, rfl⟩ := Eval.run_pure_eq_some.mp rest
      exact goes first hf at_ room

/-- The body of a loop goes on with the next round or leaves the loop. -/
theorem goes_body {next done nextPlace donePlace : Nat}
    (leads : C.Leads F (exits.inside next done) j flow slots m)
    (hn : C.whole.placeOf? (.inner next) = some nextPlace)
    (hd : C.whole.placeOf? (.inner done) = some donePlace)
    (behind : ∀ m', C.InFrame F 0 slots m' → m'.At j → ∃ m'',
      C.Arrives F 0 m' nextPlace 0 slots m'') :
    C.Goes F exits nextPlace donePlace slots m flow.leaves := by
  cases flow with
  | next =>
    obtain ⟨m', first, -⟩ := leads j rfl
    obtain ⟨m'', second⟩ := behind m' first.frame first.at_
    exact ⟨m'', first.next second (Nat.le_refl _)⟩
  | continued =>
    obtain ⟨m', arrives, -⟩ := leads nextPlace hn
    exact ⟨m', arrives⟩
  | broke =>
    obtain ⟨m', arrives, -⟩ := leads donePlace hd
    exact .of_arrives arrives
  | returned v => exact leads

/-- The same with something between the body and the next round. -/
theorem goes_stays {next done k : Nat} {a a' : Activation} {behind : Eval (Option Flow)}
    {left? : Option Flow} (leads : C.Leads F (exits.inside next done) j flow a.slots m)
    (hn : C.whole.placeOf? (.inner next) = some j) (hd : C.whole.placeOf? (.inner done) = some k)
    (run : (flow.stays behind).run a = some (left?, a'))
    (goes : ∀ m', C.InFrame F 0 a.slots m' → m'.At j → behind.run a = some (left?, a') →
      C.Goes F exits i k a'.slots m' left?) : C.Goes F exits i k a'.slots m left? := by
  have body := goes_body leads hn hd fun m' hf' at' => ⟨m', arrives_refl hf' at'⟩
  unfold Flow.stays at run
  cases leaves : flow.leaves with
  | none =>
    rw [leaves] at run body
    obtain ⟨m', arrives⟩ := body
    exact .prepend arrives (goes m' arrives.frame arrives.at_ run)
  | some left =>
    rw [leaves] at run body
    obtain ⟨rfl, rfl⟩ := Eval.run_pure_eq_some.mp run
    exact body

/-- A loop's code executes it, each round from the top of the loop. -/
theorem executes_whileLoop {cond : Expr} {body : Stmt} (hc : C.Computes F cond)
    (hb : C.Executes F body) : C.Executes F (.whileLoop cond body) := by
  intro exits i n fuel a a' flow m placed exec hf at_ room
  rw [Stmt.run_code_whileLoop] at placed ⊢
  simp only [placed_append, placed_mark, size_append, ← Nat.add_assoc] at placed ⊢
  obtain ⟨⟨⟨⟨⟨top, -⟩, placedCond⟩, placedTest⟩, placedBody⟩, again, done, -⟩ := placed
  refine leads_loop (.bind (cond.deepens_eval C.call 0) fun _ => .ite .pure
    (.bind (body.deepens_exec C.call fuel) fun _ => .pure)) ?_ exec hf at_ room
  intro a a' left? m round hf at_ room
  obtain ⟨c, a₁, eval, rest⟩ := Eval.run_bind_eq_some.mp round
  have deeper : a₁.deepest ≤ a'.deepest := (Eval.Deepens.ite .pure
    (.bind (body.deepens_exec C.call fuel) fun _ => .pure)) _ _ _ rest
  obtain ⟨m₁, arrives₁, value₁⟩ := hc placedCond eval hf at_ (room.of_le deeper)
  obtain ⟨m₂, arrives₂, -⟩ := Machine.path_gotoIfZero (h := C.handler) arrives₁.frame arrives₁.at_
    placedTest done (C.compact _ _ done)
  have both := arrives₁.next arrives₂.reaches (Nat.le_refl _)
  rw [value₁] at both
  split at rest
  next zero =>
    obtain ⟨rfl, rfl⟩ := Eval.run_pure_eq_some.mp rest
    rw [if_pos zero] at both
    exact Leads.of_arrives both
  next nonzero =>
    obtain ⟨flow, a₂, execBody, last⟩ := Eval.run_bind_eq_some.mp rest
    obtain ⟨rfl, rfl⟩ := Eval.run_pure_eq_some.mp last
    rw [if_neg nonzero] at both
    refine .prepend both (goes_body (hb placedBody execBody both.frame both.at_ room) top done ?_)
    intro m' hf' at'
    exact ⟨_, (Machine.path_gotoLabel (h := C.handler) hf' at' ⟨again, trivial⟩ top
      (C.compact _ _ top)).reaches⟩

/-- As `executes_whileLoop`, the condition being looked at last. -/
theorem executes_doWhile {body : Stmt} {cond : Expr} (hb : C.Executes F body)
    (hc : C.Computes F cond) : C.Executes F (.doWhile body cond) := by
  intro exits i n fuel a a' flow m placed exec hf at_ room
  rw [Stmt.run_code_doWhile] at placed ⊢
  simp only [placed_append, placed_mark, size_append, ← Nat.add_assoc] at placed ⊢
  obtain ⟨⟨⟨⟨⟨⟨top, -⟩, placedBody⟩, next, -⟩, placedCond⟩, placedTest⟩, done, -⟩ := placed
  have ends : Eval.Deepens (do
      let c ← cond.eval C.call 0
      return if c = 0 then some Flow.next else none) :=
    .bind (cond.deepens_eval C.call 0) fun _ => .pure
  refine leads_loop (.bind (body.deepens_exec C.call fuel) fun flow => .stays ends flow) ?_ exec hf
    at_ room
  intro a a' left? m round hf at_ room
  obtain ⟨flow, a₁, execBody, rest⟩ := Eval.run_bind_eq_some.mp round
  have room₁ := room.of_le (Eval.Deepens.stays ends flow _ _ _ rest)
  refine goes_stays (hb placedBody execBody hf at_ room₁) next done rest ?_
  intro m₁ hf₁ at₁ rest
  obtain ⟨c, a₂, eval, last⟩ := Eval.run_bind_eq_some.mp rest
  obtain ⟨rfl, rfl⟩ := Eval.run_pure_eq_some.mp last
  obtain ⟨m₂, arrives₂, value₂⟩ := hc placedCond eval hf₁ at₁ room
  obtain ⟨m₃, arrives₃, -⟩ := Machine.path_gotoIfNonzero (h := C.handler) arrives₂.frame
    arrives₂.at_ placedTest top (C.compact _ _ top)
  have both := arrives₂.next arrives₃.reaches (Nat.le_refl _)
  rw [value₂] at both
  by_cases zero : c = 0
  · rw [if_pos zero] at both ⊢
    exact Leads.of_arrives both
  · rw [if_neg zero] at both ⊢
    exact ⟨m₃, both⟩

/-- The test in front of the body of a `for`. -/
theorem arrives_evalCond {cond : Option Expr} (hc : ∀ e, cond = some e → C.Computes F e) {n : Nat}
    {done : Label} {donePlace : Nat} {a a' : Activation} {holds : Bool}
    (placed : C.whole.Placed i (gotoUnless cond ((codeOfExpr? C.known cond).run n).1 done))
    (hd : C.whole.placeOf? done = some donePlace)
    (eval : (evalCond C.call cond).run a = some (holds, a')) (hf : C.InFrame F 0 a.slots m)
    (at_ : m.At i) (room : C.Room F a') :
    ∃ m', C.Arrives F 0 m (if holds then
      i + (gotoUnless cond ((codeOfExpr? C.known cond).run n).1 done).size else donePlace) 0
        a'.slots m' := by
  cases cond with
  | none =>
    obtain ⟨rfl, rfl⟩ := Eval.run_pure_eq_some.mp eval
    exact ⟨m, arrives_refl hf at_⟩
  | some e =>
    obtain ⟨c, a₁, evalCond, last⟩ := Eval.run_bind_eq_some.mp eval
    obtain ⟨rfl, rfl⟩ := Eval.run_pure_eq_some.mp last
    rw [gotoUnless, Option.isSome_some, if_pos rfl] at placed ⊢
    simp only [placed_append, size_append, ← Nat.add_assoc] at placed ⊢
    obtain ⟨m₁, arrives₁, value₁⟩ := hc e rfl placed.1 evalCond hf at_ room
    obtain ⟨m₂, arrives₂, -⟩ := Machine.path_gotoIfZero (h := C.handler) arrives₁.frame
      arrives₁.at_ placed.2 hd (C.compact _ _ hd)
    have both := arrives₁.next arrives₂.reaches (Nat.le_refl _)
    rw [value₁] at both
    refine ⟨m₂, ?_⟩
    by_cases zero : c = 0
    · rw [if_pos zero] at both
      rwa [if_neg (by simpa using zero)]
    · rw [if_neg zero] at both
      rwa [if_pos (by simpa using zero)]

/-- The step of a loop, if it has one, is computed and forgotten. -/
theorem arrives_evalStep {step : Option Expr} (hs : ∀ e, step = some e → C.Computes F e) {n : Nat}
    {a a' : Activation} {u : Unit} (placed : C.whole.Placed i ((codeOfExpr? C.known step).run n).1)
    (eval : (evalStep C.call step).run a = some (u, a')) (hf : C.InFrame F 0 a.slots m)
    (at_ : m.At i) (room : C.Room F a') :
    ∃ m', C.Arrives F 0 m (i + size ((codeOfExpr? C.known step).run n).1) 0 a'.slots m' := by
  cases step with
  | none =>
    obtain ⟨-, rfl⟩ := Eval.run_pure_eq_some.mp eval
    exact ⟨m, arrives_refl hf at_⟩
  | some e =>
    obtain ⟨v, a₁, evalStep, last⟩ := Eval.run_bind_eq_some.mp eval
    obtain ⟨-, rfl⟩ := Eval.run_pure_eq_some.mp last
    obtain ⟨m₁, arrives, -⟩ := hs e rfl placed evalStep hf at_ room
    exact ⟨m₁, arrives⟩

/-- As `executes_whileLoop`, with the parts of the header. -/
theorem executes_forLoop {init : Option Stmt} {cond step : Option Expr} {body : Stmt}
    (hi : C.Executes? F init) (hc : ∀ e, cond = some e → C.Computes F e)
    (hs : ∀ e, step = some e → C.Computes F e) (hb : C.Executes F body) :
    C.Executes F (.forLoop init cond step body) := by
  intro exits i n fuel a a' flow m placed exec hf at_ room
  obtain ⟨first, a₁, execInit, rest⟩ := Eval.run_bind_eq_some.mp exec
  rw [Stmt.run_code_forLoop] at placed ⊢
  simp only [placed_append, placed_mark, size_append, ← Nat.add_assoc] at placed ⊢
  obtain ⟨⟨⟨⟨⟨⟨placedInit, top, -⟩, placedCheck⟩, placedBody⟩, next, -⟩, placedStep⟩,
    again, done, -⟩ :=
    placed
  have ends : Eval.Deepens (do
      evalStep C.call step
      return (none : Option Flow)) :=
    .bind (deepens_evalStep C.call step) fun _ => .pure
  have behind (holds : Bool) : Eval.Deepens (do
      if !holds then return some .next
      let flow ← body.exec C.call fuel
      flow.stays do
        evalStep C.call step
        return none) :=
    .ite .pure (.bind (body.deepens_exec C.call fuel) fun flow => .stays ends flow)
  have round := Eval.Deepens.bind (deepens_evalCond C.call cond) behind
  split at rest
  next elsewhere =>
    obtain ⟨rfl, rfl⟩ := Eval.run_pure_eq_some.mp rest
    exact (hi placedInit execInit hf at_ room).extend fun next => absurd next elsewhere
  next passes =>
    cases Decidable.not_not.mp passes
    have room₁ := room.of_le (Eval.deepens_loop round fuel _ _ _ rest)
    obtain ⟨m₁, arrives₁, -⟩ := hi placedInit execInit hf at_ room₁ _ rfl
    refine .prepend arrives₁ (leads_loop round ?_ rest arrives₁.frame arrives₁.at_ room)
    intro a a' left? m round hf at_ room
    obtain ⟨holds, a₁, eval, rest⟩ := Eval.run_bind_eq_some.mp round
    obtain ⟨m₁, arrives₁⟩ := arrives_evalCond hc placedCheck done eval hf at_
      (room.of_le (behind holds _ _ _ rest))
    cases holds with
    | false =>
      obtain ⟨rfl, rfl⟩ := Eval.run_pure_eq_some.mp rest
      exact Leads.of_arrives arrives₁
    | true =>
      obtain ⟨flow, a₂, execBody, last⟩ := Eval.run_bind_eq_some.mp rest
      have room₂ := room.of_le (Eval.Deepens.stays ends flow _ _ _ last)
      refine .prepend arrives₁ (goes_stays
        (hb placedBody execBody arrives₁.frame arrives₁.at_ room₂) next done last ?_)
      intro m₂ hf₂ at₂ rest
      obtain ⟨u, a₃, eval, last⟩ := Eval.run_bind_eq_some.mp rest
      obtain ⟨rfl, rfl⟩ := Eval.run_pure_eq_some.mp last
      obtain ⟨m₃, arrives₃⟩ := arrives_evalStep hs placedStep eval hf₂ at₂ room
      have jump := Machine.path_gotoLabel (h := C.handler) arrives₃.frame arrives₃.at_
        ⟨again, trivial⟩ top (C.compact _ _ top)
      exact ⟨_, arrives₃.next jump.reaches (Nat.le_refl _)⟩

/-! ## All statements -/

mutual

/-- The code of every statement does what the evaluator says. -/
theorem executes : (s : Stmt) → (∀ e ∈ s.exprs, e.Within F.locals) →
    (∀ d ∈ s.declared, d < F.locals) → C.Executes F s
  | .ret none, _, _ => executes_ret_none
  | .ret (some e), he, _ => executes_ret_some (computes e (he e List.mem_cons_self))
  | .expr e, he, _ => executes_expr (computes e (he e List.mem_cons_self))
  | .decl _ none, _, hd => executes_decl_none (hd _ List.mem_cons_self)
  | .decl _ (some e), he, hd =>
    executes_decl_some (hd _ List.mem_cons_self) (computes e (he e List.mem_cons_self))
  | .ifElse cond yes none, he, hd => by
    simp only [Stmt.exprs, Stmt.declared, List.mem_cons, List.mem_append] at he hd
    exact executes_ifElse_none (computes cond (he cond (.inl rfl)))
      (executes yes (fun e mem => he e (.inr (.inl mem))) fun d mem => hd d (.inl mem))
  | .ifElse cond yes (some no), he, hd => by
    simp only [Stmt.exprs, Stmt.declared, List.mem_cons, List.mem_append] at he hd
    exact executes_ifElse_some (computes cond (he cond (.inl rfl)))
      (executes yes (fun e mem => he e (.inr (.inl mem))) fun d mem => hd d (.inl mem))
      (executes no (fun e mem => he e (.inr (.inr mem))) fun d mem => hd d (.inr mem))
  | .whileLoop cond body, he, hd => by
    simp only [Stmt.exprs, Stmt.declared, List.mem_cons] at he hd
    exact executes_whileLoop (computes cond (he cond (.inl rfl)))
      (executes body (fun e mem => he e (.inr mem)) hd)
  | .doWhile body cond, he, hd => by
    simp only [Stmt.exprs, Stmt.declared, List.mem_append, List.mem_singleton] at he hd
    exact executes_doWhile (executes body (fun e mem => he e (.inl mem)) hd)
      (computes cond (he cond (.inr rfl)))
  | .forLoop init cond step body, he, hd => by
    simp only [Stmt.exprs, Stmt.declared, List.mem_append, Option.mem_toList] at he hd
    exact executes_forLoop
      (executes? init (fun e mem => he e (.inl mem)) fun d mem => hd d (.inl mem))
      (fun e eq => computes e (he e (.inr (.inl eq))))
      (fun e eq => computes e (he e (.inr (.inr (.inl eq)))))
      (executes body (fun e mem => he e (.inr (.inr (.inr mem)))) fun d mem => hd d (.inr mem))
  | .breakLoop, _, _ => executes_breakLoop
  | .continueLoop, _, _ => executes_continueLoop
  | .block stmts, he, hd => executesAll stmts he hd
  | .empty, _, _ => executes_empty

/-- A statement that may be missing is executed. -/
theorem executes? : (s : Option Stmt) → (∀ e ∈ exprsOfStmt? s, e.Within F.locals) →
    (∀ d ∈ declaredByStmt? s, d < F.locals) → C.Executes? F s
  | none, _, _ => executes_empty
  | some s, he, hd => executes s he hd

/-- Statements are executed one by one. -/
theorem executesAll : (ss : List Stmt) → (∀ e ∈ exprsOfStmts ss, e.Within F.locals) →
    (∀ d ∈ declaredByStmts ss, d < F.locals) → C.ExecutesAll F ss
  | [], _, _ => executesAll_nil
  | s :: ss, he, hd => by
    simp only [exprsOfStmts, declaredByStmts, List.mem_append] at he hd
    exact executesAll_cons
      (executes s (fun e mem => he e (.inl mem)) fun d mem => hd d (.inl mem))
      (executesAll ss (fun e mem => he e (.inr mem)) fun d mem => hd d (.inr mem))

end

end Linked

end BareC
