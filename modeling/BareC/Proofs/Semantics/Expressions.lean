import BareC.Proofs.Grammar.Slots
import BareC.Proofs.Semantics.Calls
import BareC.Proofs.Semantics.Deepest

/-!
# Code of expressions

The code of an expression computes what the evaluator says: when it has run, the value is in `a0`,
the slots hold what the evaluator wrote to them, and the stack is as it was. What calls do is taken
from outside here: whoever runs the code of a function has to know that it does what the evaluator's
calls do.

`Computes` is the form of every lemma: an evaluation that ended, code that was placed, a machine in
a frame with room for what the evaluation needs, and a machine behind the code. The induction is on
the tree. Of expressions whose evaluation has no result nothing is shown; that their code at least
does no harm is shown in `Safety`.
-/

namespace BareC

open Assembly

namespace Machine

variable {η : Type}

/-! ## Runs -/

/-- The one machine becomes the other by some number of steps, none of which halts. -/
def Reaches (h : TrapHandler η) (m m' : Machine η) : Prop :=
  ∃ n, ∀ taken left, m.runFrom h taken (n + left) = m'.runFrom h (taken + n) left

namespace Reaches

variable {h : TrapHandler η} {m m' m'' : Machine η}

/-- A machine reaches itself. -/
theorem refl (m : Machine η) : Reaches h m m :=
  ⟨0, fun taken left => by rw [Nat.zero_add, Nat.add_zero]⟩

/-- What is reached from what is reached is reached. -/
theorem trans (p : Reaches h m m') (q : Reaches h m' m'') : Reaches h m m'' := by
  obtain ⟨n, hn⟩ := p
  obtain ⟨k, hk⟩ := q
  refine ⟨n + k, fun taken left => ?_⟩
  rw [Nat.add_assoc, hn, hk, Nat.add_assoc]

/-- One resumed step reaches. -/
theorem one (step : m.step h = (.ok .resume, m')) : Reaches h m m' := by
  refine ⟨1, fun taken left => ?_⟩
  rw [Nat.add_comm, runFrom, step]

end Reaches

/-- The end of a path is reached. -/
theorem Path.reaches {h : TrapHandler η} {words : List Word} {top : Nat} {m m' : Machine η}
    (p : Path h words top m m') : Reaches h m m' := by
  induction p with
  | refl m => exact .refl m
  | step _ does _ _ ih => exact (Reaches.one does.step).trans ih

section Arrives

variable {h : TrapHandler η} {words : List Word} {top : Nat} {F : Frame}
  {w w' waiting' waiting'' j k : Nat} {slots' slots'' : Nat → Option Word} {m m' m'' : Machine η}

/-- What arrives by a path arrives. -/
theorem Arrives.reaches
    (arrives : Arrives (Path h words top) words top F w m j waiting' slots' m') :
    Arrives (Reaches h) words top F w m j waiting' slots' m' :=
  { arrives with way := arrives.way.reaches }

/-- First the one, then the other, in which at least as much is kept. -/
theorem Arrives.next (first : Arrives (Reaches h) words top F w m j waiting' slots' m')
    (second : Arrives (Reaches h) words top F w' m' k waiting'' slots'' m'') (le : w ≤ w') :
    Arrives (Reaches h) words top F w m k waiting'' slots'' m'' :=
  first.trans .trans le second

end Arrives

end Machine

/-! ## Calls -/

/-- The code of functions does what calls do: coming to the entry of a function with the arguments
in their registers and enough stack, the machine comes back to the return address with the value in
`a0`, the two pointers as they were, and nothing changed above the stack pointer. -/
def RunsCalls {η : Type} (h : TrapHandler η) (whole : Assembly) (top : Nat) (known : List String)
    (call : Calls) : Prop :=
  ∀ name args v bytes, call name args = some (v, bytes) → name ∈ known ∧
    ∃ entry, whole.placeOf? (.entry name) = some entry ∧
      ∀ (m : Machine η) (stack r : Nat), m.At entry → m.Carries whole.link →
        m.regs[Reg.sp] = BitVec.ofNat 32 stack → m.regs[Reg.ra] = BitVec.ofNat 32 (4 * r) →
        (∀ k (hk : k < Grammar.maxParameters) w, args[k]? = some w →
          m.regs[Machine.argumentReg k hk] = w) →
        4 * whole.link.length + bytes ≤ stack → stack ≤ top → top ≤ m.memory.size →
        m.memory.size < 2 ^ 31 →
        ∃ m', Machine.Reaches h m m' ∧ m'.At r ∧ m'.Carries whole.link ∧
          m'.regs[Reg.sp] = BitVec.ofNat 32 stack ∧ m'.regs[Reg.s0] = m.regs[Reg.s0] ∧
          m'.regs[Reg.a0] = v ∧ m.memory.SameOn (stack ≤ ·) m'.memory

/-- Linked code together with what its functions do. -/
structure Linked (η : Type) where
  handler : TrapHandler η
  whole : Assembly
  /-- The end of the stack. -/
  top : Nat
  known : List String
  call : Calls
  compact : whole.Compact
  calls : RunsCalls handler whole top known call

namespace Linked

variable {η : Type} (C : Linked η) (F : Frame)

/-- The machine is inside of an activation. -/
abbrev InFrame (waiting : Nat) (slots : Nat → Option Word) (m : Machine η) : Prop :=
  m.InFrame C.whole.link C.top F waiting slots

/-- The machine comes to an instruction inside of the same activation. -/
abbrev Arrives (waiting : Nat) (m : Machine η) (j waiting' : Nat) (slots : Nat → Option Word)
    (m' : Machine η) : Prop :=
  Machine.Arrives (Machine.Reaches C.handler) C.whole.link C.top F waiting m j waiting' slots m'

/-- There is room for all that the activation needs. -/
def Room (a : Activation) : Prop :=
  4 * C.whole.link.length + frameSize F.locals + a.deepest ≤ F.base

/-- Wherever the code of the expression is placed, it computes the value of the expression. -/
def Computes (e : Expr) : Prop :=
  ∀ ⦃waiting i n : Nat⦄ ⦃a a' : Activation⦄ ⦃v : Word⦄ ⦃m : Machine η⦄,
    C.whole.Placed i ((e.code C.known).run n).1 → (e.eval C.call waiting).run a = some (v, a') →
    C.InFrame F waiting a.slots m → m.At i → C.Room F a' →
    ∃ m', C.Arrives F waiting m (i + size ((e.code C.known).run n).1) waiting a'.slots m' ∧
      m'.regs[Reg.a0] = v

/-- Wherever the code of the arguments is placed, it makes their values wait. -/
def Pushes (es : List Expr) : Prop :=
  ∀ ⦃waiting i n : Nat⦄ ⦃a a' : Activation⦄ ⦃vs : List Word⦄ ⦃m : Machine η⦄,
    C.whole.Placed i ((codeOfArgs C.known es).run n).1 →
    (evalArgs C.call waiting es).run a = some (vs, a') →
    C.InFrame F waiting a.slots m → m.At i → C.Room F a' →
    ∃ m', C.Arrives F waiting m (i + size ((codeOfArgs C.known es).run n).1)
        (waiting + es.length) a'.slots m' ∧
      vs.length = es.length ∧
      ∀ k v, vs[k]? = some v → m'.memory.wordAt (F.bottom (waiting + k + 1)) = v

variable {C F}

/-- There is room for less. -/
theorem Room.of_le {a a' : Activation} (h : C.Room F a') (le : a.deepest ≤ a'.deepest) :
    C.Room F a :=
  Nat.le_trans (Nat.add_le_add_left le _) h

/-- A call inside of a frame: the callee works below the values that wait. -/
theorem arrives_call {m : Machine η} {waiting i : Nat} {slots : Nat → Option Word}
    (hf : C.InFrame F waiting slots m) (at_ : m.At i) {name : String} {args : List Word} {v : Word}
    {bytes : Nat} (called : C.call name args = some (v, bytes))
    (passed : ∀ k (hk : k < Grammar.maxParameters) w, args[k]? = some w →
      m.regs[Machine.argumentReg k hk] = w)
    (placed : C.whole.Placed i [.jump ra (.entry name)])
    (room : 4 * C.whole.link.length + frameSize F.locals + (4 * waiting + bytes) ≤ F.base) :
    ∃ m', C.Arrives F waiting m (i + 1) waiting slots m' ∧ m'.regs[Reg.a0] = v := by
  obtain ⟨-, entry, place, run⟩ := C.calls name args v bytes called
  rw [placed_jump, place] at placed
  have jump := hf.carries.does_jal (h := C.handler) at_ placed.1 (C.compact _ _ place)
  let m₁ := m.linked Reg.ra (BitVec.ofNat 32 (4 * entry))
  have ra₁ : m₁.regs[Reg.ra] = BitVec.ofNat 32 (4 * (i + 1)) := by
    refine (Registers.getElem_write_self (by decide)).trans ?_
    rw [at_, Word.ofNat_four_mul_succ]
  have passed₁ : ∀ k (hk : k < Grammar.maxParameters) w, args[k]? = some w →
      m₁.regs[Machine.argumentReg k hk] = w := fun k hk w hw =>
    (Registers.getElem_write_of_ne (Ne.symm (Machine.ne_argumentReg (by decide) hk))).trans
      (passed k hk w hw)
  have sp₁ : m₁.regs[Reg.sp] = BitVec.ofNat 32 (F.bottom waiting) :=
    (Registers.getElem_write_of_ne (by decide)).trans hf.sp
  have enough : 4 * C.whole.link.length + bytes ≤ F.bottom waiting := by
    unfold Frame.bottom
    omega
  obtain ⟨m₂, reaches, at₂, carries₂, sp₂, s0₂, value, same⟩ :=
    run m₁ (F.bottom waiting) (i + 1) rfl
    hf.carries.linked sp₁ ra₁ passed₁ enough (Nat.le_trans (F.bottom_le_base _) hf.base_le)
    hf.top_le hf.size_lt
  have s0 : m₂.regs[Reg.s0] = m.regs[Reg.s0] :=
    s0₂.trans (Registers.getElem_write_of_ne (by decide))
  refine ⟨m₂, ⟨(Machine.Reaches.one jump.step).trans reaches, at₂,
    hf.of_sameOn carries₂ sp₂ s0 same, ?_⟩, value⟩
  exact same.mono fun a ha => Frame.bottom_le_of_kept ha

/-! ## One construct at a time -/

/-- The code of a number computes it. -/
theorem computes_num (v : Word) : C.Computes F (.num v) := by
  intro waiting i n a a' v' m placed eval hf at_ _
  obtain ⟨rfl, rfl⟩ := Eval.run_pure_eq_some.mp eval
  obtain ⟨m', arrives, value⟩ := Machine.path_loadConst (h := C.handler) hf at_ v placed
  exact ⟨m', arrives.reaches, value⟩

/-- The code of a variable reads its slot. -/
theorem computes_var {slot : Nat} (hs : slot < F.locals) : C.Computes F (.var slot) := by
  intro waiting i n a a' v m placed eval hf at_ _
  obtain ⟨read, rfl⟩ := Eval.run_read_eq_some.mp eval
  obtain ⟨m', arrives, value⟩ := Machine.path_loadSlot (h := C.handler) hf at_ hs placed
  exact ⟨m', arrives.reaches, value.trans (hf.holds slot v hs read)⟩

/-- The code of an assignment writes the slot and keeps the value. -/
theorem computes_assign {slot : Nat} {value : Expr} (hs : slot < F.locals)
    (hv : C.Computes F value) : C.Computes F (.assign slot value) := by
  intro waiting i n a a' v m placed eval hf at_ room
  obtain ⟨u, a₁, first, rest⟩ := Eval.run_bind_eq_some.mp eval
  obtain ⟨_, a₂, write, last⟩ := Eval.run_bind_eq_some.mp rest
  cases Eval.run_write_eq_some.mp write
  obtain ⟨rfl, rfl⟩ := Eval.run_pure_eq_some.mp last
  rw [Expr.run_code_assign] at placed ⊢
  rw [placed_append] at placed
  obtain ⟨m₁, arrives₁, value₁⟩ := hv placed.1 first hf at_ room
  obtain ⟨m₂, arrives₂, regs₂⟩ := Machine.path_storeSlot (h := C.handler) arrives₁.frame
    arrives₁.at_ hs placed.2
  rw [value₁] at arrives₂
  refine ⟨m₂, ?_, by rw [regs₂, value₁]⟩
  rw [size_append, ← Nat.add_assoc]
  exact arrives₁.next arrives₂.reaches (Nat.le_refl _)

/-- The code of a unary operator computes it. -/
theorem computes_unary {op : UnaryOp} {operand : Expr} (ho : C.Computes F operand) :
    C.Computes F (.unary op operand) := by
  intro waiting i n a a' v m placed eval hf at_ room
  obtain ⟨u, a₁, first, last⟩ := Eval.run_bind_eq_some.mp eval
  obtain ⟨rfl, rfl⟩ := Eval.run_pure_eq_some.mp last
  rw [Expr.run_code_unary] at placed ⊢
  rw [placed_append] at placed
  obtain ⟨m₁, arrives₁, value₁⟩ := ho placed.1 first hf at_ room
  obtain ⟨m₂, arrives₂, value₂⟩ := Machine.path_operateUnary (h := C.handler) arrives₁.frame
    arrives₁.at_ op placed.2
  refine ⟨m₂, ?_, by rw [value₂, value₁]⟩
  rw [size_append, ← Nat.add_assoc]
  exact arrives₁.next arrives₂.reaches (Nat.le_refl _)

/-- The code of a binary operator computes it, the left operand waiting on the stack. -/
theorem computes_binary {op : BinaryOp} {left right : Expr} (hl : C.Computes F left)
    (hr : C.Computes F right) : C.Computes F (.binary op left right) := by
  intro waiting i n a a' v m placed eval hf at_ room
  obtain ⟨x, a₁, evalLeft, rest⟩ := Eval.run_bind_eq_some.mp eval
  obtain ⟨_, a₂, need, rest⟩ := Eval.run_bind_eq_some.mp rest
  cases Eval.run_need_eq_some.mp need
  obtain ⟨y, a₃, evalRight, last⟩ := Eval.run_bind_eq_some.mp rest
  obtain ⟨rfl, rfl⟩ := Eval.run_pure_eq_some.mp last
  have deeper := right.deepens_eval C.call (waiting + 1) _ _ _ evalRight
  have room₁ : C.Room F a₁ := room.of_le (Nat.le_trans (Nat.le_max_left ..) deeper)
  have waits : 4 * (waiting + 1) ≤ a₃.deepest := Nat.le_trans (Nat.le_max_right ..) deeper
  rw [Expr.run_code_binary] at placed ⊢
  simp only [placed_append, size_append, ← Nat.add_assoc] at placed ⊢
  obtain ⟨m₁, arrives₁, value₁⟩ := hl placed.1.1.1.1 evalLeft hf at_ room₁
  obtain ⟨m₂, arrives₂, value₂⟩ := Machine.path_push (h := C.handler) arrives₁.frame arrives₁.at_
    placed.1.1.1.2 (Nat.le_trans (Nat.add_le_add_left waits _) room)
  obtain ⟨m₃, arrives₃, value₃⟩ := hr placed.1.1.2 evalRight arrives₂.frame arrives₂.at_ room
  obtain ⟨m₄, arrives₄, memory₄, value₄, others₄⟩ :=
    Machine.path_pop (h := C.handler) arrives₃.frame
    arrives₃.at_ (by decide) (by decide) (by decide) placed.1.2
  obtain ⟨m₅, arrives₅, value₅⟩ := Machine.path_operate (h := C.handler) arrives₄.frame
    arrives₄.at_ op placed.2
  -- The left value waited where nothing was changed while the right one was computed.
  have waited : m₃.memory.wordAt (F.bottom (waiting + 1)) = x :=
    (arrives₃.wordAt_waiting arrives₂.frame (Nat.lt_succ_self _)).trans (value₂.trans value₁)
  refine ⟨m₅, ?_, ?_⟩
  · have le := Nat.le_succ waiting
    exact (((arrives₁.next arrives₂.reaches (Nat.le_refl _)).next arrives₃ le).next
      arrives₄.reaches (Nat.le_refl _)).next arrives₅.reaches (Nat.le_refl _)
  · rw [value₅, value₄, waited, others₄ _ (by decide) (by decide), value₃]

/-- Both short circuits: a value of the left side that decides skips the right side, and the
constant behind the label is loaded; any other leaves it to the right side. -/
theorem computes_shortCircuit {left right : Expr} (hl : C.Computes F left) (hr : C.Computes F right)
    {test : Assembly} (skips : Word → Prop) [DecidablePred skips] {v c : Word} {n i waiting : Nat}
    {a a' : Activation} {m : Machine η} (length : test.size = 2)
    (htest : ∀ {m : Machine η} {i j : Nat} {slots : Nat → Option Word},
      C.InFrame F waiting slots m → m.At i → C.whole.Placed i test →
        C.whole.placeOf? (.inner n) = some j →
        ∃ m', C.Arrives F waiting m (if skips m.regs[Reg.a0] then j else i + 2) waiting slots m')
    (placed : C.whole.Placed i (((left.code C.known).run (n + 2)).1 ++ (test ++
      (((right.code C.known).run ((left.code C.known).run (n + 2)).2).1 ++
        ([alu .sltu a0 zero a0, goto (.inner (n + 1)), .mark (.inner n)] ++
          (loadConst a0 c ++ [.mark (.inner (n + 1))]))))))
    (eval : (do
      let x ← left.eval C.call waiting
      if skips x then return c
      let y ← right.eval C.call waiting
      return Word.truth (y ≠ 0) : Eval Word).run a = some (v, a'))
    (hf : C.InFrame F waiting a.slots m) (at_ : m.At i) (room : C.Room F a') :
    ∃ m', C.Arrives F waiting m (i + size (((left.code C.known).run (n + 2)).1 ++ (test ++
        (((right.code C.known).run ((left.code C.known).run (n + 2)).2).1 ++
          ([alu .sltu a0 zero a0, goto (.inner (n + 1)), .mark (.inner n)] ++
            (loadConst a0 c ++ [.mark (.inner (n + 1))])))))) waiting a'.slots m' ∧
      m'.regs[Reg.a0] = v := by
  have two : size [alu .sltu a0 zero a0, goto (.inner (n + 1)), .mark (.inner n)] = 2 := rfl
  have none : size [.mark (.inner (n + 1))] = 0 := rfl
  simp only [size_append, length, two, none, ← Nat.add_assoc, Nat.add_zero]
  obtain ⟨x, a₁, evalLeft, rest⟩ := Eval.run_bind_eq_some.mp eval
  have deeper : a₁.deepest ≤ a'.deepest :=
    (Eval.Deepens.ite .pure (.bind (right.deepens_eval C.call waiting) fun _ => .pure)) _ _ _ rest
  rw [placed_append, placed_append, placed_append, length] at placed
  obtain ⟨placedLeft, placedTest, placedRight, placedEnd⟩ := placed
  have ends := placedEnd
  rw [placed_append, placed_append, placed_mark] at ends
  obtain ⟨⟨-, -, skipped, -⟩, load, done, -⟩ := ends
  obtain ⟨m₁, arrives₁, value₁⟩ := hl placedLeft evalLeft hf at_ (room.of_le deeper)
  obtain ⟨m₂, arrives₂⟩ := htest arrives₁.frame arrives₁.at_ placedTest skipped
  have both := arrives₁.next arrives₂ (Nat.le_refl _)
  rw [value₁] at both
  split at rest
  next decided =>
    obtain ⟨rfl, rfl⟩ := Eval.run_pure_eq_some.mp rest
    rw [if_pos decided] at both
    obtain ⟨m₃, arrives₃, value₃⟩ := Machine.path_loadConst (h := C.handler) both.frame both.at_ _
      load
    exact ⟨m₃, both.next arrives₃.reaches (Nat.le_refl _), value₃⟩
  next undecided =>
    obtain ⟨y, a₂, evalRight, last⟩ := Eval.run_bind_eq_some.mp rest
    obtain ⟨rfl, rfl⟩ := Eval.run_pure_eq_some.mp last
    rw [if_neg undecided] at both
    obtain ⟨m₃, arrives₃, value₃⟩ := hr placedRight evalRight both.frame both.at_ room
    obtain ⟨m₄, arrives₄, value₄⟩ := Machine.path_truth (h := C.handler) arrives₃.frame
      arrives₃.at_ placedEnd (C.compact _ _ done)
    refine ⟨m₄, ?_, by rw [value₄, value₃]⟩
    exact (both.next arrives₃ (Nat.le_refl _)).next arrives₄.reaches (Nat.le_refl _)

/-- The code of a conjunction computes its right operand only where the left is not zero. -/
theorem computes_logicalAnd {left right : Expr} (hl : C.Computes F left)
    (hr : C.Computes F right) : C.Computes F (.logicalAnd left right) := by
  intro waiting i n a a' v m placed eval hf at_ room
  rw [Expr.run_code_logicalAnd] at placed ⊢
  simp only [List.append_assoc] at placed ⊢
  exact computes_shortCircuit hl hr (· = 0) rfl
    (fun hf at_ placed place =>
      have ⟨m', arrives, _⟩ := Machine.path_gotoIfZero (h := C.handler) hf at_ placed place
        (C.compact _ _ place)
      ⟨m', arrives.reaches⟩) placed eval hf at_ room

/-- As `computes_logicalAnd`, for a disjunction. -/
theorem computes_logicalOr {left right : Expr} (hl : C.Computes F left)
    (hr : C.Computes F right) : C.Computes F (.logicalOr left right) := by
  intro waiting i n a a' v m placed eval hf at_ room
  rw [Expr.run_code_logicalOr] at placed ⊢
  simp only [List.append_assoc] at placed ⊢
  exact computes_shortCircuit hl hr (· ≠ 0) rfl
    (fun hf at_ placed place =>
      have ⟨m', arrives, _⟩ := Machine.path_gotoIfNonzero (h := C.handler) hf at_ placed place
        (C.compact _ _ place)
      ⟨m', by simpa only [ite_not] using arrives.reaches⟩) placed eval hf at_ room

/-- No arguments leave the stack as it is. -/
theorem pushes_nil : C.Pushes F [] := by
  intro waiting i n a a' vs m placed eval hf at_ _
  obtain ⟨rfl, rfl⟩ := Eval.run_pure_eq_some.mp eval
  exact ⟨m, ⟨.refl m, at_, hf, .refl _ _⟩, rfl, by simp⟩

/-- An argument in front of the others is computed and pushed first. -/
theorem pushes_cons {e : Expr} {es : List Expr} (he : C.Computes F e) (hes : C.Pushes F es) :
    C.Pushes F (e :: es) := by
  intro waiting i n a a' vs m placed eval hf at_ room
  obtain ⟨x, a₁, first, rest⟩ := Eval.run_bind_eq_some.mp eval
  obtain ⟨_, a₂, need, rest⟩ := Eval.run_bind_eq_some.mp rest
  cases Eval.run_need_eq_some.mp need
  obtain ⟨xs, a₃, others, last⟩ := Eval.run_bind_eq_some.mp rest
  obtain ⟨rfl, rfl⟩ := Eval.run_pure_eq_some.mp last
  have deeper := deepens_evalArgs C.call es (waiting + 1) _ _ _ others
  have room₁ : C.Room F a₁ := room.of_le (Nat.le_trans (Nat.le_max_left ..) deeper)
  have waits : 4 * (waiting + 1) ≤ a₃.deepest := Nat.le_trans (Nat.le_max_right ..) deeper
  rw [run_codeOfArgs_cons] at placed ⊢
  simp only [placed_append, size_append, ← Nat.add_assoc] at placed ⊢
  obtain ⟨m₁, arrives₁, value₁⟩ := he placed.1.1 first hf at_ room₁
  obtain ⟨m₂, arrives₂, value₂⟩ := Machine.path_push (h := C.handler) arrives₁.frame arrives₁.at_
    placed.1.2 (Nat.le_trans (Nat.add_le_add_left waits _) room)
  obtain ⟨m₃, arrives₃, length, values⟩ := hes placed.2 others arrives₂.frame arrives₂.at_ room
  refine ⟨m₃, ?_, ?_, ?_⟩
  · have all := (arrives₁.next arrives₂.reaches (Nat.le_refl _)).next arrives₃ (Nat.le_succ _)
    have count : waiting + 1 + es.length = waiting + (e :: es).length := by
      rw [List.length_cons]
      omega
    rwa [count] at all
  · rw [List.length_cons, List.length_cons, length]
  · intro k v hv
    cases k with
    | zero =>
      cases hv
      exact (arrives₃.wordAt_waiting arrives₂.frame (Nat.lt_succ_self _)).trans
        (value₂.trans value₁)
    | succ k =>
      rw [show waiting + (k + 1) + 1 = waiting + 1 + k + 1 by omega]
      exact values k v hv

/-- The code of a call computes what the function returns. -/
theorem computes_call {name : String} {args : List Expr} (few : args.length ≤ Grammar.maxParameters)
    (ha : C.Pushes F args) : C.Computes F (.call name args) := by
  intro waiting i n a a' v m placed eval hf at_ room
  obtain ⟨vs, a₁, evalArgs, rest⟩ := Eval.run_bind_eq_some.mp eval
  obtain ⟨⟨w, bytes⟩, a₂, lifted, rest⟩ := Eval.run_bind_eq_some.mp rest
  obtain ⟨called, rfl⟩ := Eval.run_lift_eq_some.mp lifted
  obtain ⟨_, a₃, need, last⟩ := Eval.run_bind_eq_some.mp rest
  cases Eval.run_need_eq_some.mp need
  obtain ⟨rfl, rfl⟩ := Eval.run_pure_eq_some.mp last
  obtain ⟨known, -⟩ := C.calls name vs w bytes called
  have room₁ : C.Room F a₁ := room.of_le (Nat.le_max_left ..)
  have enough : 4 * waiting + bytes ≤ max a₁.deepest (4 * waiting + bytes) := Nat.le_max_right ..
  rw [Expr.run_code_call C.known n known] at placed ⊢
  simp only [placed_append, size_append, ← Nat.add_assoc] at placed ⊢
  obtain ⟨m₁, arrives₁, length, values⟩ := ha placed.1.1 evalArgs hf at_ room₁
  obtain ⟨m₂, arrives₂, filled⟩ := Machine.path_popArguments (h := C.handler) args.length few
    arrives₁.frame arrives₁.at_ placed.1.2
  have passed : ∀ k (hk : k < Grammar.maxParameters) w, vs[k]? = some w →
      m₂.regs[Machine.argumentReg k hk] = w := by
    intro k hk w hw
    have below : k < args.length := length ▸ (List.getElem?_eq_some_iff.mp hw).1
    rw [filled k below]
    exact values k w hw
  obtain ⟨m₃, arrives₃, value₃⟩ := arrives_call arrives₂.frame arrives₂.at_ called passed placed.2
    (Nat.le_trans (Nat.add_le_add_left enough _) room)
  exact ⟨m₃, (arrives₁.next arrives₂.reaches (Nat.le_refl _)).next arrives₃ (Nat.le_refl _), value₃⟩

mutual

/-- The code of every expression computes what the evaluator says. -/
theorem computes : (e : Expr) → e.Within F.locals → C.Computes F e
  | .num v, _ => computes_num v
  | .var _, hs => computes_var hs
  | .assign _ value, ⟨hs, hv⟩ => computes_assign hs (computes value hv)
  | .unary _ operand, ho => computes_unary (computes operand ho)
  | .binary _ left right, ⟨hl, hr⟩ => computes_binary (computes left hl) (computes right hr)
  | .logicalAnd left right, ⟨hl, hr⟩ => computes_logicalAnd (computes left hl) (computes right hr)
  | .logicalOr left right, ⟨hl, hr⟩ => computes_logicalOr (computes left hl) (computes right hr)
  | .call _ args, ⟨few, ha⟩ => computes_call few (pushes args ha)

/-- Arguments are pushed one by one. -/
theorem pushes : (es : List Expr) → ArgsWithin F.locals es → C.Pushes F es
  | [], _ => pushes_nil
  | e :: es, ⟨he, hes⟩ => pushes_cons (computes e he) (pushes es hes)

end

end Linked

end BareC
