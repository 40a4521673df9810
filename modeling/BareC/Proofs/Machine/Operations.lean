import BareC.Proofs.Machine.Step

/-!
# The first register over a session

Instructions cannot change the first register, and a trap leaves zero in it whatever the handler
wrote. From outside it is a register like any other. So wherever a session with a machine has come
to, the first register holds zero or what was last put into it from outside (`ZeroOr.perform`), and
once something else has been put there, the instructions that name it read that.

A session is any list of operations that the machine offers, steps and runs with a handler of any
kind among them. `ZeroOr` is the invariant of one operation, and the history follows by induction.
Whether the first register ought to take a value from outside is not decided here: the instructions
treat it as one that cannot, and this is where the two differ.
-/

namespace BareC.Machine

variable {η : Type} {h : TrapHandler η} {m m' : Machine η}

/-! ## Sessions -/

/-- What can be done with a machine from outside. -/
inductive Operation where
  | load (code : Bytes)
  | setArgs (argc argv : Word)
  | setReg (r : Reg) (v : Word)
  /-- Looks at a register. -/
  | getReg (r : Reg)
  | setVerbose (verbose : Bool)
  | printRegisters
  /-- Looks at the next instruction. -/
  | fetch
  | step
  | run (maxSteps : Nat)
  deriving DecidableEq, Repr

/-- The machine behind an operation, whether that succeeded or failed. -/
def perform (h : TrapHandler η) (m : Machine η) : Operation → Machine η
  | .load code => (m.load code).2
  | .setArgs argc argv => m.setArgs argc argv
  | .setReg r v => m.setReg r v
  | .getReg _ | .fetch => m
  | .setVerbose verbose => { m with verbose }
  | .printRegisters => m.printRegisters
  | .step => (m.step h).2
  | .run maxSteps => (m.run h maxSteps).2

/-- The machine behind a session. -/
def performAll (h : TrapHandler η) (m : Machine η) (ops : List Operation) : Machine η :=
  ops.foldl (perform h) m

/-- So many steps, all of which go on, lead from the one machine to the other. -/
inductive Resumes (h : TrapHandler η) : Nat → Machine η → Machine η → Prop
  | refl (m : Machine η) : Resumes h 0 m m
  | step {k : Nat} {m m' m'' : Machine η} :
    m.step h = (.ok .resume, m') → Resumes h k m' m'' → Resumes h (k + 1) m m''

/-- A session of these operations brings the machine into a state: behind the last of them, or in
the midst of it if that is a run. -/
inductive Reached (h : TrapHandler η) (start : Machine η) : List Operation → Machine η → Prop
  | behind (ops : List Operation) : Reached h start ops (start.performAll h ops)
  | within {ops : List Operation} {maxSteps k : Nat} {m : Machine η} : k ≤ maxSteps →
    Resumes h k (start.performAll h ops) m → Reached h start (ops ++ [.run maxSteps]) m

/-- What is in the first register behind an operation if nothing but the outside can change it. -/
def Operation.leaves (held : Word) : Operation → Word
  | .setReg r v => if r = .zero then v else held
  | _ => held

/-- What was last put into the first register from outside, or zero. -/
def lastPut (ops : List Operation) : Word :=
  ops.foldl Operation.leaves 0

/-- The last value put into the zero register, one operation later. -/
theorem lastPut_concat (ops : List Operation) (op : Operation) :
    lastPut (ops ++ [op]) = op.leaves (lastPut ops) := by
  rw [lastPut, List.foldl_append]
  rfl

/-- The last value put into the zero register is zero where every value put there was. -/
theorem lastPut_eq_zero {ops : List Operation}
    (zeros : ∀ v, Operation.setReg .zero v ∈ ops → v = 0) : lastPut ops = 0 := by
  induction ops with
  | nil => rfl
  | cons op ops ih =>
    have first : op.leaves 0 = 0 := by
      cases op with
      | setReg r v =>
        rw [Operation.leaves]
        by_cases first : r = .zero
        · subst first
          rw [if_pos rfl]
          exact zeros v List.mem_cons_self
        · exact if_neg first
      | _ => rfl
    rw [lastPut, List.foldl_cons, first]
    apply ih
    intro v mem
    exact zeros v (List.mem_cons_of_mem op mem)

/-! ## Steps -/

/-- A notice does not change the registers. -/
theorem regs_noteIfVerbose (m : Machine η) (n : Notice) : (m.noteIfVerbose n).regs = m.regs := by
  unfold noteIfVerbose
  split <;> rfl

/-- Only a trap changes the first register, to zero. -/
theorem regs_zero_apply (m : Machine η) (e : Effect) :
    (m.apply h e).2.regs[Reg.zero] = if e = .trap then 0 else m.regs[Reg.zero] := by
  cases e with
  | nothing | store | goto => rfl
  | write rd v => exact Registers.getElem_write_zero
  | link rd target => exact Registers.getElem_write_zero
  | trap => exact Registers.getElem_set_self

/-- No instruction but the `ecall` has a trap for its effect. -/
theorem effect_eq_trap_iff {i : Instr} {pc : Word} {regs : Registers} {memory : Memory} :
    i.effect pc regs memory = .ok .trap ↔ i = .ecall := by
  constructor
  · intro traps
    cases i with
    | ecall => rfl
    | load op rd rs1 offset =>
      rw [Instr.effect] at traps
      cases loaded : memory.load (regs[rs1] + offset) op.width <;>
        rw [loaded] at traps <;> cases traps
    | store op rs1 rs2 offset =>
      rw [Instr.effect] at traps
      split at traps <;> cases traps
    | _ => cases traps
  · rintro rfl
    rfl

/-- Behind a trap the zero register holds zero. -/
theorem regs_zero_step_of_trap (trap : m.fetch = .ok .ecall) : (m.step h).2.regs[Reg.zero] = 0 := by
  rw [step, trap]
  exact regs_zero_apply (m.noteIfVerbose (.executing m.pc .ecall)) .trap

/-- An instruction that is no trap leaves the zero register as it was. -/
theorem regs_zero_step_of_ne (other : m.fetch ≠ .ok .ecall) :
    (m.step h).2.regs[Reg.zero] = m.regs[Reg.zero] := by
  unfold step
  split
  next => rfl
  next i fetched =>
    have noted := regs_noteIfVerbose m (.executing m.pc i)
    dsimp only
    split
    next => rw [noted]
    next e effect =>
      have goesOn : e ≠ .trap := by
        rintro rfl
        apply other
        rw [fetched, effect_eq_trap_iff.mp effect]
      have kept := regs_zero_apply (h := h) (m.noteIfVerbose (.executing m.pc i)) e
      rw [if_neg goesOn, noted] at kept
      exact kept

/-- Whatever a step does, the first register is kept or wiped. -/
theorem regs_zero_step (h : TrapHandler η) (m : Machine η) :
    (m.step h).2.regs[Reg.zero] = 0 ∨ (m.step h).2.regs[Reg.zero] = m.regs[Reg.zero] := by
  by_cases trap : m.fetch = .ok .ecall
  · exact .inl (regs_zero_step_of_trap trap)
  · exact .inr (regs_zero_step_of_ne trap)

/-! ## Operations -/

/-- The first register holds zero or what was put into it. -/
def ZeroOr (put : Word) (m : Machine η) : Prop :=
  m.regs[Reg.zero] = 0 ∨ m.regs[Reg.zero] = put

variable {put : Word}

/-- A step keeps the zero register at zero or at what was put there. -/
theorem ZeroOr.step (holds : m.ZeroOr put) : (m.step h).2.ZeroOr put := by
  rcases regs_zero_step h m with wiped | kept
  · exact .inl wiped
  · rw [ZeroOr, kept]
    exact holds

/-- As `ZeroOr.step`, for any number of steps. -/
theorem ZeroOr.resumes {k : Nat} (holds : m.ZeroOr put) (resumes : Resumes h k m m') :
    m'.ZeroOr put := by
  induction resumes with
  | refl => exact holds
  | step goesOn _ ih =>
    have stepped := holds.step (h := h)
    rw [goesOn] at stepped
    exact ih stepped

/-- As `ZeroOr.step`, for a run. -/
theorem ZeroOr.runFrom {taken left : Nat} (holds : m.ZeroOr put) :
    (m.runFrom h taken left).2.ZeroOr put := by
  induction left generalizing taken m with
  | zero => exact holds
  | succ left ih =>
    have stepped := holds.step (h := h)
    rw [Machine.runFrom]
    split
    next fails => rwa [fails] at stepped
    next goesOn => exact ih (by rwa [goesOn] at stepped)
    next halts =>
      rw [halts] at stepped
      rw [ZeroOr, regs_noteIfVerbose]
      exact stepped

/-- As `ZeroOr.step`, for loading code. -/
theorem ZeroOr.load (holds : m.ZeroOr put) (code : Bytes) : (m.load code).2.ZeroOr put := by
  unfold Machine.load
  split
  next => exact holds
  next memory _ =>
    rw [ZeroOr, regs_noteIfVerbose]
    exact holds

/-- Setting another register leaves the zero register. -/
theorem setReg_of_ne {r : Reg} {v : Word} (other : r ≠ .zero) :
    (m.setReg r v).regs[Reg.zero] = m.regs[Reg.zero] :=
  Registers.getElem_set_of_ne (Ne.symm other)

/-- Every operation keeps the zero register at zero or at the last value put there. -/
theorem ZeroOr.perform (holds : m.ZeroOr put) (op : Operation) :
    (m.perform h op).ZeroOr (op.leaves put) := by
  cases op with
  | load code => exact holds.load code
  | setArgs argc argv =>
    rw [ZeroOr, Machine.perform, setArgs, setReg_of_ne (by decide), setReg_of_ne (by decide)]
    exact holds
  | setReg r v =>
    rw [ZeroOr, Machine.perform, Operation.leaves]
    by_cases first : r = .zero
    · subst first
      rw [if_pos rfl]
      exact .inr Registers.getElem_set_self
    · rw [if_neg first, setReg_of_ne first]
      exact holds
  | getReg | setVerbose | printRegisters | fetch => exact holds
  | step => exact holds.step
  | run maxSteps => exact holds.runFrom

/-- As `ZeroOr.perform`, for a history, by induction on it. -/
theorem ZeroOr.performAll (holds : m.ZeroOr 0) (ops : List Operation) :
    (m.performAll h ops).ZeroOr (lastPut ops) := by
  have goesOn : ∀ (ops : List Operation) (m : Machine η) (put : Word), m.ZeroOr put →
      (ops.foldl (Machine.perform h) m).ZeroOr (ops.foldl Operation.leaves put) := by
    intro ops
    induction ops with
    | nil => exact fun _ _ holds => holds
    | cons op ops ih => exact fun _ _ holds => ih _ _ (holds.perform op)
  exact goesOn ops m 0 holds

/-- A new machine has zero in the zero register. -/
theorem regs_zero_create (size : Nat) (service : η) : (create size service).regs[Reg.zero] = 0 := by
  have kept :
      (create size service).regs[Reg.zero] = (Vector.replicate 32 0 : Registers)[Reg.zero] :=
    Registers.getElem_set_of_ne (by decide)
  rw [kept]
  exact Vector.getElem_replicate Reg.zero.valid

/-- Wherever a session with a machine comes, the first register holds zero or what was last put into
it from outside. The next step keeps that, unless it is a trap, which wipes it off. If nothing but
zero has ever been put there, it is zero, and every instruction is carried out as with zero in its
place. -/
theorem regs_zero_of_reached {size : Nat} {service : η} {ops : List Operation}
    (reached : Reached h (create size service) ops m) :
    (m.regs[Reg.zero] = 0 ∨ m.regs[Reg.zero] = lastPut ops) ∧
      (m.fetch = .ok .ecall → (m.step h).2.regs[Reg.zero] = 0) ∧
      (m.fetch ≠ .ok .ecall → (m.step h).2.regs[Reg.zero] = m.regs[Reg.zero]) ∧
      ((∀ v, Operation.setReg .zero v ∈ ops → v = 0) → m.regs[Reg.zero] = 0 ∧
        ∀ i : Instr, i.effect m.pc m.regs m.memory =
          i.effect m.pc (m.regs.set Reg.zero 0 Reg.zero.valid) m.memory) := by
  have created : (create size service).ZeroOr 0 := .inl (regs_zero_create size service)
  have holds : m.ZeroOr (lastPut ops) := by
    cases reached with
    | behind => exact created.performAll ops
    | within _ resumes =>
      rw [lastPut_concat]
      exact (created.performAll _).resumes resumes
  refine ⟨holds, regs_zero_step_of_trap, regs_zero_step_of_ne, ?_⟩
  intro zeros
  rw [ZeroOr, lastPut_eq_zero zeros, or_self] at holds
  refine ⟨holds, ?_⟩
  intro i
  have same : m.regs.set Reg.zero 0 Reg.zero.valid = m.regs := by
    rw [← holds]
    exact Vector.set_getElem_self Reg.zero.valid
  rw [same]

/-- A handler scribbles over the first register, and then the instruction behind the trap reads it.
-/
def scribbledOver : List Operation :=
  [.load ([Encode.ecall, Encode.aluImm .addi (Encode.reg .a0) (Encode.reg .zero) 5].flatMap
    Word.toBytes), .setReg .zero 0, .run 1, .step]

/-- A handler that scribbles over the zero register is followed by an instruction that reads zero
there. -/
theorem regs_zero_scribbledOver :
    let m := (create 16 ()).performAll .scribbling scribbledOver
    Reached .scribbling (create 16 ()) scribbledOver m ∧ m.regs[Reg.a0] = 5 ∧
    m.regs[Reg.zero] = 0 := by
  have reached : Reached .scribbling (create 16 ()) scribbledOver _ := .behind scribbledOver
  have zeros : ∀ v, Operation.setReg .zero v ∈ scribbledOver → v = 0 := by
    simp [scribbledOver]
  exact ⟨reached, by decide +kernel, ((regs_zero_of_reached reached).2.2.2 zeros).1⟩

/-- Seven is put into the first register, and then five is added to what it reads as. -/
def puttingSeven : List Operation :=
  [.load ([Encode.aluImm .addi (Encode.reg .a0) (Encode.reg .zero) 5].flatMap Word.toBytes),
    .setReg .zero 7, .step]

/-- The sum is twelve. -/
theorem not_zero_puttingSeven :
    (¬ ∀ m, Reached .halting (create 16 0) puttingSeven m → m.regs[Reg.zero] = 0) ∧
      ((create 16 0).performAll .halting puttingSeven).regs[Reg.a0] = 12 := by
  refine ⟨?_, by decide +kernel⟩
  intro always
  have seven : ((create 16 0).performAll .halting puttingSeven).regs[Reg.zero] = 7 := by
    decide +kernel
  have zero := always _ (.behind puttingSeven)
  rw [seven] at zero
  exact absurd zero (by decide)

end BareC.Machine
