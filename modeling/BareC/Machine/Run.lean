import BareC.Isa.Decode
import BareC.Machine.Effect
import BareC.Machine.Notice

/-!
# Running machines

A machine is a program counter, registers, memory and the state of its trap handler. A step fetches
a word, decodes it and applies the effect of the instruction; a run is steps until the handler
halts, something fails, or the steps allowed are used up. Every operation gives back a machine, also
when it fails.
-/

namespace BareC

/-- A machine whose trap handler has states `η`. -/
structure Machine (η : Type) where
  pc : Word := 0
  regs : Registers := Vector.replicate 32 0
  memory : Memory
  /-- The state of the trap handler. -/
  service : η
  /-- Print every instruction. -/
  verbose : Bool := false
  /-- What has been printed. -/
  notices : Array Notice := #[]

/-- How a run ended at the halt. -/
structure Exit where
  code : Word
  steps : Nat
  /-- The address of the `ecall` that halted. -/
  pc : Word
  deriving DecidableEq, Repr

namespace Machine

variable {η : Type}

/-- A machine with so many bytes of memory and its stack at their top. -/
def create (size : Nat) (service : η) : Machine η :=
  let memory := Memory.zeros size
  { regs := (Vector.replicate 32 0).set Reg.sp memory.stackStart, memory, service }

/-! ## Access from outside -/

/-- Prints a notice. -/
def note (m : Machine η) (n : Notice) : Machine η :=
  { m with notices := m.notices.push n }

/-- Prints a notice if the machine is verbose. -/
def noteIfVerbose (m : Machine η) (n : Notice) : Machine η :=
  if m.verbose then m.note n else m

/-- Puts a value into a register, whichever it is. -/
def setReg (m : Machine η) (r : Reg) (v : Word) : Machine η :=
  { m with regs := m.regs.set r v r.valid }

/-- The arguments of `main`. -/
def setArgs (m : Machine η) (argc argv : Word) : Machine η :=
  (m.setReg .a0 argc).setReg .a1 argv

/-- Copies code to address zero and goes there. -/
def load (m : Machine η) (code : Bytes) : Except MachineFault Unit × Machine η :=
  match m.memory.place code with
  | .error f => (.error f, m)
  | .ok memory =>
    (.ok (), { m with memory, pc := 0 }.noteIfVerbose (.loaded code.length m.regs[Reg.sp]))

/-- Prints the registers. -/
def printRegisters (m : Machine η) : Machine η :=
  m.note (.registers m.regs m.pc)

/-! ## Steps -/

/-- The instruction at the program counter. -/
def fetch (m : Machine η) : Except MachineFault Instr :=
  match m.memory.load m.pc 4 with
  | .error f => .error f
  | .ok n =>
    match Instr.decode? (BitVec.ofNat 32 n) with
    | none => .error (.illegalInstruction m.pc (BitVec.ofNat 32 n))
    | some i => .ok i

/-- The machine after an effect. Behind a trap the first register is zero again, whatever the
handler wrote to it. -/
def apply (h : TrapHandler η) (m : Machine η) : Effect → Trap × Machine η
  | .nothing => (.resume, { m with pc := m.pc + 4 })
  | .write rd v => (.resume, { m with regs := m.regs.write rd v, pc := m.pc + 4 })
  | .store address length v =>
    (.resume, { m with memory := m.memory.put address length v.toNat, pc := m.pc + 4 })
  | .goto target => (.resume, { m with pc := target })
  | .link rd target => (.resume, { m with regs := m.regs.write rd (m.pc + 4), pc := target })
  | .trap =>
    let (trap, service, regs, memory) := h.handle m.service m.regs m.memory
    (trap, { m with service, regs := regs.set Reg.zero 0 Reg.zero.valid, memory, pc := m.pc + 4 })

/-- Executes one instruction. -/
def step (h : TrapHandler η) (m : Machine η) : Except MachineFault Trap × Machine η :=
  match m.fetch with
  | .error f => (.error f, m)
  | .ok i =>
    let m := m.noteIfVerbose (.executing m.pc i)
    match i.effect m.pc m.regs m.memory with
    | .error f => (.error f, m)
    | .ok effect =>
      let (trap, m) := m.apply h effect
      (.ok trap, m)

/-- Runs for `left` more steps after `taken`. -/
def runFrom (h : TrapHandler η) (taken : Nat) :
    (left : Nat) → Machine η → Except MachineFault Exit × Machine η
  | 0, m => (.error (.stepLimit m.pc taken), m)
  | left + 1, m =>
    let pc := m.pc
    match m.step h with
    | (.error f, m) => (.error f, m)
    | (.ok .resume, m) => runFrom h (taken + 1) left m
    | (.ok (.halt code), m) =>
      (.ok ⟨code, taken + 1, pc⟩, m.noteIfVerbose (.halted code (taken + 1)))

/-- Runs until the machine halts, for at most so many steps. -/
def run (h : TrapHandler η) (maxSteps : Nat) (m : Machine η) :
    Except MachineFault Exit × Machine η :=
  runFrom h 0 maxSteps m

end Machine

end BareC
