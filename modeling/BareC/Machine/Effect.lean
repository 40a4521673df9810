import BareC.Machine.Trap

/-!
# What instructions do

The effect of an instruction is computed from the state before it, all at once, and applied
afterwards. An instruction that fails therefore has changed nothing, and one that reads the register
it writes reads the old value.

Arithmetic wraps at 32 bits. Division never fails: dividing by zero gives all ones and leaves the
dividend as the remainder, and the one quotient too large for a word wraps to itself.
-/

namespace BareC

/-- A truth value as a word. -/
def Word.ofBool (b : Bool) : Word :=
  if b then 1 else 0

/-- The result of an operation on two registers. -/
def AluOp.eval (a b : Word) : AluOp → Word
  | .add => a + b
  | .sub => a - b
  | .sll => a <<< (b.toNat % 32)
  | .slt => .ofBool (a.slt b)
  | .sltu => .ofBool (a.ult b)
  | .xor => a ^^^ b
  | .srl => a >>> (b.toNat % 32)
  | .sra => a.sshiftRight (b.toNat % 32)
  | .or => a ||| b
  | .and => a &&& b
  | .mul => a * b
  | .mulh => BitVec.ofInt 32 (a.toInt * b.toInt / 0x100000000)
  | .mulhsu => BitVec.ofInt 32 (a.toInt * b.toNat / 0x100000000)
  | .mulhu => BitVec.ofNat 32 (a.toNat * b.toNat / 0x100000000)
  | .div => if b = 0 then -1 else a.sdiv b
  | .divu => if b = 0 then -1 else a / b
  | .rem => if b = 0 then a else a.srem b
  | .remu => if b = 0 then a else a % b

/-- The result of an operation on a register and an immediate. -/
def ImmOp.eval (a imm : Word) : ImmOp → Word
  | .addi => a + imm
  | .slti => .ofBool (a.slt imm)
  | .sltiu => .ofBool (a.ult imm)
  | .xori => a ^^^ imm
  | .ori => a ||| imm
  | .andi => a &&& imm

/-- The result of a shift by a fixed amount. -/
def ShiftOp.eval (a : Word) (amount : BitVec 5) : ShiftOp → Word
  | .slli => a <<< amount.toNat
  | .srli => a >>> amount.toNat
  | .srai => a.sshiftRight amount.toNat

/-- The word that a number read from memory is extended to. -/
def LoadOp.extend (n : Nat) : LoadOp → Word
  | .lb => (BitVec.ofNat 8 n).signExtend 32
  | .lh => (BitVec.ofNat 16 n).signExtend 32
  | .lw | .lbu | .lhu => BitVec.ofNat 32 n

/-- The condition of a branch. -/
def BranchOp.holds (a b : Word) : BranchOp → Bool
  | .beq => a == b
  | .bne => a != b
  | .blt => a.slt b
  | .bge => b.sle a
  | .bltu => a.ult b
  | .bgeu => b.ule a

/-- The change that an instruction makes. Unless it says where to go on, the next instruction is the
one behind. -/
inductive Effect where
  | nothing
  | write (rd : Reg) (v : Word)
  /-- Writes the lowest `length` bytes of a word to memory. -/
  | store (address : Word) (length : Nat) (v : Word)
  | goto (target : Word)
  /-- Goes on at `target` and leaves the address behind the instruction in `rd`. -/
  | link (rd : Reg) (target : Word)
  /-- Asks the trap handler. -/
  | trap
  deriving DecidableEq, Repr

/-- The effect of an instruction at `pc`. -/
def Instr.effect (pc : Word) (regs : Registers) (memory : Memory) :
    Instr → Except MachineFault Effect
  | .alu op rd rs1 rs2 => .ok (.write rd (op.eval regs[rs1] regs[rs2]))
  | .aluImm op rd rs1 imm => .ok (.write rd (op.eval regs[rs1] imm))
  | .shiftImm op rd rs1 amount => .ok (.write rd (op.eval regs[rs1] amount))
  | .load op rd rs1 offset =>
    (memory.load (regs[rs1] + offset) op.width).map fun n => .write rd (op.extend n)
  | .store op rs1 rs2 offset =>
    let address := regs[rs1] + offset
    if memory.covers address op.width then .ok (.store address op.width regs[rs2])
    else .error (.access address op.width)
  | .branch op rs1 rs2 offset =>
    .ok (.goto (if op.holds regs[rs1] regs[rs2] then pc + offset else pc + 4))
  | .jal rd offset => .ok (.link rd (pc + offset))
  | .jalr rd rs1 offset => .ok (.link rd ((regs[rs1] + offset) &&& ~~~1))
  | .lui rd imm => .ok (.write rd imm)
  | .auipc rd imm => .ok (.write rd (pc + imm))
  | .fence => .ok .nothing
  | .ecall => .ok .trap
  | .ebreak => .error (.breakpoint pc)

end BareC
