import BareC.Bytes

/-!
# RV32IM instructions

An instruction is an operation with the registers and the immediate that it works on. Immediates and
offsets are whole words, already extended from the field they come from, and the immediate of `lui`
and `auipc` is the value with its low twelve bits clear.

Operations of one format form a family. A family gives its members the function fields that encoders
put in a word and the mnemonics of listings. The decoder has tables of its own, so these fields are
not what makes a word mean what it does.
-/

namespace BareC

/-- A register, by number. -/
abbrev Reg := Fin 32

namespace Reg

def zero : Reg := 0
/-- The return address. -/
def ra : Reg := 1
/-- The stack pointer. -/
def sp : Reg := 2
def t0 : Reg := 5
/-- The frame pointer. -/
def s0 : Reg := 8
/-- The first argument and the result. -/
def a0 : Reg := 10
def a1 : Reg := 11

/-- The names of the registers in the calling convention. -/
def names : Vector String 32 :=
  #v["zero", "ra", "sp", "gp", "tp", "t0", "t1", "t2", "s0", "s1", "a0", "a1", "a2", "a3", "a4",
     "a5", "a6", "a7", "s2", "s3", "s4", "s5", "s6", "s7", "s8", "s9", "s10", "s11", "t3", "t4",
     "t5", "t6"]

/-- A register is a place in the register file. -/
theorem valid (r : Reg) : r.val < 32 :=
  r.isLt

def name (r : Reg) : String :=
  names.get r

end Reg

/-! ## Families of operations -/

/-- Operations on two registers. -/
inductive AluOp where
  | add | sub | sll | slt | sltu | xor | srl | sra | or | and
  | mul | mulh | mulhsu | mulhu | div | divu | rem | remu
  deriving DecidableEq, Repr

namespace AluOp

/-- The fields `funct7` and `funct3`. -/
def fields : AluOp → BitVec 7 × BitVec 3
  | .add => (0x00, 0) | .sub => (0x20, 0) | .sll => (0x00, 1) | .slt => (0x00, 2)
  | .sltu => (0x00, 3) | .xor => (0x00, 4) | .srl => (0x00, 5) | .sra => (0x20, 5)
  | .or => (0x00, 6) | .and => (0x00, 7)
  | .mul => (0x01, 0) | .mulh => (0x01, 1) | .mulhsu => (0x01, 2) | .mulhu => (0x01, 3)
  | .div => (0x01, 4) | .divu => (0x01, 5) | .rem => (0x01, 6) | .remu => (0x01, 7)

def mnemonic : AluOp → String
  | .add => "add" | .sub => "sub" | .sll => "sll" | .slt => "slt" | .sltu => "sltu"
  | .xor => "xor" | .srl => "srl" | .sra => "sra" | .or => "or" | .and => "and"
  | .mul => "mul" | .mulh => "mulh" | .mulhsu => "mulhsu" | .mulhu => "mulhu"
  | .div => "div" | .divu => "divu" | .rem => "rem" | .remu => "remu"

end AluOp

/-- Operations on a register and an immediate. -/
inductive ImmOp where
  | addi | slti | sltiu | xori | ori | andi
  deriving DecidableEq, Repr

namespace ImmOp

def funct3 : ImmOp → BitVec 3
  | .addi => 0 | .slti => 2 | .sltiu => 3 | .xori => 4 | .ori => 6 | .andi => 7

def mnemonic : ImmOp → String
  | .addi => "addi" | .slti => "slti" | .sltiu => "sltiu"
  | .xori => "xori" | .ori => "ori" | .andi => "andi"

end ImmOp

/-- Shifts by a fixed amount. -/
inductive ShiftOp where
  | slli | srli | srai
  deriving DecidableEq, Repr

namespace ShiftOp

/-- The fields `funct7` and `funct3`. -/
def fields : ShiftOp → BitVec 7 × BitVec 3
  | .slli => (0x00, 1) | .srli => (0x00, 5) | .srai => (0x20, 5)

def mnemonic : ShiftOp → String
  | .slli => "slli" | .srli => "srli" | .srai => "srai"

end ShiftOp

inductive LoadOp where
  | lb | lh | lw | lbu | lhu
  deriving DecidableEq, Repr

namespace LoadOp

def funct3 : LoadOp → BitVec 3
  | .lb => 0 | .lh => 1 | .lw => 2 | .lbu => 4 | .lhu => 5

def mnemonic : LoadOp → String
  | .lb => "lb" | .lh => "lh" | .lw => "lw" | .lbu => "lbu" | .lhu => "lhu"

/-- The number of bytes loaded. -/
def width : LoadOp → Nat
  | .lb | .lbu => 1
  | .lh | .lhu => 2
  | .lw => 4

end LoadOp

inductive StoreOp where
  | sb | sh | sw
  deriving DecidableEq, Repr

namespace StoreOp

def funct3 : StoreOp → BitVec 3
  | .sb => 0 | .sh => 1 | .sw => 2

def mnemonic : StoreOp → String
  | .sb => "sb" | .sh => "sh" | .sw => "sw"

/-- The number of bytes stored. -/
def width : StoreOp → Nat
  | .sb => 1
  | .sh => 2
  | .sw => 4

end StoreOp

/-- Conditional branches. -/
inductive BranchOp where
  | beq | bne | blt | bge | bltu | bgeu
  deriving DecidableEq, Repr

namespace BranchOp

def funct3 : BranchOp → BitVec 3
  | .beq => 0 | .bne => 1 | .blt => 4 | .bge => 5 | .bltu => 6 | .bgeu => 7

def mnemonic : BranchOp → String
  | .beq => "beq" | .bne => "bne" | .blt => "blt" | .bge => "bge"
  | .bltu => "bltu" | .bgeu => "bgeu"

end BranchOp

/-! ## Instructions -/

inductive Instr where
  | alu (op : AluOp) (rd rs1 rs2 : Reg)
  | aluImm (op : ImmOp) (rd rs1 : Reg) (imm : Word)
  | shiftImm (op : ShiftOp) (rd rs1 : Reg) (amount : BitVec 5)
  | load (op : LoadOp) (rd rs1 : Reg) (offset : Word)
  /-- Stores `rs2` at `rs1` and an offset. -/
  | store (op : StoreOp) (rs1 rs2 : Reg) (offset : Word)
  | branch (op : BranchOp) (rs1 rs2 : Reg) (offset : Word)
  | jal (rd : Reg) (offset : Word)
  | jalr (rd rs1 : Reg) (offset : Word)
  | lui (rd : Reg) (imm : Word)
  | auipc (rd : Reg) (imm : Word)
  | fence
  | ecall
  | ebreak
  deriving DecidableEq, Repr

/-- The major opcodes. -/
inductive Opcode where
  | op | opImm | load | store | branch | jal | jalr | lui | auipc | miscMem | system
  deriving DecidableEq, Repr

namespace Opcode

/-- The lowest seven bits of a word. -/
def code : Opcode → BitVec 7
  | .op => 0x33 | .opImm => 0x13 | .load => 0x03 | .store => 0x23 | .branch => 0x63
  | .jal => 0x6f | .jalr => 0x67 | .lui => 0x37 | .auipc => 0x17 | .miscMem => 0x0f
  | .system => 0x73

/-- The opcode as a word. -/
def word (o : Opcode) : Word :=
  o.code.setWidth 32

end Opcode

end BareC
