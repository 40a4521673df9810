import BareC.Isa.Instr

/-!
# Encoding instructions

First the six formats. Each puts its fields side by side in a word; an immediate is cut to its
field, while a register number or function field that is too large runs into its neighbour, and what
is beyond the word is lost. Callers keep them in range.

Then the instructions that generated code is made of, by name, and at last the encoding of any
instruction.
-/

namespace BareC.Encode

/-! ## Formats -/

def rType (funct7 rs2 rs1 funct3 rd opcode : Word) : Word :=
  funct7 <<< 25 ||| rs2 <<< 20 ||| rs1 <<< 15 ||| funct3 <<< 12 ||| rd <<< 7 ||| opcode

def iType (imm rs1 funct3 rd opcode : Word) : Word :=
  (imm &&& 0xfff) <<< 20 ||| rs1 <<< 15 ||| funct3 <<< 12 ||| rd <<< 7 ||| opcode

def sType (imm rs2 rs1 funct3 opcode : Word) : Word :=
  ((imm >>> 5) &&& 0x7f) <<< 25 ||| rs2 <<< 20 ||| rs1 <<< 15 ||| funct3 <<< 12 |||
    (imm &&& 0x1f) <<< 7 ||| opcode

/-- Branches; the lowest bit of the offset is not kept. -/
def bType (offset rs2 rs1 funct3 : Word) : Word :=
  ((offset >>> 12) &&& 1) <<< 31 ||| ((offset >>> 5) &&& 0x3f) <<< 25 ||| rs2 <<< 20 |||
    rs1 <<< 15 ||| funct3 <<< 12 ||| ((offset >>> 1) &&& 0xf) <<< 8 |||
    ((offset >>> 11) &&& 1) <<< 7 ||| Opcode.branch.word

/-- Jumps; the lowest bit of the offset is not kept. -/
def jType (offset rd : Word) : Word :=
  ((offset >>> 20) &&& 1) <<< 31 ||| ((offset >>> 1) &&& 0x3ff) <<< 21 |||
    ((offset >>> 11) &&& 1) <<< 20 ||| ((offset >>> 12) &&& 0xff) <<< 12 ||| rd <<< 7 |||
    Opcode.jal.word

/-- The immediate is the upper part itself. -/
def uType (imm20 rd opcode : Word) : Word :=
  (imm20 &&& 0xfffff) <<< 12 ||| rd <<< 7 ||| opcode

/-! ## Immediates -/

/-- The word, as a signed number, fits in the twelve bits of an immediate. -/
def isImm12 (v : Word) : Bool :=
  -2048 ≤ v.toInt && v.toInt ≤ 2047

/-- The upper twenty and the lower twelve bits to build a word from by `lui` and `addi`. The lower
part is signed, and the upper part is rounded to make up for it. -/
def upperLower (v : Word) : Word × Word :=
  let low := (v <<< 20).sshiftRight 20
  ((v - low) >>> 12, low)

/-! ## Instructions of generated code -/

/-- An operation on two registers. -/
def alu (op : AluOp) (rd rs1 rs2 : Word) : Word :=
  rType (op.fields.1.setWidth 32) rs2 rs1 (op.fields.2.setWidth 32) rd Opcode.op.word

/-- An operation on a register and an immediate. -/
def aluImm (op : ImmOp) (rd rs1 imm : Word) : Word :=
  iType imm rs1 (op.funct3.setWidth 32) rd Opcode.opImm.word

def load (op : LoadOp) (rd rs1 offset : Word) : Word :=
  iType offset rs1 (op.funct3.setWidth 32) rd Opcode.load.word

def store (op : StoreOp) (rs2 rs1 offset : Word) : Word :=
  sType offset rs2 rs1 (op.funct3.setWidth 32) Opcode.store.word

def branch (op : BranchOp) (rs1 rs2 offset : Word) : Word :=
  bType offset rs2 rs1 (op.funct3.setWidth 32)

def lui (rd imm20 : Word) : Word :=
  uType imm20 rd Opcode.lui.word

def jal (rd offset : Word) : Word :=
  jType offset rd

def jalr (rd rs1 offset : Word) : Word :=
  iType offset rs1 0 rd Opcode.jalr.word

def ecall : Word :=
  Opcode.system.word

def ebreak : Word :=
  0x00100073

/-! ## Any instruction -/

/-- The number of a register as a field. -/
def reg (r : Reg) : Word :=
  BitVec.ofNat 32 r

end BareC.Encode

namespace BareC

/-- The word of an instruction. Every word with the opcode of a fence is one; this is the plainest.
-/
def Instr.encode : Instr → Word
  | .alu op rd rs1 rs2 => Encode.alu op (Encode.reg rd) (Encode.reg rs1) (Encode.reg rs2)
  | .aluImm op rd rs1 imm => Encode.aluImm op (Encode.reg rd) (Encode.reg rs1) imm
  | .shiftImm op rd rs1 amount =>
    Encode.rType (op.fields.1.setWidth 32) (amount.setWidth 32) (Encode.reg rs1)
      (op.fields.2.setWidth 32) (Encode.reg rd) Opcode.opImm.word
  | .load op rd rs1 offset => Encode.load op (Encode.reg rd) (Encode.reg rs1) offset
  | .store op rs1 rs2 offset => Encode.store op (Encode.reg rs2) (Encode.reg rs1) offset
  | .branch op rs1 rs2 offset => Encode.branch op (Encode.reg rs1) (Encode.reg rs2) offset
  | .jal rd offset => Encode.jal (Encode.reg rd) offset
  | .jalr rd rs1 offset => Encode.jalr (Encode.reg rd) (Encode.reg rs1) offset
  | .lui rd imm => Encode.lui (Encode.reg rd) (imm >>> 12)
  | .auipc rd imm => Encode.uType (imm >>> 12) (Encode.reg rd) Opcode.auipc.word
  | .fence => Opcode.miscMem.word
  | .ecall => Encode.ecall
  | .ebreak => Encode.ebreak

end BareC
