import BareC.Isa.Instr

/-!
# Decoding instruction words

A word is taken apart into the fields that every format shares, and its immediates are put together
from their pieces by joining bits. Words outside the supported set have no meaning: the word of
zeros, the compressed formats, and every system word but `ecall` and `ebreak`.

The decoder reads opcodes and function fields by tables of its own and looks at none of the
encoder's. That the two sets of tables agree is a theorem about them (`Decode.opcode?_eq_some_iff`
and those after it), and nothing here relies on it.
-/

namespace BareC.Decode

/-! ## Fields -/

def rd (w : Word) : Reg :=
  (w.extractLsb' 7 5).toFin

def rs1 (w : Word) : Reg :=
  (w.extractLsb' 15 5).toFin

def rs2 (w : Word) : Reg :=
  (w.extractLsb' 20 5).toFin

def funct3 (w : Word) : BitVec 3 :=
  w.extractLsb' 12 3

def funct7 (w : Word) : BitVec 7 :=
  w.extractLsb' 25 7

/-- The opcode, in the seven lowest bits. -/
def opcode? (w : Word) : Option Opcode :=
  match w.extractLsb' 0 7 with
  | 0x33 => some .op
  | 0x13 => some .opImm
  | 0x03 => some .load
  | 0x23 => some .store
  | 0x63 => some .branch
  | 0x6f => some .jal
  | 0x67 => some .jalr
  | 0x37 => some .lui
  | 0x17 => some .auipc
  | 0x0f => some .miscMem
  | 0x73 => some .system
  | _ => none

/-! ## Immediates -/

/-- The immediate of loads and of operations with an immediate. -/
def immI (w : Word) : Word :=
  (w.extractLsb' 20 12).signExtend 32

/-- The offset of a store. -/
def immS (w : Word) : Word :=
  (w.extractLsb' 25 7 ++ w.extractLsb' 7 5).signExtend 32

/-- The offset of a branch, an even number. -/
def immB (w : Word) : Word :=
  (w.extractLsb' 31 1 ++ w.extractLsb' 7 1 ++ w.extractLsb' 25 6 ++ w.extractLsb' 8 4 ++
    0#1).signExtend 32

/-- The offset of a jump, an even number. -/
def immJ (w : Word) : Word :=
  (w.extractLsb' 31 1 ++ w.extractLsb' 12 8 ++ w.extractLsb' 20 1 ++ w.extractLsb' 21 10 ++
    0#1).signExtend 32

/-- The upper part of a word, in its place. -/
def immU (w : Word) : Word :=
  w.extractLsb' 12 20 ++ 0#12

/-! ## Operations -/

def aluOp? (w : Word) : Option AluOp :=
  match funct3 w, funct7 w with
  | 0, 0x00 => some .add
  | 0, 0x20 => some .sub
  | 1, 0x00 => some .sll
  | 2, 0x00 => some .slt
  | 3, 0x00 => some .sltu
  | 4, 0x00 => some .xor
  | 5, 0x00 => some .srl
  | 5, 0x20 => some .sra
  | 6, 0x00 => some .or
  | 7, 0x00 => some .and
  | 0, 0x01 => some .mul
  | 1, 0x01 => some .mulh
  | 2, 0x01 => some .mulhsu
  | 3, 0x01 => some .mulhu
  | 4, 0x01 => some .div
  | 5, 0x01 => some .divu
  | 6, 0x01 => some .rem
  | 7, 0x01 => some .remu
  | _, _ => none

def immOp? (w : Word) : Option ImmOp :=
  match funct3 w with
  | 0 => some .addi
  | 2 => some .slti
  | 3 => some .sltiu
  | 4 => some .xori
  | 6 => some .ori
  | 7 => some .andi
  | _ => none

def shiftOp? (w : Word) : Option ShiftOp :=
  match funct3 w, funct7 w with
  | 1, 0x00 => some .slli
  | 5, 0x00 => some .srli
  | 5, 0x20 => some .srai
  | _, _ => none

def loadOp? (w : Word) : Option LoadOp :=
  match funct3 w with
  | 0 => some .lb
  | 1 => some .lh
  | 2 => some .lw
  | 4 => some .lbu
  | 5 => some .lhu
  | _ => none

def storeOp? (w : Word) : Option StoreOp :=
  match funct3 w with
  | 0 => some .sb
  | 1 => some .sh
  | 2 => some .sw
  | _ => none

def branchOp? (w : Word) : Option BranchOp :=
  match funct3 w with
  | 0 => some .beq
  | 1 => some .bne
  | 4 => some .blt
  | 5 => some .bge
  | 6 => some .bltu
  | 7 => some .bgeu
  | _ => none

/-- An operation with an immediate: a shift by a fixed amount where `funct3` says so. -/
def opImm? (w : Word) : Option Instr :=
  match immOp? w with
  | some op => some (.aluImm op (rd w) (rs1 w) (immI w))
  | none => (shiftOp? w).map (.shiftImm · (rd w) (rs1 w) (w.extractLsb' 20 5))

def system? (w : Word) : Option Instr :=
  if w = 0x00000073 then some .ecall
  else if w = 0x00100073 then some .ebreak
  else none

end BareC.Decode

namespace BareC

/-- The instruction that a word stands for. -/
def Instr.decode? (w : Word) : Option Instr :=
  match Decode.opcode? w with
  | none => none
  | some .op => (Decode.aluOp? w).map (.alu · (Decode.rd w) (Decode.rs1 w) (Decode.rs2 w))
  | some .opImm => Decode.opImm? w
  | some .load => (Decode.loadOp? w).map (.load · (Decode.rd w) (Decode.rs1 w) (Decode.immI w))
  | some .store => (Decode.storeOp? w).map (.store · (Decode.rs1 w) (Decode.rs2 w) (Decode.immS w))
  | some .branch =>
    (Decode.branchOp? w).map (.branch · (Decode.rs1 w) (Decode.rs2 w) (Decode.immB w))
  | some .jal => some (.jal (Decode.rd w) (Decode.immJ w))
  | some .jalr =>
    if Decode.funct3 w = 0 then some (.jalr (Decode.rd w) (Decode.rs1 w) (Decode.immI w)) else none
  | some .lui => some (.lui (Decode.rd w) (Decode.immU w))
  | some .auipc => some (.auipc (Decode.rd w) (Decode.immU w))
  | some .miscMem => some .fence
  | some .system => Decode.system? w

end BareC
