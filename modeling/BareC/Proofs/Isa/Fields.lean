import BareC.Isa.Decode
import BareC.Isa.Halt
import Mathlib.Algebra.Group.Int.Defs
import Mathlib.Algebra.Group.Nat.Defs

/-!
# Decoding what was encoded

Every format lays the same six fields side by side; they differ only in which fields an immediate
takes and in what order its bits go there. So encoders are first rewritten to the six fields
(`Encode.fields`), and decoding is understood once for a word given by its fields.

What comes back is the instruction with its immediate cut to the width of its field and extended
again. An immediate that fits is not changed by that, which is what generated code relies on.

The decoder has tables of its own for opcodes and function codes, apart from the encoder's. That the
two agree is shown here table by table (`opcode?_eq_some_iff` and those behind it), and is the only
place where both are looked at. Whether both agree with the architecture is not shown: the numbers
are what they are, and the architecture has no other form here.
-/

namespace BareC

/-- The lowest bits of a word read as a signed number. -/
def Word.signed (width : Nat) (w : Word) : Word :=
  (w.setWidth width).signExtend 32

namespace Encode

/-- A word from its six fields, the highest first. -/
def fields (funct7 : BitVec 7) (rs2 rs1 : BitVec 5) (funct3 : BitVec 3) (rd : BitVec 5)
    (opcode : BitVec 7) : Word :=
  funct7 ++ rs2 ++ rs1 ++ funct3 ++ rd ++ opcode

/-- The number of a register is a field of five bits. -/
theorem reg_eq_setWidth (r : Reg) : reg r = (BitVec.ofFin (w := 5) r).setWidth 32 := by
  apply BitVec.eq_of_toNat_eq
  simp [reg]

/-! ## Formats as fields -/

section Formats

variable (funct7 : BitVec 7) (rs2 rs1 rd : BitVec 5) (funct3 : BitVec 3) (opcode : BitVec 7)
  (imm : Word)

/-- A word with three registers, field by field. -/
theorem rType_eq_fields :
    rType (funct7.setWidth 32) (rs2.setWidth 32) (rs1.setWidth 32) (funct3.setWidth 32)
      (rd.setWidth 32) (opcode.setWidth 32) = fields funct7 rs2 rs1 funct3 rd opcode := by
  apply BitVec.eq_of_getLsbD_eq
  intro i hi
  simp only [rType, fields, BitVec.getLsbD_or, BitVec.getLsbD_shiftLeft, BitVec.getLsbD_setWidth,
    BitVec.getLsbD_append, hi]
  grind

/-- As `rType_eq_fields`, with an immediate in the place of the second source. -/
theorem iType_eq_fields :
    iType imm (rs1.setWidth 32) (funct3.setWidth 32) (rd.setWidth 32) (opcode.setWidth 32) =
      fields (imm.extractLsb' 5 7) (imm.extractLsb' 0 5) rs1 funct3 rd opcode := by
  apply BitVec.eq_of_getLsbD_eq
  intro i hi
  have mask : (0xfff : Word) = (BitVec.allOnes 12).setWidth 32 := rfl
  simp only [iType, fields, mask, BitVec.getLsbD_or, BitVec.getLsbD_and, BitVec.getLsbD_allOnes,
    BitVec.getLsbD_extractLsb', BitVec.getLsbD_shiftLeft, BitVec.getLsbD_setWidth,
    BitVec.getLsbD_append, hi]
  grind

/-- As `rType_eq_fields`, for a store, whose immediate is in two parts. -/
theorem sType_eq_fields :
    sType imm (rs2.setWidth 32) (rs1.setWidth 32) (funct3.setWidth 32) (opcode.setWidth 32) =
      fields (imm.extractLsb' 5 7) rs2 rs1 funct3 (imm.extractLsb' 0 5) opcode := by
  apply BitVec.eq_of_getLsbD_eq
  intro i hi
  have high : (0x7f : Word) = (BitVec.allOnes 7).setWidth 32 := rfl
  have low : (0x1f : Word) = (BitVec.allOnes 5).setWidth 32 := rfl
  simp only [sType, fields, high, low, BitVec.getLsbD_or, BitVec.getLsbD_and,
    BitVec.getLsbD_allOnes, BitVec.getLsbD_extractLsb', BitVec.getLsbD_shiftLeft,
    BitVec.getLsbD_setWidth, BitVec.getLsbD_append, BitVec.getLsbD_ushiftRight, hi]
  grind

/-- As `rType_eq_fields`, for a branch, whose immediate is in four. -/
theorem bType_eq_fields :
    bType imm (rs2.setWidth 32) (rs1.setWidth 32) (funct3.setWidth 32) =
      fields (imm.extractLsb' 12 1 ++ imm.extractLsb' 5 6) rs2 rs1 funct3
        (imm.extractLsb' 1 4 ++ imm.extractLsb' 11 1) Opcode.branch.code := by
  apply BitVec.eq_of_getLsbD_eq
  intro i hi
  have high : (0x3f : Word) = (BitVec.allOnes 6).setWidth 32 := rfl
  have low : (0xf : Word) = (BitVec.allOnes 4).setWidth 32 := rfl
  have one : (1 : Word) = (BitVec.allOnes 1).setWidth 32 := rfl
  simp only [bType, fields, Opcode.word, high, low, one, BitVec.getLsbD_or, BitVec.getLsbD_and,
    BitVec.getLsbD_allOnes, BitVec.getLsbD_extractLsb', BitVec.getLsbD_shiftLeft,
    BitVec.getLsbD_setWidth, BitVec.getLsbD_append, BitVec.getLsbD_ushiftRight, hi]
  grind

/-- As `rType_eq_fields`, for a jump, whose immediate takes the places of the sources. -/
theorem jType_eq_fields :
    jType imm (rd.setWidth 32) =
      fields (imm.extractLsb' 20 1 ++ imm.extractLsb' 5 6)
        (imm.extractLsb' 1 4 ++ imm.extractLsb' 11 1) (imm.extractLsb' 15 5)
        (imm.extractLsb' 12 3) rd Opcode.jal.code := by
  apply BitVec.eq_of_getLsbD_eq
  intro i hi
  have high : (0x3ff : Word) = (BitVec.allOnes 10).setWidth 32 := rfl
  have low : (0xff : Word) = (BitVec.allOnes 8).setWidth 32 := rfl
  have one : (1 : Word) = (BitVec.allOnes 1).setWidth 32 := rfl
  simp only [jType, fields, Opcode.word, high, low, one, BitVec.getLsbD_or, BitVec.getLsbD_and,
    BitVec.getLsbD_allOnes, BitVec.getLsbD_extractLsb', BitVec.getLsbD_shiftLeft,
    BitVec.getLsbD_setWidth, BitVec.getLsbD_append, BitVec.getLsbD_ushiftRight, hi]
  grind

/-- As `rType_eq_fields`, for an upper immediate. -/
theorem uType_eq_fields :
    uType imm (rd.setWidth 32) (opcode.setWidth 32) =
      fields (imm.extractLsb' 13 7) (imm.extractLsb' 8 5) (imm.extractLsb' 3 5)
        (imm.extractLsb' 0 3) rd opcode := by
  apply BitVec.eq_of_getLsbD_eq
  intro i hi
  have mask : (0xfffff : Word) = (BitVec.allOnes 20).setWidth 32 := rfl
  simp only [uType, fields, mask, BitVec.getLsbD_or, BitVec.getLsbD_and, BitVec.getLsbD_allOnes,
    BitVec.getLsbD_extractLsb', BitVec.getLsbD_shiftLeft, BitVec.getLsbD_setWidth,
    BitVec.getLsbD_append, hi]
  grind

end Formats

end Encode

/-! ## Taking fields apart -/

namespace Decode

open Encode (fields)

section Fields

variable (f7 : BitVec 7) (s2 s1 d : BitVec 5) (f3 : BitVec 3) (o : BitVec 7)

/-- The decoder finds the target register in its field. -/
@[simp]
theorem rd_fields : rd (fields f7 s2 s1 f3 d o) = d.toFin := by
  unfold rd
  congr 1
  apply BitVec.eq_of_getLsbD_eq
  intro i hi
  simp only [fields, BitVec.getLsbD_extractLsb', BitVec.getLsbD_append, hi]
  grind

/-- As `rd_fields`, for the first source. -/
@[simp]
theorem rs1_fields : rs1 (fields f7 s2 s1 f3 d o) = s1.toFin := by
  unfold rs1
  congr 1
  apply BitVec.eq_of_getLsbD_eq
  intro i hi
  simp only [fields, BitVec.getLsbD_extractLsb', BitVec.getLsbD_append, hi]
  grind

/-- As `rd_fields`, for the second. -/
@[simp]
theorem rs2_fields : rs2 (fields f7 s2 s1 f3 d o) = s2.toFin := by
  unfold rs2
  congr 1
  apply BitVec.eq_of_getLsbD_eq
  intro i hi
  simp only [fields, BitVec.getLsbD_extractLsb', BitVec.getLsbD_append, hi]
  grind

/-- As `rd_fields`, for the short function code. -/
@[simp]
theorem funct3_fields : funct3 (fields f7 s2 s1 f3 d o) = f3 := by
  apply BitVec.eq_of_getLsbD_eq
  intro i hi
  simp only [funct3, fields, BitVec.getLsbD_extractLsb', BitVec.getLsbD_append, hi]
  grind

/-- As `rd_fields`, for the long one. -/
@[simp]
theorem funct7_fields : funct7 (fields f7 s2 s1 f3 d o) = f7 := by
  apply BitVec.eq_of_getLsbD_eq
  intro i hi
  simp only [funct7, fields, BitVec.getLsbD_extractLsb', BitVec.getLsbD_append, hi]
  grind

/-- As `rd_fields`, for the opcode. -/
theorem opcodeField_fields : (fields f7 s2 s1 f3 d o).extractLsb' 0 7 = o := by
  apply BitVec.eq_of_getLsbD_eq
  intro i hi
  simp only [fields, BitVec.getLsbD_extractLsb', BitVec.getLsbD_append, hi]
  grind

/-- The decoder's immediate of an operation with one source. -/
@[simp]
theorem immI_fields : immI (fields f7 s2 s1 f3 d o) = (f7 ++ s2).signExtend 32 := by
  unfold immI
  congr 1
  apply BitVec.eq_of_getLsbD_eq
  intro i hi
  simp only [fields, BitVec.getLsbD_extractLsb', BitVec.getLsbD_append, hi]
  grind

/-- As `immI_fields`, for a store. -/
@[simp]
theorem immS_fields : immS (fields f7 s2 s1 f3 d o) = (f7 ++ d).signExtend 32 := by
  unfold immS
  congr 1
  apply BitVec.eq_of_getLsbD_eq
  intro i hi
  simp only [fields, BitVec.getLsbD_extractLsb', BitVec.getLsbD_append]
  grind

/-- As `immI_fields`, for an upper immediate. -/
@[simp]
theorem immU_fields : immU (fields f7 s2 s1 f3 d o) = f7 ++ s2 ++ s1 ++ f3 ++ 0#12 := by
  apply BitVec.eq_of_getLsbD_eq
  intro i hi
  simp only [immU, fields, BitVec.getLsbD_extractLsb', BitVec.getLsbD_append]
  grind

end Fields

/-! ## The decoder's tables and the encoder's

Each table of the decoder gives an operation exactly to the words with the fields that the encoder
gives that operation. Most of what follows knows the decoder's tables by these lemmas only. -/

section Tables

variable {w : Word}

/-- The decoder's opcodes are the encoder's. -/
theorem opcode?_eq_some_iff {o : Opcode} : opcode? w = some o ↔ o.code = w.extractLsb' 0 7 := by
  constructor
  · intro found
    unfold opcode? at found
    split at found <;> cases found
    all_goals exact Eq.symm ‹_›
  · intro same
    rw [opcode?, ← same]
    cases o <;> rfl

/-- As `opcode?_eq_some_iff`, for the function codes of the operations on registers. -/
theorem aluOp?_eq_some_iff {op : AluOp} :
    aluOp? w = some op ↔ op.fields = (funct7 w, funct3 w) := by
  constructor
  · intro found
    unfold aluOp? at found
    split at found <;> cases found
    all_goals exact (Prod.ext ‹_› ‹_›).symm
  · intro same
    obtain ⟨seven, three⟩ := Prod.mk.inj same.symm
    rw [aluOp?, seven, three]
    cases op <;> rfl

/-- As `opcode?_eq_some_iff`, for the shifts. -/
theorem shiftOp?_eq_some_iff {op : ShiftOp} :
    shiftOp? w = some op ↔ op.fields = (funct7 w, funct3 w) := by
  constructor
  · intro found
    unfold shiftOp? at found
    split at found <;> cases found
    all_goals exact (Prod.ext ‹_› ‹_›).symm
  · intro same
    obtain ⟨seven, three⟩ := Prod.mk.inj same.symm
    rw [shiftOp?, seven, three]
    cases op <;> rfl

/-- As `opcode?_eq_some_iff`, for the operations on immediates. -/
theorem immOp?_eq_some_iff {op : ImmOp} : immOp? w = some op ↔ op.funct3 = funct3 w := by
  constructor
  · intro found
    unfold immOp? at found
    split at found <;> cases found
    all_goals exact Eq.symm ‹_›
  · intro same
    rw [immOp?, ← same]
    cases op <;> rfl

/-- As `opcode?_eq_some_iff`, for the loads. -/
theorem loadOp?_eq_some_iff {op : LoadOp} : loadOp? w = some op ↔ op.funct3 = funct3 w := by
  constructor
  · intro found
    unfold loadOp? at found
    split at found <;> cases found
    all_goals exact Eq.symm ‹_›
  · intro same
    rw [loadOp?, ← same]
    cases op <;> rfl

/-- As `opcode?_eq_some_iff`, for the stores. -/
theorem storeOp?_eq_some_iff {op : StoreOp} : storeOp? w = some op ↔ op.funct3 = funct3 w := by
  constructor
  · intro found
    unfold storeOp? at found
    split at found <;> cases found
    all_goals exact Eq.symm ‹_›
  · intro same
    rw [storeOp?, ← same]
    cases op <;> rfl

/-- As `opcode?_eq_some_iff`, for the branches. -/
theorem branchOp?_eq_some_iff {op : BranchOp} :
    branchOp? w = some op ↔ op.funct3 = funct3 w := by
  constructor
  · intro found
    unfold branchOp? at found
    split at found <;> cases found
    all_goals exact Eq.symm ‹_›
  · intro same
    rw [branchOp?, ← same]
    cases op <;> rfl

end Tables

/-- A word's opcode is found whatever its other fields are. -/
@[simp]
theorem opcode?_fields (f7 : BitVec 7) (s2 s1 d : BitVec 5) (f3 : BitVec 3) (o : Opcode) :
    opcode? (fields f7 s2 s1 f3 d o.code) = some o := by
  rw [opcode?_eq_some_iff, opcodeField_fields]

end Decode

/-! ## Immediates put together again -/

namespace Word

/-- A word that is a signed number of so many bits is what those bits stand for. -/
theorem signed_eq_self {bits : Nat} {w : Word} (hbits : bits < 32)
    (low : -2 ^ bits ≤ w.toInt) (high : w.toInt < 2 ^ bits) : w.signed (bits + 1) = w := by
  apply BitVec.eq_of_toInt_eq
  have divides : 2 ^ (bits + 1) ∣ 2 ^ 32 := Nat.pow_dvd_pow 2 hbits
  have cut : (w.toNat : Int).bmod (2 ^ (bits + 1)) = w.toInt.bmod (2 ^ (bits + 1)) := by
    rw [BitVec.toInt_eq_toNat_bmod, Int.bmod_bmod_of_dvd divides]
  rw [signed, BitVec.toInt_signExtend_of_le hbits, BitVec.toInt_setWidth, cut]
  apply Int.bmod_eq_of_le_mul_two
  · push_cast [Int.pow_succ]; omega
  · push_cast [Int.pow_succ]; omega

/-- Twelve bits taken in two parts extend to the signed value of the whole. -/
theorem signExtend_twelve (imm : Word) :
    (imm.extractLsb' 5 7 ++ imm.extractLsb' 0 5).signExtend 32 = imm.signed 12 := by
  unfold signed
  congr 1
  apply BitVec.eq_of_getLsbD_eq
  intro i hi
  simp only [BitVec.getLsbD_extractLsb', BitVec.getLsbD_append, BitVec.getLsbD_setWidth, hi]
  grind

end Word

namespace Decode

open Encode (fields)

/-- The offset of a branch comes back without its lowest bit. -/
theorem immB_fields (imm : Word) (s2 s1 : BitVec 5) (f3 : BitVec 3) (o : BitVec 7) :
    immB (fields (imm.extractLsb' 12 1 ++ imm.extractLsb' 5 6) s2 s1 f3
      (imm.extractLsb' 1 4 ++ imm.extractLsb' 11 1) o) = (imm &&& ~~~1).signed 13 := by
  unfold immB Word.signed
  congr 1
  apply BitVec.eq_of_getLsbD_eq
  intro i hi
  have one : (1 : Word) = (BitVec.allOnes 1).setWidth 32 := rfl
  simp only [fields, one, BitVec.getLsbD_extractLsb', BitVec.getLsbD_append,
    BitVec.getLsbD_setWidth, BitVec.getLsbD_and, BitVec.getLsbD_not, BitVec.getLsbD_allOnes,
    BitVec.getLsbD_zero, hi]
  grind

/-- The offset of a jump comes back without its lowest bit. -/
theorem immJ_fields (imm : Word) (d : BitVec 5) (o : BitVec 7) :
    immJ (fields (imm.extractLsb' 20 1 ++ imm.extractLsb' 5 6)
      (imm.extractLsb' 1 4 ++ imm.extractLsb' 11 1) (imm.extractLsb' 15 5)
      (imm.extractLsb' 12 3) d o) = (imm &&& ~~~1).signed 21 := by
  unfold immJ Word.signed
  congr 1
  apply BitVec.eq_of_getLsbD_eq
  intro i hi
  have one : (1 : Word) = (BitVec.allOnes 1).setWidth 32 := rfl
  simp only [fields, one, BitVec.getLsbD_extractLsb', BitVec.getLsbD_append,
    BitVec.getLsbD_setWidth, BitVec.getLsbD_and, BitVec.getLsbD_not, BitVec.getLsbD_allOnes,
    BitVec.getLsbD_zero, hi]
  grind

/-- The upper part of a word comes back in its place. -/
theorem immU_eq_shiftLeft (imm : Word) :
    imm.extractLsb' 13 7 ++ imm.extractLsb' 8 5 ++ imm.extractLsb' 3 5 ++ imm.extractLsb' 0 3 ++
      0#12 = imm <<< 12 := by
  apply BitVec.eq_of_getLsbD_eq
  intro i hi
  simp only [BitVec.getLsbD_extractLsb', BitVec.getLsbD_append, BitVec.getLsbD_shiftLeft,
    BitVec.getLsbD_zero, hi]
  grind

end Decode

/-! ## Instructions that come back -/

namespace Instr

/-- An operation on registers decodes to itself. -/
theorem decode?_alu (op : AluOp) (rd rs1 rs2 : Reg) :
    decode? (Encode.alu op (Encode.reg rd) (Encode.reg rs1) (Encode.reg rs2)) =
      some (.alu op rd rs1 rs2) := by
  have found : ∀ s2 s1 d, Decode.aluOp? (Encode.fields op.fields.1 s2 s1 op.fields.2 d
      Opcode.op.code) = some op := by
    intro s2 s1 d
    rw [Decode.aluOp?_eq_some_iff, Decode.funct7_fields, Decode.funct3_fields]
  simp only [Encode.alu, Opcode.word, Encode.reg_eq_setWidth, Encode.rType_eq_fields, decode?,
    Decode.opcode?_fields, found, Option.map_some, Decode.rd_fields, Decode.rs1_fields,
    Decode.rs2_fields]

/-- An operation on an immediate decodes to itself, the immediate cut to twelve bits. -/
theorem decode?_aluImm (op : ImmOp) (rd rs1 : Reg) (imm : Word) :
    decode? (Encode.aluImm op (Encode.reg rd) (Encode.reg rs1) imm) =
      some (.aluImm op rd rs1 (imm.signed 12)) := by
  have found : ∀ f7 s2 s1 d, Decode.immOp? (Encode.fields f7 s2 s1 op.funct3 d
      Opcode.opImm.code) = some op := by
    intro f7 s2 s1 d
    rw [Decode.immOp?_eq_some_iff, Decode.funct3_fields]
  simp only [Encode.aluImm, Opcode.word, Encode.reg_eq_setWidth, Encode.iType_eq_fields, decode?,
    Decode.opcode?_fields, Decode.opImm?, found, Decode.rd_fields, Decode.rs1_fields,
    Decode.immI_fields, Word.signExtend_twelve]

/-- As `decode?_aluImm`, for a load and its offset. -/
theorem decode?_load (op : LoadOp) (rd rs1 : Reg) (offset : Word) :
    decode? (Encode.load op (Encode.reg rd) (Encode.reg rs1) offset) =
      some (.load op rd rs1 (offset.signed 12)) := by
  have found : ∀ f7 s2 s1 d, Decode.loadOp? (Encode.fields f7 s2 s1 op.funct3 d
      Opcode.load.code) = some op := by
    intro f7 s2 s1 d
    rw [Decode.loadOp?_eq_some_iff, Decode.funct3_fields]
  simp only [Encode.load, Opcode.word, Encode.reg_eq_setWidth, Encode.iType_eq_fields, decode?,
    Decode.opcode?_fields, found, Option.map_some, Decode.rd_fields, Decode.rs1_fields,
    Decode.immI_fields, Word.signExtend_twelve]

/-- As `decode?_aluImm`, for a store. -/
theorem decode?_store (op : StoreOp) (rs2 rs1 : Reg) (offset : Word) :
    decode? (Encode.store op (Encode.reg rs2) (Encode.reg rs1) offset) =
      some (.store op rs1 rs2 (offset.signed 12)) := by
  have found : ∀ f7 s2 s1 d, Decode.storeOp? (Encode.fields f7 s2 s1 op.funct3 d
      Opcode.store.code) = some op := by
    intro f7 s2 s1 d
    rw [Decode.storeOp?_eq_some_iff, Decode.funct3_fields]
  simp only [Encode.store, Opcode.word, Encode.reg_eq_setWidth, Encode.sType_eq_fields, decode?,
    Decode.opcode?_fields, found, Option.map_some, Decode.rs1_fields, Decode.rs2_fields,
    Decode.immS_fields, Word.signExtend_twelve]

/-- As `decode?_aluImm`, for a branch, whose offset is even and has thirteen bits. -/
theorem decode?_branch (op : BranchOp) (rs1 rs2 : Reg) (offset : Word) :
    decode? (Encode.branch op (Encode.reg rs1) (Encode.reg rs2) offset) =
      some (.branch op rs1 rs2 ((offset &&& ~~~1).signed 13)) := by
  have found : ∀ f7 s2 s1 d, Decode.branchOp? (Encode.fields f7 s2 s1 op.funct3 d
      Opcode.branch.code) = some op := by
    intro f7 s2 s1 d
    rw [Decode.branchOp?_eq_some_iff, Decode.funct3_fields]
  simp only [Encode.branch, Encode.reg_eq_setWidth, Encode.bType_eq_fields, decode?,
    Decode.opcode?_fields, found, Option.map_some, Decode.rs1_fields, Decode.rs2_fields,
    Decode.immB_fields]

/-- As `decode?_branch`, for a jump of 21 bits. -/
theorem decode?_jal (rd : Reg) (offset : Word) :
    decode? (Encode.jal (Encode.reg rd) offset) = some (.jal rd ((offset &&& ~~~1).signed 21)) := by
  simp only [Encode.jal, Encode.reg_eq_setWidth, Encode.jType_eq_fields, decode?,
    Decode.opcode?_fields, Decode.rd_fields, Decode.immJ_fields]

/-- As `decode?_aluImm`, for a jump through a register. -/
theorem decode?_jalr (rd rs1 : Reg) (offset : Word) :
    decode? (Encode.jalr (Encode.reg rd) (Encode.reg rs1) offset) =
      some (.jalr rd rs1 (offset.signed 12)) := by
  have zero : (0 : Word) = (0 : BitVec 3).setWidth 32 := rfl
  simp only [Encode.jalr, Opcode.word, zero, Encode.reg_eq_setWidth, Encode.iType_eq_fields,
    decode?, Decode.opcode?_fields, Decode.funct3_fields, if_true, Decode.rd_fields,
    Decode.rs1_fields, Decode.immI_fields, Word.signExtend_twelve]

/-- As `decode?_aluImm`, for an upper immediate. -/
theorem decode?_lui (rd : Reg) (imm20 : Word) :
    decode? (Encode.lui (Encode.reg rd) imm20) = some (.lui rd (imm20 <<< 12)) := by
  simp only [Encode.lui, Opcode.word, Encode.reg_eq_setWidth, Encode.uType_eq_fields, decode?,
    Decode.opcode?_fields, Decode.rd_fields, Decode.immU_fields, Decode.immU_eq_shiftLeft]

/-- The call of the environment decodes to itself. -/
theorem decode?_ecall : decode? Encode.ecall = some .ecall := by
  decide

end Instr

end BareC
