import BareC.Proofs.Isa.Immediates

/-!
# What a word can hold

Registers and shift amounts are numbers of five bits, and of the other operands a format keeps some
bits: `Instr.InRange` says which operands come back from it as they are, and `Instr.cut` what
becomes of others. An encoded instruction is read as what was cut (`decode?_encode`). The encoders
of generated code take any immediate, so what they do to those out of range is part of what is said
of them (`decode?_of_encoded`).

Cutting leaves an instruction in range alone (`cut_eq_self`) and brings any other into range
(`inRange_cut`), so what is lost can be read off. Instructions that the generator never writes, such
as fences and shifts by an amount, are among those that are decoded, and their operands are treated
alike.
-/

namespace BareC

namespace Instr

/-- The registers that an instruction works on. -/
def registers : Instr → List Reg
  | .alu _ rd rs1 rs2 => [rd, rs1, rs2]
  | .aluImm _ rd rs1 _ | .shiftImm _ rd rs1 _ | .load _ rd rs1 _ | .jalr rd rs1 _ => [rd, rs1]
  | .store _ rs1 rs2 _ | .branch _ rs1 rs2 _ => [rs1, rs2]
  | .jal rd _ | .lui rd _ | .auipc rd _ => [rd]
  | .fence | .ecall | .ebreak => []

/-- The operands that are no registers fit in their fields. -/
def InRange : Instr → Prop
  | .aluImm _ _ _ imm => -2048 ≤ imm.toInt ∧ imm.toInt ≤ 2047
  | .load _ _ _ offset | .store _ _ _ offset | .jalr _ _ offset =>
    -2048 ≤ offset.toInt ∧ offset.toInt ≤ 2047
  | .shiftImm _ _ _ amount => amount.toNat < 32
  | .branch _ _ _ offset => 2 ∣ offset.toInt ∧ -4096 ≤ offset.toInt ∧ offset.toInt ≤ 4094
  | .jal _ offset => 2 ∣ offset.toInt ∧ -2 ^ 20 ≤ offset.toInt ∧ offset.toInt ≤ 2 ^ 20 - 2
  | .lui _ imm | .auipc _ imm => imm.setWidth 12 = 0
  | .alu .. | .fence | .ecall | .ebreak => True

/-- The instruction with what its fields keep of its operands. -/
def cut : Instr → Instr
  | .aluImm op rd rs1 imm => .aluImm op rd rs1 (imm.signed 12)
  | .load op rd rs1 offset => .load op rd rs1 (offset.signed 12)
  | .store op rs1 rs2 offset => .store op rs1 rs2 (offset.signed 12)
  | .branch op rs1 rs2 offset => .branch op rs1 rs2 ((offset &&& ~~~1).signed 13)
  | .jal rd offset => .jal rd ((offset &&& ~~~1).signed 21)
  | .jalr rd rs1 offset => .jalr rd rs1 (offset.signed 12)
  | .lui rd imm => .lui rd (imm >>> 12 <<< 12)
  | .auipc rd imm => .auipc rd (imm >>> 12 <<< 12)
  | i => i

end Instr

/-! ## Immediates in range -/

namespace Word

/-- Cut to so many bits and one, a word is a signed number of them. -/
theorem signed_bounds {bits : Nat} (hbits : bits < 32) (w : Word) :
    -2 ^ bits ≤ (w.signed (bits + 1)).toInt ∧ (w.signed (bits + 1)).toInt < 2 ^ bits := by
  have value : (w.signed (bits + 1)).toInt = (w.setWidth (bits + 1)).toInt :=
    BitVec.toInt_signExtend_of_le hbits
  rw [value]
  exact ⟨BitVec.le_toInt _, BitVec.toInt_lt⟩

/-- A word is even where its lowest bit is clear. -/
theorem even_iff (w : Word) : 2 ∣ w.toInt ↔ w.getLsbD 0 = false := by
  rw [BitVec.toInt_eq_toNat_cond, BitVec.getLsbD, Nat.testBit_zero, decide_eq_false_iff_not]
  split <;> omega

/-- A word without its lowest bit is the word itself if that is even. -/
theorem clearLowest_of_even {w : Word} (even : 2 ∣ w.toInt) : w &&& ~~~1 = w := by
  have lowest := (even_iff w).mp even
  have one : (1 : Word) = (BitVec.allOnes 1).setWidth 32 := rfl
  apply BitVec.eq_of_getLsbD_eq
  intro i hi
  simp only [one, BitVec.getLsbD_and, BitVec.getLsbD_not, BitVec.getLsbD_setWidth,
    BitVec.getLsbD_allOnes, hi]
  grind

/-- Cut to so many bits and one, a word without its lowest bit is an even number of them. -/
theorem signed_clearLowest_bounds (bits : Nat) (pos : 0 < bits) (hbits : bits < 32) (w : Word) :
    2 ∣ ((w &&& ~~~1).signed (bits + 1)).toInt ∧
      -2 ^ bits ≤ ((w &&& ~~~1).signed (bits + 1)).toInt ∧
      ((w &&& ~~~1).signed (bits + 1)).toInt ≤ 2 ^ bits - 2 := by
  obtain ⟨low, high⟩ := signed_bounds hbits (w &&& ~~~1)
  have even : 2 ∣ ((w &&& ~~~1).signed (bits + 1)).toInt := by
    rw [even_iff]
    simp [-BitVec.getLsbD_eq_getElem, signed, BitVec.getLsbD_signExtend]
  have evenBound : (2 : Int) ∣ 2 ^ bits :=
    ⟨2 ^ (bits - 1), by rw [← Int.pow_succ', Nat.sub_add_cancel pos]⟩
  exact ⟨even, low, by omega⟩

/-- An even number of so many bits and one is kept. -/
theorem signed_clearLowest {bits : Nat} (hbits : bits < 32) {w : Word}
    (fits : 2 ∣ w.toInt ∧ -2 ^ bits ≤ w.toInt ∧ w.toInt ≤ 2 ^ bits - 2) :
    (w &&& ~~~1).signed (bits + 1) = w := by
  obtain ⟨even, low, high⟩ := fits
  rw [clearLowest_of_even even, signed_eq_self hbits low (by omega)]

/-- A signed number of twelve bits is kept. -/
theorem signed_twelve {w : Word} (fits : -2048 ≤ w.toInt ∧ w.toInt ≤ 2047) : w.signed 12 = w :=
  signed_eq_self (by decide) fits.1 (Int.lt_add_one_iff.mpr fits.2)

/-! ### Upper parts -/

/-- Twelve places up, the twelve lowest bits are clear. -/
theorem setWidth_shiftLeft_twelve (w : Word) : (w <<< 12).setWidth 12 = 0 := by
  apply BitVec.eq_of_getLsbD_eq
  intro i hi
  simp [hi]

/-- Only the lowest twenty bits have room above the lowest twelve. -/
theorem and_shiftLeft_twelve (w : Word) : (w &&& 0xfffff) <<< 12 = w <<< 12 := by
  have mask : (0xfffff : Word) = (BitVec.allOnes 20).setWidth 32 := rfl
  apply BitVec.eq_of_getLsbD_eq
  intro i hi
  simp only [mask, BitVec.getLsbD_shiftLeft, BitVec.getLsbD_and, BitVec.getLsbD_setWidth,
    BitVec.getLsbD_allOnes]
  grind

/-- Twenty bits go up twelve places and come back. -/
theorem ushiftRight_shiftLeft_twelve {w : Word} (fits : w.toNat < 2 ^ 20) :
    w <<< 12 >>> 12 = w := by
  apply BitVec.eq_of_toNat_eq
  rw [BitVec.toNat_ushiftRight, BitVec.toNat_shiftLeft, Nat.shiftLeft_eq,
    Nat.mod_eq_of_lt (by omega), Nat.shiftRight_eq_div_pow, Nat.mul_div_cancel _ (by decide)]

end Word

namespace Instr

/-- An instruction with its operands cut to their fields has them in range. -/
theorem inRange_cut (i : Instr) : i.cut.InRange := by
  have twelve := Word.signed_bounds (show 11 < 32 by decide)
  cases i with
  | aluImm op rd rs1 imm => exact ⟨(twelve imm).1, Int.lt_add_one_iff.mp (twelve imm).2⟩
  | load op rd rs1 offset => exact ⟨(twelve offset).1, Int.lt_add_one_iff.mp (twelve offset).2⟩
  | store op rs1 rs2 offset => exact ⟨(twelve offset).1, Int.lt_add_one_iff.mp (twelve offset).2⟩
  | jalr rd rs1 offset => exact ⟨(twelve offset).1, Int.lt_add_one_iff.mp (twelve offset).2⟩
  | shiftImm op rd rs1 amount => exact amount.isLt
  | branch op rs1 rs2 offset =>
    exact Word.signed_clearLowest_bounds 12 (by decide) (by decide) offset
  | jal rd offset => exact Word.signed_clearLowest_bounds 20 (by decide) (by decide) offset
  | lui rd imm => exact Word.setWidth_shiftLeft_twelve _
  | auipc rd imm => exact Word.setWidth_shiftLeft_twelve _
  | alu | fence | ecall | ebreak => trivial

/-- What fits in its field is kept. -/
theorem cut_eq_self {i : Instr} (fits : i.InRange) : i.cut = i := by
  cases i with
  | aluImm op rd rs1 imm => exact congrArg _ (Word.signed_twelve fits)
  | load op rd rs1 offset => exact congrArg _ (Word.signed_twelve fits)
  | store op rs1 rs2 offset => exact congrArg _ (Word.signed_twelve fits)
  | jalr rd rs1 offset => exact congrArg _ (Word.signed_twelve fits)
  | branch op rs1 rs2 offset =>
    exact congrArg _ (Word.signed_clearLowest (show 12 < 32 by decide) fits)
  | jal rd offset => exact congrArg _ (Word.signed_clearLowest (show 20 < 32 by decide) fits)
  | lui rd imm => exact congrArg _ (Word.shiftLeft_ushiftRight_twelve fits)
  | auipc rd imm => exact congrArg _ (Word.shiftLeft_ushiftRight_twelve fits)
  | alu | shiftImm | fence | ecall | ebreak => rfl

end Instr

/-! ## Encoded, then decoded -/

/-- The decoder finds the amount of a shift in the second source's field. -/
theorem Decode.amount_fields (f7 : BitVec 7) (s2 s1 d : BitVec 5) (f3 : BitVec 3) (o : BitVec 7) :
    (Encode.fields f7 s2 s1 f3 d o).extractLsb' 20 5 = s2 := by
  apply BitVec.eq_of_getLsbD_eq
  intro i hi
  simp only [Encode.fields, BitVec.getLsbD_extractLsb', BitVec.getLsbD_append, hi]
  grind

namespace Instr

/-- A shift by an amount decodes to itself. -/
theorem decode?_shiftImm (op : ShiftOp) (rd rs1 : Reg) (amount : BitVec 5) :
    decode? (Instr.shiftImm op rd rs1 amount).encode = some (.shiftImm op rd rs1 amount) := by
  have noImm : ∀ s2 s1 d, Decode.immOp? (Encode.fields op.fields.1 s2 s1 op.fields.2 d
      Opcode.opImm.code) = none := by
    intro s2 s1 d
    rw [Decode.immOp?, Decode.funct3_fields]
    cases op <;> rfl
  have found : ∀ s2 s1 d, Decode.shiftOp? (Encode.fields op.fields.1 s2 s1 op.fields.2 d
      Opcode.opImm.code) = some op := by
    intro s2 s1 d
    rw [Decode.shiftOp?_eq_some_iff, Decode.funct7_fields, Decode.funct3_fields]
  simp only [encode, Opcode.word, Encode.reg_eq_setWidth, Encode.rType_eq_fields, decode?,
    Decode.opcode?_fields, Decode.opImm?, noImm, found, Option.map_some, Decode.rd_fields,
    Decode.rs1_fields, Decode.amount_fields]

/-- As `decode?_lui`, relative to the instruction. -/
theorem decode?_auipc (rd : Reg) (imm20 : Word) :
    decode? (Encode.uType imm20 (Encode.reg rd) Opcode.auipc.word) =
      some (.auipc rd (imm20 <<< 12)) := by
  simp only [Opcode.word, Encode.reg_eq_setWidth, Encode.uType_eq_fields, decode?,
    Decode.opcode?_fields, Decode.rd_fields, Decode.immU_fields, Decode.immU_eq_shiftLeft]

/-- What comes back from a word is what its fields have kept. -/
theorem decode?_encode (i : Instr) : decode? i.encode = some i.cut := by
  cases i with
  | alu op rd rs1 rs2 => exact decode?_alu op rd rs1 rs2
  | aluImm op rd rs1 imm => exact decode?_aluImm op rd rs1 imm
  | shiftImm op rd rs1 amount => exact decode?_shiftImm op rd rs1 amount
  | load op rd rs1 offset => exact decode?_load op rd rs1 offset
  | store op rs1 rs2 offset => exact decode?_store op rs2 rs1 offset
  | branch op rs1 rs2 offset => exact decode?_branch op rs1 rs2 offset
  | jal rd offset => exact decode?_jal rd offset
  | jalr rd rs1 offset => exact decode?_jalr rd rs1 offset
  | lui rd imm => exact decode?_lui rd (imm >>> 12)
  | auipc rd imm => exact decode?_auipc rd (imm >>> 12)
  | fence | ecall | ebreak => decide

/-- The decoder undoes the encoders. Each gives back its operation, its registers and what its
format keeps of the immediate: its lowest bits with their sign, of an offset without the lowest, and
of an upper part in their place. So an immediate in range comes back as it is. -/
theorem decode?_of_encoded (rd rs1 rs2 : Reg) (imm : Word) :
    (∀ op, decode? (Encode.alu op (Encode.reg rd) (Encode.reg rs1) (Encode.reg rs2)) =
        some (.alu op rd rs1 rs2)) ∧
      (∀ op, decode? (Encode.aluImm op (Encode.reg rd) (Encode.reg rs1) imm) =
        some (.aluImm op rd rs1 (imm.signed 12))) ∧
      (∀ op, decode? (Encode.load op (Encode.reg rd) (Encode.reg rs1) imm) =
        some (.load op rd rs1 (imm.signed 12))) ∧
      (∀ op, decode? (Encode.store op (Encode.reg rs2) (Encode.reg rs1) imm) =
        some (.store op rs1 rs2 (imm.signed 12))) ∧
      (∀ op, decode? (Encode.branch op (Encode.reg rs1) (Encode.reg rs2) imm) =
        some (.branch op rs1 rs2 ((imm &&& ~~~1).signed 13))) ∧
      decode? (Encode.jal (Encode.reg rd) imm) = some (.jal rd ((imm &&& ~~~1).signed 21)) ∧
      decode? (Encode.jalr (Encode.reg rd) (Encode.reg rs1) imm) =
        some (.jalr rd rs1 (imm.signed 12)) ∧
      decode? (Encode.lui (Encode.reg rd) imm) = some (.lui rd ((imm &&& 0xfffff) <<< 12)) ∧
      decode? Encode.ecall = some .ecall ∧
      (-2048 ≤ imm.toInt ∧ imm.toInt ≤ 2047 → imm.signed 12 = imm) ∧
      (2 ∣ imm.toInt ∧ -4096 ≤ imm.toInt ∧ imm.toInt ≤ 4094 → (imm &&& ~~~1).signed 13 = imm) ∧
      (2 ∣ imm.toInt ∧ -2 ^ 20 ≤ imm.toInt ∧ imm.toInt ≤ 2 ^ 20 - 2 →
        (imm &&& ~~~1).signed 21 = imm) ∧
      (imm.toNat < 2 ^ 20 → ((imm &&& 0xfffff) <<< 12) >>> 12 = imm) := by
  have upper : (imm &&& 0xfffff) <<< 12 = imm <<< 12 := Word.and_shiftLeft_twelve imm
  refine ⟨fun op => decode?_alu op rd rs1 rs2, fun op => decode?_aluImm op rd rs1 imm,
    fun op => decode?_load op rd rs1 imm, fun op => decode?_store op rs2 rs1 imm,
    fun op => decode?_branch op rs1 rs2 imm, decode?_jal rd imm, decode?_jalr rd rs1 imm, ?_,
    decode?_ecall, ?_, ?_, ?_, ?_⟩
  · rw [upper]
    exact decode?_lui rd imm
  · exact fun bounds => Word.signed_twelve bounds
  · exact fun bounds => Word.signed_clearLowest (show 12 < 32 by decide) bounds
  · exact fun bounds => Word.signed_clearLowest (show 20 < 32 by decide) bounds
  · intro fits
    rw [upper]
    exact Word.ushiftRight_shiftLeft_twelve fits

/-- A jump as far back as one goes comes back, and one that is a byte farther goes as far forward as
one goes. -/
theorem decode?_of_encoded_farJump :
    decode? (Encode.jal (Encode.reg .ra) (-0x100000)) = some (.jal .ra (-0x100000)) ∧
      decode? (Encode.jal (Encode.reg .ra) (-0x100001)) = some (.jal .ra 0xffffe) := by
  obtain ⟨-, -, -, -, -, near, -, -, -, -, -, kept, -⟩ :=
    decode?_of_encoded .ra .zero .zero (-0x100000)
  obtain ⟨-, -, -, -, -, far, -⟩ := decode?_of_encoded .ra .zero .zero (-0x100001)
  rw [kept (by decide)] at near
  exact ⟨near, far.trans (by decide)⟩

end Instr

end BareC
