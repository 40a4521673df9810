import BareC.Proofs.Isa.Operands

/-!
# Decoding loses nothing

A word is its six fields side by side, the decoder looks at each of them, and an immediate goes back
to where it was taken from. So the word of a decoded instruction is the word it was decoded from
(`encode_of_decode?`), except for fences, of which every word with their opcode is one. With what an
encoded instruction is decoded to, this says of any word and any instruction whether the one stands
for the other (`decode?_eq_some_iff`).

The decoder refuses words that no instruction of this machine stands for. That it refuses enough is
a consequence of what is shown here, since a word that it takes is the word of what it made of it.
Fences are the one exception: of the many words that are fences only one is written again.
-/

namespace BareC

namespace Decode

variable (w : Word)

/-- A word is its fields. -/
theorem fields_self :
    Encode.fields (funct7 w) (w.extractLsb' 20 5) (w.extractLsb' 15 5) (funct3 w)
      (w.extractLsb' 7 5) (w.extractLsb' 0 7) = w := by
  apply BitVec.eq_of_getLsbD_eq
  intro i hi
  simp only [Encode.fields, funct7, funct3, BitVec.getLsbD_extractLsb', BitVec.getLsbD_append]
  grind

/-- The target register, encoded again, is its field. -/
@[simp]
theorem reg_rd : Encode.reg (rd w) = (w.extractLsb' 7 5).setWidth 32 := by
  rw [Encode.reg_eq_setWidth, rd, BitVec.ofFin_toFin]

/-- As `reg_rd`, for the first source. -/
@[simp]
theorem reg_rs1 : Encode.reg (rs1 w) = (w.extractLsb' 15 5).setWidth 32 := by
  rw [Encode.reg_eq_setWidth, rs1, BitVec.ofFin_toFin]

/-- As `reg_rd`, for the second. -/
@[simp]
theorem reg_rs2 : Encode.reg (rs2 w) = (w.extractLsb' 20 5).setWidth 32 := by
  rw [Encode.reg_eq_setWidth, rs2, BitVec.ofFin_toFin]

/-! ### Immediates go back to where they were -/

/-- The bits of the immediate, in the fields that it was taken from, make up the word again. -/
theorem fields_immI :
    Encode.fields ((immI w).extractLsb' 5 7) ((immI w).extractLsb' 0 5)
      (w.extractLsb' 15 5) (funct3 w) (w.extractLsb' 7 5) (w.extractLsb' 0 7) = w := by
  apply BitVec.eq_of_getLsbD_eq
  intro i hi
  -- Bounds become conditions, so that the cases of the concatenation settle them.
  simp only [Encode.fields, immI, funct3, BitVec.getLsbD_extractLsb', BitVec.getLsbD_append,
    BitVec.getLsbD_signExtend, ← Bool.if_false_right]
  grind

/-- A store's immediate, encoded again with the other fields, gives the word back. -/
theorem fields_immS :
    Encode.fields ((immS w).extractLsb' 5 7) (w.extractLsb' 20 5) (w.extractLsb' 15 5) (funct3 w)
      ((immS w).extractLsb' 0 5) (w.extractLsb' 0 7) = w := by
  apply BitVec.eq_of_getLsbD_eq
  intro i hi
  simp only [Encode.fields, immS, funct3, BitVec.getLsbD_extractLsb', BitVec.getLsbD_append,
    BitVec.getLsbD_signExtend, ← Bool.if_false_right]
  grind

/-- As `fields_immS`, for a branch. -/
theorem fields_immB :
    Encode.fields ((immB w).extractLsb' 12 1 ++ (immB w).extractLsb' 5 6) (w.extractLsb' 20 5)
      (w.extractLsb' 15 5) (funct3 w) ((immB w).extractLsb' 1 4 ++ (immB w).extractLsb' 11 1)
      (w.extractLsb' 0 7) = w := by
  apply BitVec.eq_of_getLsbD_eq
  intro i hi
  simp only [Encode.fields, immB, funct3, BitVec.getLsbD_extractLsb', BitVec.getLsbD_append,
    BitVec.getLsbD_signExtend, ← Bool.if_false_right]
  grind

/-- As `fields_immS`, for a jump. -/
theorem fields_immJ :
    Encode.fields ((immJ w).extractLsb' 20 1 ++ (immJ w).extractLsb' 5 6)
      ((immJ w).extractLsb' 1 4 ++ (immJ w).extractLsb' 11 1) ((immJ w).extractLsb' 15 5)
      ((immJ w).extractLsb' 12 3) (w.extractLsb' 7 5) (w.extractLsb' 0 7) = w := by
  apply BitVec.eq_of_getLsbD_eq
  intro i hi
  simp only [Encode.fields, immJ, BitVec.getLsbD_extractLsb', BitVec.getLsbD_append,
    BitVec.getLsbD_signExtend, ← Bool.if_false_right]
  grind

/-- As `fields_immS`, for an upper immediate. -/
theorem fields_immU :
    Encode.fields ((immU w >>> 12).extractLsb' 13 7) ((immU w >>> 12).extractLsb' 8 5)
      ((immU w >>> 12).extractLsb' 3 5) ((immU w >>> 12).extractLsb' 0 3) (w.extractLsb' 7 5)
      (w.extractLsb' 0 7) = w := by
  apply BitVec.eq_of_getLsbD_eq
  intro i hi
  simp only [Encode.fields, immU, BitVec.getLsbD_extractLsb', BitVec.getLsbD_append,
    BitVec.getLsbD_ushiftRight, ← Bool.if_false_right]
  grind

end Decode

namespace Instr

open Decode

variable {w : Word} {i : Instr}

/-- A decoded operation on an immediate encodes to its word. -/
theorem encode_of_opImm? (opcode : Opcode.opImm.code = w.extractLsb' 0 7)
    (decoded : opImm? w = some i) : i.encode = w := by
  rw [opImm?] at decoded
  split at decoded
  next op found =>
    cases decoded
    have funct3 : op.funct3 = funct3 w := immOp?_eq_some_iff.mp found
    rw [encode, Encode.aluImm, Opcode.word, reg_rd, reg_rs1, funct3, Encode.iType_eq_fields,
      opcode, fields_immI]
  next =>
    obtain ⟨op, found, rfl⟩ := Option.map_eq_some_iff.mp decoded
    have fields : op.fields = (funct7 w, funct3 w) := shiftOp?_eq_some_iff.mp found
    rw [encode, Opcode.word, reg_rd, reg_rs1, fields, Encode.rType_eq_fields, opcode,
      fields_self]

/-- As `encode_of_opImm?`, for the calls of the environment. -/
theorem encode_of_system? (decoded : system? w = some i) : i.encode = w := by
  rw [system?] at decoded
  split at decoded
  next isCall =>
    cases decoded
    exact isCall.symm
  next =>
    split at decoded
    next isBreak =>
      cases decoded
      exact isBreak.symm
    next => cases decoded

/-- A decoded instruction is encoded as the word it was decoded from. -/
theorem encode_of_decode? (decoded : decode? w = some i) (notFence : i ≠ .fence) :
    i.encode = w := by
  cases found : opcode? w with
  | none => rw [decode?, found] at decoded; cases decoded
  | some o =>
    have opcode : o.code = w.extractLsb' 0 7 := opcode?_eq_some_iff.mp found
    rw [decode?, found] at decoded
    cases o with
    | op =>
      obtain ⟨op, found, rfl⟩ := Option.map_eq_some_iff.mp decoded
      have fields : op.fields = (funct7 w, funct3 w) := aluOp?_eq_some_iff.mp found
      rw [encode, Encode.alu, Opcode.word, reg_rd, reg_rs1, reg_rs2, fields,
        Encode.rType_eq_fields, opcode, fields_self]
    | opImm => exact encode_of_opImm? opcode decoded
    | load =>
      obtain ⟨op, found, rfl⟩ := Option.map_eq_some_iff.mp decoded
      have funct3 : op.funct3 = funct3 w := loadOp?_eq_some_iff.mp found
      rw [encode, Encode.load, Opcode.word, reg_rd, reg_rs1, funct3,
        Encode.iType_eq_fields, opcode, fields_immI]
    | store =>
      obtain ⟨op, found, rfl⟩ := Option.map_eq_some_iff.mp decoded
      have funct3 : op.funct3 = funct3 w := storeOp?_eq_some_iff.mp found
      rw [encode, Encode.store, Opcode.word, reg_rs1, reg_rs2, funct3,
        Encode.sType_eq_fields, opcode, fields_immS]
    | branch =>
      obtain ⟨op, found, rfl⟩ := Option.map_eq_some_iff.mp decoded
      have funct3 : op.funct3 = funct3 w := branchOp?_eq_some_iff.mp found
      rw [encode, Encode.branch, reg_rs1, reg_rs2, funct3, Encode.bType_eq_fields,
        opcode, fields_immB]
    | jal =>
      cases decoded
      rw [encode, Encode.jal, reg_rd, Encode.jType_eq_fields, opcode, fields_immJ]
    | jalr =>
      dsimp only at decoded
      split at decoded
      next isJalr =>
        cases decoded
        have zero : (0 : Word) = (funct3 w).setWidth 32 := by rw [isJalr]; rfl
        rw [encode, Encode.jalr, Opcode.word, reg_rd, reg_rs1, zero, Encode.iType_eq_fields, opcode,
          fields_immI]
      next => cases decoded
    | lui =>
      cases decoded
      rw [encode, Encode.lui, Opcode.word, reg_rd, Encode.uType_eq_fields, opcode, fields_immU]
    | auipc =>
      cases decoded
      rw [encode, Opcode.word, reg_rd, Encode.uType_eq_fields, opcode, fields_immU]
    | miscMem => cases decoded; exact absurd rfl notFence
    | system => exact encode_of_system? decoded

/-- Of a fence nothing but the opcode is looked at. -/
theorem decode?_eq_fence_iff :
    decode? w = some .fence ↔ w.extractLsb' 0 7 = Opcode.miscMem.code := by
  constructor
  · intro decoded
    cases found : opcode? w with
    | none => rw [decode?, found] at decoded; cases decoded
    | some o =>
      rw [decode?, found] at decoded
      cases o with
      | miscMem => exact (opcode?_eq_some_iff.mp found).symm
      | opImm =>
        dsimp only [opImm?] at decoded
        split at decoded <;> simp at decoded
      | jalr => simp at decoded
      | system =>
        dsimp only [system?] at decoded
        split at decoded
        next => cases decoded
        next => split at decoded <;> cases decoded
      | op | load | store | branch | jal | lui | auipc => simp at decoded
  · intro opcode
    have found : opcode? w = some .miscMem := opcode?_eq_some_iff.mpr opcode.symm
    rw [decode?, found]

/-- Whether a word stands for an instruction. -/
theorem decode?_eq_some_iff :
    decode? w = some i ↔
      i.InRange ∧ if i = .fence then w.extractLsb' 0 7 = Opcode.miscMem.code else i.encode = w := by
  split
  next isFence =>
    rw [isFence, decode?_eq_fence_iff]
    exact (and_iff_right trivial).symm
  next notFence =>
    constructor
    · intro decoded
      have encoded := encode_of_decode? decoded notFence
      have kept : i.cut = i := Option.some.inj ((decode?_encode i).symm.trans (encoded ▸ decoded))
      exact ⟨kept ▸ inRange_cut i, encoded⟩
    · rintro ⟨fits, rfl⟩
      rw [decode?_encode, cut_eq_self fits]

/-- Decoding loses nothing: a decoded instruction that is no fence is encoded as the word it was
decoded from, and as no other. Its registers and its other operands are in the ranges of their
fields. -/
theorem lossless_of_decode? (decoded : decode? w = some i) :
    (i ≠ .fence → i.encode = w) ∧ (i ≠ .fence → ∀ v, decode? v = some i → v = w) ∧
      (∀ r ∈ i.registers, r.val < 32) ∧ i.InRange := by
  refine ⟨encode_of_decode? decoded, fun notFence v other => ?_, fun r _ => r.valid,
    (decode?_eq_some_iff.mp decoded).1⟩
  exact (encode_of_decode? other notFence).symm.trans (encode_of_decode? decoded notFence)

/-- A branch as far back as one goes, which has bits in all the places that its offset is taken to.
-/
theorem lossless_farBranch :
    decode? 0x80b50063 = some (.branch .beq 10 11 (-4096)) ∧
      (Instr.branch .beq 10 11 (-4096)).encode = 0x80b50063 ∧
      ∀ v, decode? v = some (.branch .beq 10 11 (-4096)) → v = 0x80b50063 := by
  have decoded : decode? 0x80b50063 = some (.branch .beq 10 11 (-4096)) := by decide
  obtain ⟨encoded, only, -, -⟩ := lossless_of_decode? decoded
  exact ⟨decoded, encoded (by decide), only (by decide)⟩

end Instr

end BareC
