import BareC.Proofs.Isa.Immediates
import BareC.Proofs.Machine.Step

/-!
# Instructions of generated code

For every kind of word that the generator emits, what a machine does that comes upon it. Immediates
are the ones that the generator gave, which is why they have to fit in their fields.

There is one lemma for each kind of word, from the code that a machine carries to the machine behind
the step (`Does`). Branches are those over the next word, as the generator writes no others. Words
that the generator does not write are not covered here, only by `Architecture`.
-/

namespace BareC.Machine

variable {η : Type} {m : Machine η} {h : TrapHandler η} {words : List Word} {i : Nat}

namespace Carries

variable (hm : m.Carries words) (at_ : m.At i)

include hm at_

/-- The word of an operation on registers does what the operation does. -/
theorem does_alu {op : AluOp} {rd rs1 rs2 : Reg}
    (hw : words[i]? = some (Encode.alu op (Encode.reg rd) (Encode.reg rs1) (Encode.reg rs2))) :
    m.Does h (.alu op rd rs1 rs2) (.write rd (op.eval m.regs[rs1] m.regs[rs2]))
      (m.wrote rd (op.eval m.regs[rs1] m.regs[rs2])) :=
  hm.does at_ hw (Instr.decode?_alu ..) rfl rfl

/-- As `does_alu`, for an operation on an immediate that fits. -/
theorem does_aluImm {op : ImmOp} {rd rs1 : Reg} {imm : Word}
    (hw : words[i]? = some (Encode.aluImm op (Encode.reg rd) (Encode.reg rs1) imm))
    (fits : imm.signed 12 = imm) :
    m.Does h (.aluImm op rd rs1 imm) (.write rd (op.eval m.regs[rs1] imm))
      (m.wrote rd (op.eval m.regs[rs1] imm)) := by
  refine hm.does at_ hw ?_ rfl rfl
  rw [Instr.decode?_aluImm, fits]

/-- As `does_alu`, for an upper immediate. -/
theorem does_lui {rd : Reg} {imm20 : Word}
    (hw : words[i]? = some (Encode.lui (Encode.reg rd) imm20)) :
    m.Does h (.lui rd (imm20 <<< 12)) (.write rd (imm20 <<< 12)) (m.wrote rd (imm20 <<< 12)) :=
  hm.does at_ hw (Instr.decode?_lui ..) rfl rfl

/-- As `does_alu`, for a load inside the memory. -/
theorem does_load {rd rs1 : Reg} {offset : Word}
    (hw : words[i]? = some (Encode.load .lw (Encode.reg rd) (Encode.reg rs1) offset))
    (fits : offset.signed 12 = offset)
    (inside : (m.regs[rs1] + offset).toNat + 4 ≤ m.memory.size) :
    m.Does h (.load .lw rd rs1 offset) (.write rd (m.memory.wordAt (m.regs[rs1] + offset).toNat))
      (m.wrote rd (m.memory.wordAt (m.regs[rs1] + offset).toNat)) := by
  refine hm.does at_ hw ?_ ?_ rfl
  · rw [Instr.decode?_load, fits]
  · rw [Instr.effect, LoadOp.width, Memory.load_of_le inside]
    rfl

/-- As `does_alu`, for a store inside the memory. -/
theorem does_store {rs1 rs2 : Reg} {offset : Word}
    (hw : words[i]? = some (Encode.store .sw (Encode.reg rs2) (Encode.reg rs1) offset))
    (fits : offset.signed 12 = offset)
    (inside : (m.regs[rs1] + offset).toNat + 4 ≤ m.memory.size) :
    m.Does h (.store .sw rs1 rs2 offset) (.store (m.regs[rs1] + offset) 4 m.regs[rs2])
      (m.stored (m.regs[rs1] + offset) m.regs[rs2]) := by
  refine hm.does at_ hw ?_ ?_ rfl
  · rw [Instr.decode?_store, fits]
  · rw [Instr.effect]
    exact if_pos (decide_eq_true inside)

/-- As `does_alu`, for a branch over the next word to the one behind it. -/
theorem does_branch {op : BranchOp} {rs1 rs2 : Reg}
    (hw : words[i]? = some (Encode.branch op (Encode.reg rs1) (Encode.reg rs2) 8)) :
    m.Does h (.branch op rs1 rs2 8)
      (.goto (if op.holds m.regs[rs1] m.regs[rs2] then m.pc + 8 else m.pc + 4))
      (m.went (if op.holds m.regs[rs1] m.regs[rs2] then m.pc + 8 else m.pc + 4)) := by
  refine hm.does at_ hw ?_ rfl rfl
  rw [Instr.decode?_branch, show ((8 : Word) &&& ~~~1).signed 13 = 8 by decide]

/-- As `does_alu`, for a jump to a word of the program. -/
theorem does_jal {rd : Reg} {j : Nat}
    (hw : words[i]? = some (Encode.jal (Encode.reg rd) (Assembly.offset i j)))
    (hj : 4 * j < 2 ^ 20) :
    m.Does h (.jal rd ((Assembly.offset i j &&& ~~~1).signed 21))
      (.link rd (BitVec.ofNat 32 (4 * j))) (m.linked rd (BitVec.ofNat 32 (4 * j))) := by
  have hi : i < words.length := (List.getElem?_eq_some_iff.mp hw).1
  have small := hm.small
  have target : m.pc + (Assembly.offset i j &&& ~~~1).signed 21 = BitVec.ofNat 32 (4 * j) := by
    rw [at_]
    exact Assembly.pc_add_offset (by omega) hj
  refine hm.does at_ hw (Instr.decode?_jal ..) ?_ rfl
  rw [Instr.effect, target]

/-- As `does_alu`, for a jump through a register. -/
theorem does_jalr {rd rs1 : Reg}
    (hw : words[i]? = some (Encode.jalr (Encode.reg rd) (Encode.reg rs1) 0)) :
    m.Does h (.jalr rd rs1 0) (.link rd (m.regs[rs1] &&& ~~~1))
      (m.linked rd (m.regs[rs1] &&& ~~~1)) := by
  refine hm.does at_ hw ?_ ?_ rfl
  · rw [Instr.decode?_jalr, show (0 : Word).signed 12 = 0 by decide]
  · rw [Instr.effect, show m.regs[rs1] + 0 = m.regs[rs1] from BitVec.add_zero _]

end Carries

end BareC.Machine
