import BareC.Machine.Effect
import Mathlib.Algebra.Group.Int.Defs
import Mathlib.Algebra.Group.Nat.Defs

/-!
# Arithmetic of the instruction set

What the architecture says of the result of an operation is said in whole numbers
(`AluOp.Computes`): sums and products are taken modulo `2 ^ 32`, the high half of a product is the
exact product divided by `2 ^ 32` and rounded down, and division either truncates or rounds down, as
its operands are read with a sign or without. The operations on words satisfy these laws
(`AluOp.computes_eval`), and nothing else does (`AluOp.Computes.unique`).

The operations with an immediate, and the shifts by a fixed amount, are operations on registers with
one operand that stands in the instruction (`ImmOp.eval_eq`, `ShiftOp.eval_eq`).

Division by zero and the one quotient that does not fit have results of their own in the
architecture, and the laws have clauses for them. Nothing is said of flags or faults: there are none
in this arithmetic.
-/

namespace BareC

/-! ## Operations on two registers -/

/-- The one signed quotient that is no word: the least number divided by minus one. -/
def Word.Overflows (a b : Word) : Prop :=
  a.toInt = -2 ^ 31 ∧ b.toInt = -1

instance (a b : Word) : Decidable (a.Overflows b) :=
  inferInstanceAs (Decidable (_ ∧ _))

/-- The law of an operation on `a` and `b` with the result `v`. -/
def AluOp.Computes (a b v : Word) : AluOp → Prop
  | .add => v.toNat = (a.toNat + b.toNat) % 2 ^ 32
  | .sub => (v.toNat : Int) = (a.toNat - b.toNat : Int) % 2 ^ 32
  | .sll => v.toNat = a.toNat * 2 ^ (b.toNat % 32) % 2 ^ 32
  | .slt => v.toNat = if a.toInt < b.toInt then 1 else 0
  | .sltu => v.toNat = if a.toNat < b.toNat then 1 else 0
  | .xor => ∀ i, v.getLsbD i = (a.getLsbD i ^^ b.getLsbD i)
  | .srl => v.toNat = a.toNat / 2 ^ (b.toNat % 32)
  | .sra => v.toInt = a.toInt / 2 ^ (b.toNat % 32)
  | .or => ∀ i, v.getLsbD i = (a.getLsbD i || b.getLsbD i)
  | .and => ∀ i, v.getLsbD i = (a.getLsbD i && b.getLsbD i)
  | .mul => v.toNat = a.toNat * b.toNat % 2 ^ 32
  | .mulh => v.toInt = a.toInt * b.toInt / 2 ^ 32
  | .mulhsu => v.toInt = a.toInt * b.toNat / 2 ^ 32
  | .mulhu => v.toNat = a.toNat * b.toNat / 2 ^ 32
  | .div => v.toInt = if b = 0 then -1 else if a.Overflows b then a.toInt else a.toInt.tdiv b.toInt
  | .divu => v.toNat = if b = 0 then 2 ^ 32 - 1 else a.toNat / b.toNat
  | .rem => v.toInt = if b = 0 then a.toInt else if a.Overflows b then 0 else a.toInt.tmod b.toInt
  | .remu => v.toNat = if b = 0 then a.toNat else a.toNat % b.toNat

/-- The law leaves nothing open. -/
theorem AluOp.Computes.unique {op : AluOp} {a b v w : Word} (hv : op.Computes a b v)
    (hw : op.Computes a b w) : v = w := by
  cases op with
  | add | sll | slt | sltu | srl | mul | mulhu | divu | remu =>
    exact BitVec.eq_of_toNat_eq (hv.trans hw.symm)
  | sra | mulh | mulhsu | div | rem => exact BitVec.eq_of_toInt_eq (hv.trans hw.symm)
  | sub => exact BitVec.eq_of_toNat_eq (Int.ofNat.inj (hv.trans hw.symm))
  | xor | or | and => exact BitVec.eq_of_getLsbD_eq fun i _ => (hv i).trans (hw i).symm

section Results

variable (a b : Word)

/-- A truth value is one or zero. -/
theorem Word.toNat_ofBool (c : Bool) : (Word.ofBool c).toNat = if c then 1 else 0 := by
  cases c <;> rfl

/-- A whole number that a word has room for. -/
theorem Word.toInt_ofInt_of_bounds {i : Int} (low : -2 ^ 31 ≤ i) (high : i < 2 ^ 31) :
    (BitVec.ofInt 32 i).toInt = i :=
  BitVec.toInt_ofInt_eq_self (by decide) low high

/-- The signed values of a word. -/
theorem Word.toInt_bounds : -2 ^ 31 ≤ a.toInt ∧ a.toInt < 2 ^ 31 :=
  ⟨BitVec.le_toInt a, BitVec.toInt_lt⟩

/-! ### High halves of products -/

/-- The high half of a signed product. -/
theorem AluOp.toInt_mulh : (AluOp.mulh.eval a b).toInt = a.toInt * b.toInt / 2 ^ 32 := by
  have low : -(2 ^ 62) ≤ a.toInt * b.toInt := BitVec.le_toInt_mul_toInt
  have high : a.toInt * b.toInt ≤ 2 ^ 62 := BitVec.toInt_mul_toInt_le
  exact Word.toInt_ofInt_of_bounds (by omega) (by omega)

/-- The high half of a product with one signed factor. -/
theorem AluOp.toInt_mulhsu : (AluOp.mulhsu.eval a b).toInt = a.toInt * b.toNat / 2 ^ 32 := by
  obtain ⟨low, high⟩ := a.toInt_bounds
  have nonneg : (0 : Int) ≤ b.toNat := Int.natCast_nonneg _
  have small := b.isLt
  have least : -2 ^ 31 * (b.toNat : Int) ≤ a.toInt * b.toNat :=
    Int.mul_le_mul_of_nonneg_right low nonneg
  have most : a.toInt * (b.toNat : Int) ≤ (2 ^ 31 - 1) * b.toNat :=
    Int.mul_le_mul_of_nonneg_right (Int.le_sub_one_of_lt high) nonneg
  exact Word.toInt_ofInt_of_bounds (by omega) (by omega)

/-- The high half of an unsigned product. -/
theorem AluOp.toNat_mulhu : (AluOp.mulhu.eval a b).toNat = a.toNat * b.toNat / 2 ^ 32 := by
  have small : a.toNat * b.toNat < 2 ^ 32 * 2 ^ 32 := Nat.mul_lt_mul'' a.isLt b.isLt
  exact (BitVec.toNat_ofNat ..).trans (Nat.mod_eq_of_lt (Nat.div_lt_of_lt_mul small))

/-! ### Division -/

/-- The words of the overflow. -/
theorem Word.overflows_iff : a.Overflows b ↔ a = BitVec.intMin 32 ∧ b = -1#32 := by
  refine ⟨fun ⟨least, minusOne⟩ => ?_, fun ⟨least, minusOne⟩ =>
    least ▸ minusOne ▸ ⟨by decide, by decide⟩⟩
  exact ⟨BitVec.eq_of_toInt_eq (least.trans (by decide)),
    BitVec.eq_of_toInt_eq (minusOne.trans (by decide))⟩

/-- Signed division, with what the architecture fixes for zero and for overflow. -/
theorem AluOp.toInt_div : (AluOp.div.eval a b).toInt =
    if b = 0 then -1 else if a.Overflows b then a.toInt else a.toInt.tdiv b.toInt := by
  rw [AluOp.eval]
  split
  next => rfl
  next =>
    split
    next overflows =>
      obtain ⟨rfl, rfl⟩ := (Word.overflows_iff a b).mp overflows
      rw [BitVec.intMin_sdiv_neg_one]
    next fits =>
      rw [Word.overflows_iff, Decidable.not_and_iff_or_not] at fits
      exact BitVec.toInt_sdiv_of_ne_or_ne a b fits

/-- As `toInt_div`, for the remainder. -/
theorem AluOp.toInt_rem : (AluOp.rem.eval a b).toInt =
    if b = 0 then a.toInt else if a.Overflows b then 0 else a.toInt.tmod b.toInt := by
  rw [AluOp.eval]
  split
  next => rfl
  next =>
    rw [BitVec.toInt_srem]
    split
    next overflows => rw [overflows.2, Int.tmod_neg, Int.tmod_one]
    next => rfl

end Results

/-- Every operation computes what the architecture says of it. -/
theorem AluOp.computes_eval (op : AluOp) (a b : Word) : op.Computes a b (op.eval a b) := by
  cases op with
  | add => exact BitVec.toNat_add a b
  | sub =>
    have ha := a.isLt
    have hb := b.isLt
    rw [Computes, eval, BitVec.toNat_sub]
    omega
  | sll => rw [Computes, eval, BitVec.toNat_shiftLeft, Nat.shiftLeft_eq]
  | slt => rw [Computes, eval, Word.toNat_ofBool]; simp only [BitVec.slt_iff_toInt_lt]
  | sltu => rw [Computes, eval, Word.toNat_ofBool]; simp only [BitVec.ult_iff_toNat_lt]
  | xor => exact fun i => BitVec.getLsbD_xor
  | srl => rw [Computes, eval, BitVec.toNat_ushiftRight, Nat.shiftRight_eq_div_pow]
  | sra => rw [Computes, eval, BitVec.toInt_sshiftRight, Int.shiftRight_eq_div_pow]; norm_cast
  | or => exact fun i => BitVec.getLsbD_or
  | and => exact fun i => BitVec.getLsbD_and
  | mul => exact BitVec.toNat_mul a b
  | mulh => exact toInt_mulh a b
  | mulhsu => exact toInt_mulhsu a b
  | mulhu => exact toNat_mulhu a b
  | div => exact toInt_div a b
  | divu =>
    rw [Computes, eval]
    split
    next => rfl
    next => exact BitVec.toNat_udiv
  | rem => exact toInt_rem a b
  | remu =>
    rw [Computes, eval]
    split
    next => rfl
    next => exact BitVec.toNat_umod

/-! ### Quotients and remainders -/

/-- Whatever is divided by whatever, also by zero, the quotient and the remainder give the dividend
back. -/
theorem AluOp.mul_div_add_rem (a b : Word) : b * AluOp.div.eval a b + AluOp.rem.eval a b = a := by
  by_cases zero : b = 0
  · subst zero
    simp [AluOp.eval]
  · by_cases overflows : a.Overflows b
    · obtain ⟨rfl, rfl⟩ := (Word.overflows_iff a b).mp overflows
      decide
    · calc b * AluOp.div.eval a b + AluOp.rem.eval a b
          = BitVec.ofInt 32
            (b.toInt * (AluOp.div.eval a b).toInt + (AluOp.rem.eval a b).toInt) := by
            rw [BitVec.ofInt_add, BitVec.ofInt_mul, BitVec.ofInt_toInt, BitVec.ofInt_toInt,
              BitVec.ofInt_toInt]
        _ = BitVec.ofInt 32 (b.toInt * a.toInt.tdiv b.toInt + a.toInt.tmod b.toInt) := by
            rw [AluOp.toInt_div, AluOp.toInt_rem, if_neg zero, if_neg zero, if_neg overflows,
              if_neg overflows]
        _ = a := by rw [Int.mul_tdiv_add_tmod, BitVec.ofInt_toInt]

/-- Quotient and remainder give the dividend back, division by zero included. -/
theorem AluOp.mul_divu_add_remu (a b : Word) :
    b * AluOp.divu.eval a b + AluOp.remu.eval a b = a := by
  by_cases zero : b = 0
  · subst zero
    simp [AluOp.eval]
  · rw [AluOp.eval, AluOp.eval, if_neg zero, if_neg zero]
    apply BitVec.eq_of_toNat_eq
    rw [BitVec.toNat_add, BitVec.toNat_mul, BitVec.toNat_udiv, BitVec.toNat_umod, Nat.mod_add_mod,
      Nat.div_add_mod, Nat.mod_eq_of_lt a.isLt]

/-! ## Operations with an immediate -/

/-- The same operation on two registers. -/
def ImmOp.onRegisters : ImmOp → AluOp
  | .addi => .add
  | .slti => .slt
  | .sltiu => .sltu
  | .xori => .xor
  | .ori => .or
  | .andi => .and

def ShiftOp.onRegisters : ShiftOp → AluOp
  | .slli => .sll
  | .srli => .srl
  | .srai => .sra

/-- An operation on an immediate is the one on registers. -/
theorem ImmOp.eval_eq (op : ImmOp) (a imm : Word) : op.eval a imm = op.onRegisters.eval a imm := by
  cases op <;> rfl

/-- As `ImmOp.eval_eq`, for a shift by an amount. -/
theorem ShiftOp.eval_eq (op : ShiftOp) (a : Word) (amount : BitVec 5) :
    op.eval a amount = op.onRegisters.eval a (amount.setWidth 32) := by
  have small : (amount.setWidth 32).toNat % 32 = amount.toNat := by
    have := amount.isLt
    rw [BitVec.toNat_setWidth_of_le (by decide)]
    omega
  cases op <;> simp only [eval, onRegisters, AluOp.eval, small]

/-! ## Numbers from memory -/

/-- What a load makes of a number: with a sign, the upper half of its bytes' numbers are negative.
-/
def LoadOp.Extends (n : Nat) (v : Word) : LoadOp → Prop
  | .lb => v.toInt = if n < 2 ^ 7 then (n : Int) else n - 2 ^ 8
  | .lh => v.toInt = if n < 2 ^ 15 then (n : Int) else n - 2 ^ 16
  | .lw | .lbu | .lhu => v.toNat = n

/-- A number of so many bits, read with a sign. -/
theorem Word.toInt_signExtend_ofNat {bits n : Nat} (narrow : bits ≤ 32) (small : n < 2 ^ bits) :
    ((BitVec.ofNat bits n).signExtend 32).toInt =
      if 2 * n < 2 ^ bits then (n : Int) else n - (2 ^ bits : Nat) := by
  rw [BitVec.toInt_signExtend_of_le narrow, BitVec.toInt_eq_toNat_cond, BitVec.toNat_ofNat,
    Nat.mod_eq_of_lt small]

/-- A load extends what it read as the architecture says. -/
theorem LoadOp.extends_extend (op : LoadOp) {n : Nat} (small : n < 256 ^ op.width) :
    op.Extends n (op.extend n) := by
  cases op with
  | lb =>
    rw [Extends, extend, Word.toInt_signExtend_ofNat (by decide) small]
    omega
  | lh =>
    rw [Extends, extend, Word.toInt_signExtend_ofNat (by decide) small]
    omega
  | lw => exact (BitVec.toNat_ofNat ..).trans (Nat.mod_eq_of_lt small)
  | lbu => exact (BitVec.toNat_ofNat ..).trans (Nat.mod_eq_of_lt (Nat.lt_trans small (by decide)))
  | lhu => exact (BitVec.toNat_ofNat ..).trans (Nat.mod_eq_of_lt (Nat.lt_trans small (by decide)))

/-! ## Comparisons -/

/-- The operands make the branch go to its target. -/
def BranchOp.Taken (a b : Word) : BranchOp → Prop
  | .beq => a.toNat = b.toNat
  | .bne => a.toNat ≠ b.toNat
  | .blt => a.toInt < b.toInt
  | .bge => b.toInt ≤ a.toInt
  | .bltu => a.toNat < b.toNat
  | .bgeu => b.toNat ≤ a.toNat

/-- A branch is taken where the architecture says. -/
theorem BranchOp.holds_iff (op : BranchOp) (a b : Word) : op.holds a b = true ↔ op.Taken a b := by
  cases op with
  | beq => exact beq_iff_eq.trans BitVec.toNat_inj.symm
  | bne => exact bne_iff_ne.trans (not_congr BitVec.toNat_inj.symm)
  | blt => exact BitVec.slt_iff_toInt_lt
  | bge => exact BitVec.sle_iff_toInt_le
  | bltu => exact BitVec.ult_iff_toNat_lt
  | bgeu => exact BitVec.ule_iff_toNat_le

end BareC
