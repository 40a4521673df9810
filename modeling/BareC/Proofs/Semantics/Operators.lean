import BareC.Machine.Effect
import BareC.Proofs.Semantics.Evaluation

/-!
# Operators and instructions

The instructions chosen for an operator compute what the operator means. The machine works on words,
the evaluator on signed numbers; each fact here is one of the places where the two meet.

Division by zero and its overflow have the results of the architecture on both sides, and shifts
take the low five bits of their amount on both sides: the evaluator is defined that way, since the
language leaves it open.
-/

namespace BareC

namespace Word

/-- A test is the truth of what it decides. -/
theorem ofBool_eq_truth {b : Bool} {p : Prop} [Decidable p] (h : b = true ↔ p) :
    ofBool b = truth p := by
  unfold ofBool truth
  by_cases hp : p
  · rw [if_pos (h.mpr hp), if_pos hp]
  · rw [if_neg (mt h.mp hp), if_neg hp]

theorem truth_congr {p q : Prop} [Decidable p] [Decidable q] (h : p ↔ q) : truth p = truth q := by
  simp only [truth, h]

/-- A truth value is turned around by its lowest bit. -/
theorem truth_xor_one {p q : Prop} [Decidable p] [Decidable q] (h : p ↔ ¬q) :
    truth p ^^^ 1 = truth q := by
  unfold truth
  by_cases hq : q
  · rw [if_neg (fun hp => h.mp hp hq), if_pos hq]; rfl
  · rw [if_pos (h.mpr hq), if_neg hq]; rfl

/-- Less, as signed words. -/
theorem ofBool_slt (a b : Word) : ofBool (a.slt b) = truth (a.toInt < b.toInt) :=
  ofBool_eq_truth BitVec.slt_iff_toInt_lt

/-- Less than one, without a sign, is zero. -/
theorem ofBool_ult_one (a : Word) : ofBool (a.ult 1) = truth (a = 0) := by
  apply ofBool_eq_truth
  rw [BitVec.ult_iff_toNat_lt, BitVec.toNat_eq]
  exact Nat.lt_one_iff

/-- More than zero, without a sign, is not zero. -/
theorem ofBool_zero_ult (a : Word) : ofBool ((0 : Word).ult a) = truth (a ≠ 0) := by
  apply ofBool_eq_truth
  rw [BitVec.ult_iff_toNat_lt, Ne, BitVec.toNat_eq]
  exact Nat.pos_iff_ne_zero

theorem toInt_eq_zero {a : Word} : a.toInt = 0 ↔ a = 0 :=
  ⟨fun h => BitVec.eq_of_toInt_eq h, fun h => by rw [h]; rfl⟩

end Word

section Operators

variable (a b : Word)

attribute [local simp] AluOp.eval ImmOp.eval BinaryOp.eval UnaryOp.eval

theorem eval_add : AluOp.add.eval a b = BinaryOp.add.eval a b := by
  simp [BitVec.ofInt_add]

theorem eval_sub : AluOp.sub.eval a b = BinaryOp.sub.eval a b := by
  apply BitVec.eq_of_toInt_eq
  simp [BitVec.toInt_sub]

theorem eval_mul : AluOp.mul.eval a b = BinaryOp.mul.eval a b := by
  simp [BitVec.ofInt_mul]

theorem eval_div : AluOp.div.eval a b = BinaryOp.div.eval a b := by
  simp only [AluOp.eval, BinaryOp.eval, Word.toInt_eq_zero]
  split
  next => rfl
  next =>
    apply BitVec.eq_of_toInt_eq
    rw [BitVec.toInt_sdiv, BitVec.toInt_ofInt]

theorem eval_rem : AluOp.rem.eval a b = BinaryOp.rem.eval a b := by
  simp only [AluOp.eval, BinaryOp.eval, Word.toInt_eq_zero]
  split
  next => rfl
  next => rw [← BitVec.toInt_srem, BitVec.ofInt_toInt]

theorem eval_shl : AluOp.sll.eval a b = BinaryOp.shl.eval a b := by
  have power (n : Nat) : BitVec.ofInt 32 (2 ^ n) = BitVec.twoPow 32 n := by
    apply BitVec.eq_of_toNat_eq
    rw [BitVec.toNat_twoPow, ← BitVec.toNat_ofNat, ← BitVec.ofInt_natCast]
    simp
  rw [AluOp.eval, BinaryOp.eval, BitVec.ofInt_mul, BitVec.ofInt_toInt, power,
    BitVec.mul_twoPow_eq_shiftLeft]

theorem eval_shr : AluOp.sra.eval a b = BinaryOp.shr.eval a b := by
  rw [AluOp.eval, BinaryOp.eval, BitVec.sshiftRight, Int.shiftRight_eq_div_pow]
  simp

theorem eval_lt : AluOp.slt.eval a b = BinaryOp.lt.eval a b :=
  Word.ofBool_slt a b

theorem eval_gt : AluOp.slt.eval b a = BinaryOp.gt.eval a b :=
  Word.ofBool_slt b a

theorem eval_le : ImmOp.xori.eval (AluOp.slt.eval b a) 1 = BinaryOp.le.eval a b := by
  rw [ImmOp.eval, AluOp.eval, Word.ofBool_slt, BinaryOp.eval]
  exact Word.truth_xor_one Int.not_le.symm

theorem eval_ge : ImmOp.xori.eval (AluOp.slt.eval a b) 1 = BinaryOp.ge.eval a b := by
  rw [ImmOp.eval, AluOp.eval, Word.ofBool_slt, BinaryOp.eval]
  exact Word.truth_xor_one Int.not_le.symm

theorem eval_eq : ImmOp.sltiu.eval (AluOp.xor.eval a b) 1 = BinaryOp.eq.eval a b := by
  rw [ImmOp.eval, AluOp.eval, Word.ofBool_ult_one, BinaryOp.eval]
  exact Word.truth_congr BitVec.xor_eq_zero_iff

theorem eval_ne : AluOp.sltu.eval 0 (AluOp.xor.eval a b) = BinaryOp.ne.eval a b := by
  rw [AluOp.eval, AluOp.eval, Word.ofBool_zero_ult, BinaryOp.eval]
  exact Word.truth_congr (not_congr BitVec.xor_eq_zero_iff)

theorem eval_neg : AluOp.sub.eval 0 a = UnaryOp.neg.eval a := by
  rw [AluOp.eval, UnaryOp.eval, BitVec.ofInt_neg, BitVec.ofInt_toInt]
  exact BitVec.zero_sub a

theorem eval_not : ImmOp.sltiu.eval a 1 = UnaryOp.not.eval a :=
  Word.ofBool_ult_one a

theorem eval_bitNot : ImmOp.xori.eval a (-1) = UnaryOp.bitNot.eval a := by
  rw [ImmOp.eval, UnaryOp.eval]
  exact BitVec.xor_allOnes

end Operators

end BareC
