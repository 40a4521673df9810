import BareC.Assembly.Instructions
import BareC.Proofs.Isa.Fields

/-!
# Immediates of generated code

An instruction gets back the immediate that the generator gave it if that fits in its field. The
constants of the generator do, the offsets of slots do because there are not too many slots, and the
offsets of jumps do because there is not too much code. A constant of a program need not fit: it is
loaded in two parts, which add up to it.

The bounds that are used are the largest number of slots and the largest number of words that a jump
reaches over. That generated code keeps to them is not shown in this module, and neither is anything
about constants that the machine computes.
-/

namespace BareC

namespace Word

/-! ## Twelve bits -/

/-- A word that fits twelve bits is its own signed value. -/
theorem signed_of_isImm12 {v : Word} (h : Encode.isImm12 v = true) : v.signed 12 = v := by
  have bounds : -2048 ≤ v.toInt ∧ v.toInt ≤ 2047 := by simpa [Encode.isImm12] using h
  exact signed_eq_self (by decide) (by omega) (by omega)

/-- Shifting there and back takes the signed value of twelve bits. -/
theorem sshiftRight_shiftLeft_twenty (v : Word) : (v <<< 20).sshiftRight 20 = v.signed 12 := by
  apply BitVec.eq_of_getLsbD_eq
  intro i hi
  simp only [signed, BitVec.getLsbD_sshiftRight, BitVec.getLsbD_shiftLeft,
    BitVec.getLsbD_signExtend, BitVec.getLsbD_setWidth, BitVec.msb_shiftLeft,
    BitVec.msb_setWidth, hi]
  grind

/-- The signed value has the same low bits. -/
theorem setWidth_signed (v : Word) : (v.signed 12).setWidth 12 = v.setWidth 12 := by
  apply BitVec.eq_of_getLsbD_eq
  intro i hi
  simp only [signed, BitVec.getLsbD_signExtend, BitVec.getLsbD_setWidth, hi]
  grind

/-- Taking the signed value again changes nothing. -/
theorem signed_signed (v : Word) : (v.signed 12).signed 12 = v.signed 12 := by
  rw [signed, setWidth_signed, signed]

/-- A word with twelve zero bits at its end is its upper part. -/
theorem shiftLeft_ushiftRight_twelve {v : Word} (h : v.setWidth 12 = 0) :
    (v >>> 12) <<< 12 = v := by
  apply BitVec.eq_of_getLsbD_eq
  intro i hi
  have low : (v.setWidth 12).getLsbD i = false := by rw [h]; exact BitVec.getLsbD_zero
  simp only [BitVec.getLsbD_shiftLeft, BitVec.getLsbD_ushiftRight, BitVec.getLsbD_setWidth, hi]
    at low ⊢
  grind

/-- The two parts of a constant add up to it. -/
theorem upperLower_add (v : Word) :
    (Encode.upperLower v).1 <<< 12 + (Encode.upperLower v).2 = v := by
  have sum : (v - v.signed 12).setWidth 12 + (v.signed 12).setWidth 12 =
      0#12 + (v.signed 12).setWidth 12 := by
    rw [← BitVec.setWidth_add _ _ (by decide), BitVec.sub_add_cancel, setWidth_signed,
      BitVec.zero_add]
  have zero : (v - v.signed 12).setWidth 12 = 0#12 := (BitVec.add_left_inj _).mp sum
  simp only [Encode.upperLower, sshiftRight_shiftLeft_twenty]
  rw [shiftLeft_ushiftRight_twelve zero, BitVec.sub_add_cancel]

/-- The lower half of a split word fits twelve bits. -/
theorem upperLower_signed (v : Word) :
    (Encode.upperLower v).2.signed 12 = (Encode.upperLower v).2 := by
  simp only [Encode.upperLower, sshiftRight_shiftLeft_twenty, signed_signed]

end Word

namespace Assembly

/-! ## Slots -/

/-- A slot's place is four bytes below the one before it. -/
theorem slotPlace_eq (slot : Nat) :
    slotPlace slot = BitVec.ofInt 32 (-((4 * (slot + 1) : Nat) : Int)) := by
  rw [BitVec.ofInt_neg, BitVec.ofInt_natCast, BitVec.ofNat_mul, BitVec.ofNat_add, slotPlace,
    BitVec.neg_mul]
  rfl

/-- The places of 512 slots fit twelve bits. -/
theorem slotPlace_signed {slot : Nat} (h : slot < 512) :
    (slotPlace slot).signed 12 = slotPlace slot := by
  have value : (slotPlace slot).toInt = -((4 * (slot + 1) : Nat) : Int) := by
    rw [slotPlace_eq, BitVec.toInt_ofInt_eq_self (by decide) (by omega) (by omega)]
  exact Word.signed_eq_self (by decide) (by omega) (by omega)

/-! ## Jumps -/

/-- The offset between two words is a multiple of four. -/
theorem offset_even (i j : Nat) : offset i j &&& ~~~1 = offset i j := by
  have shift : offset i j = BitVec.ofInt 32 ((j : Int) - i) <<< 2 := by
    rw [offset, BitVec.ofInt_mul, ← BitVec.mul_twoPow_eq_shiftLeft]
    rfl
  apply BitVec.eq_of_getLsbD_eq
  intro k hk
  have one : (1 : Word) = (BitVec.allOnes 1).setWidth 32 := rfl
  rw [shift]
  simp only [one, BitVec.getLsbD_and, BitVec.getLsbD_not, BitVec.getLsbD_setWidth,
    BitVec.getLsbD_allOnes, BitVec.getLsbD_shiftLeft, hk]
  grind

/-- A jump between two words of not too much code goes where it is aimed at. -/
theorem pc_add_offset {i j : Nat} (hi : 4 * i ≤ 2 ^ 20) (hj : 4 * j < 2 ^ 20) :
    BitVec.ofNat 32 (4 * i) + (offset i j &&& ~~~1).signed 21 = BitVec.ofNat 32 (4 * j) := by
  have value : (offset i j).toInt = ((j : Int) - i) * 4 :=
    BitVec.toInt_ofInt_eq_self (by decide) (by omega) (by omega)
  rw [offset_even, Word.signed_eq_self (by decide) (by omega) (by omega), offset,
    ← BitVec.ofInt_natCast, ← BitVec.ofInt_natCast, ← BitVec.ofInt_add]
  congr 1
  omega

end Assembly

end BareC
