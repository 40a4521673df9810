import BareC.Isa.Listing
import BareC.Proofs.Isa.Reencoding
import Mathlib.Data.List.Nodup
import Mathlib.Data.List.TakeWhile
import Std.Data.String.ToInt

/-!
# What a listing tells

A line of a listing stands for one instruction. Its mnemonic ends at the first space and belongs to
one operation only; what stands behind it is put together from operands without commas, so it falls
apart into them again; and each of them is a register, a number or both, written so that it can be
told what they are. The operands that a word can hold are written without loss, so the line tells
the word as well (`Instr.eq_of_text`), unless it is that of a fence, for which there are many.

Numbers are told by their digits (`toDigits_injective`), in decimal or in hexadecimal, and registers
by a table of names without doubles. The proof never writes a line out; it takes lines apart.

Lines of words that do not decode are no lines of this kind, and nothing is said about them. Nor is
it said that a line could be read by another assembler: only that it tells its word.
-/

namespace BareC

/-! ## Texts that fall apart again -/

/-- A text is cut at the first of some characters in one way. -/
theorem cut_unique {c : Char} {a b x y : List Char} (ha : c ∉ a) (hb : c ∉ b)
    (same : a ++ c :: x = b ++ c :: y) : a = b ∧ x = y := by
  induction a generalizing b with
  | nil =>
    cases b with
    | nil => exact ⟨rfl, (List.cons.inj same).2⟩
    | cons d b => exact absurd ((List.cons.inj same).1 ▸ List.mem_cons_self) hb
  | cons d a ih =>
    cases b with
    | nil => exact absurd ((List.cons.inj same).1 ▸ List.mem_cons_self) ha
    | cons d' b =>
      obtain ⟨rfl, rest⟩ := List.cons.inj same
      obtain ⟨rfl, rfl⟩ := ih (mt (List.mem_cons_of_mem d) ha) (mt (List.mem_cons_of_mem d) hb) rest
      exact ⟨rfl, rfl⟩

/-- Texts without commas that are joined by commas are told apart. -/
theorem join_unique {xs ys : List String} (hx : ∀ x ∈ xs, ',' ∉ x.toList)
    (hy : ∀ y ∈ ys, ',' ∉ y.toList) (count : xs.length = ys.length)
    (same : ", ".intercalate xs = ", ".intercalate ys) : xs = ys := by
  induction xs generalizing ys with
  | nil => exact (List.eq_nil_of_length_eq_zero count.symm).symm
  | cons x xs ih =>
    obtain ⟨y, ys, rfl⟩ := List.exists_cons_of_length_eq_add_one count.symm
    cases xs with
    | nil =>
      obtain rfl := List.eq_nil_of_length_eq_zero (Nat.succ.inj count).symm
      rw [String.intercalate_singleton, String.intercalate_singleton] at same
      rw [same]
    | cons x' xs =>
      obtain ⟨y', ys, rfl⟩ := List.exists_cons_of_length_eq_add_one (Nat.succ.inj count).symm
      rw [String.intercalate_cons_cons, String.intercalate_cons_cons, ← String.toList_inj,
        String.append_assoc, String.append_assoc, String.toList_append, String.toList_append,
        String.toList_append, String.toList_append] at same
      obtain ⟨first, rest⟩ := cut_unique (hx x List.mem_cons_self) (hy y List.mem_cons_self) same
      rw [String.toList_inj.mp first, ih (fun z mem => hx z (List.mem_cons_of_mem x mem))
        (fun z mem => hy z (List.mem_cons_of_mem y mem)) (Nat.succ.inj count)
        (String.toList_inj.mp (List.cons.inj rest).2)]

/-! ## Numbers -/

/-- The digits that numbers are written with. -/
def IsDigit (c : Char) : Prop :=
  ∃ d < 16, c = Nat.digitChar d

instance : DecidablePred IsDigit := fun c =>
  inferInstanceAs (Decidable (∃ d < 16, c = Nat.digitChar d))

/-- Digits up to sixteen are written differently. -/
theorem digitChar_injective : ∀ d < 16, ∀ e < 16, Nat.digitChar d = Nat.digitChar e → d = e := by
  decide

section Digits

variable {b : Nat} (low : 1 < b) (high : b ≤ 16)
include low high

/-- The digits of a number are digits. -/
theorem isDigit_of_mem_toDigits {n : Nat} {c : Char} (mem : c ∈ Nat.toDigits b n) : IsDigit c := by
  induction n using Nat.strongRecOn with
  | ind n ih =>
    rw [Nat.toDigits_eq_if low] at mem
    split at mem
    next small => exact ⟨n, Nat.lt_of_lt_of_le small high, List.mem_singleton.mp mem⟩
    next large =>
      rcases List.mem_append.mp mem with front | last
      · exact ih (n / b) (Nat.div_lt_self (by omega) low) front
      · have lt := Nat.mod_lt n (Nat.lt_trans Nat.zero_lt_one low)
        exact ⟨n % b, Nat.lt_of_lt_of_le lt high, List.mem_singleton.mp last⟩

/-- The digits of a number tell the number. -/
theorem toDigits_injective {m n : Nat} (same : Nat.toDigits b m = Nat.toDigits b n) : m = n := by
  induction m using Nat.strongRecOn generalizing n with
  | ind m ih =>
    rw [Nat.toDigits_eq_if low, Nat.toDigits_eq_if (n := n) low] at same
    split at same
    next small =>
      split at same
      next => exact digitChar_injective m (by omega) n (by omega) (List.cons.inj same).1
      next =>
        exact absurd (List.append_inj' ((List.nil_append _).trans same) rfl).1.symm
          Nat.toDigits_ne_nil
    next large =>
      split at same
      next =>
        exact absurd (List.append_inj' (same.trans (List.nil_append _).symm) rfl).1
          Nat.toDigits_ne_nil
      next =>
        obtain ⟨front, last⟩ := List.append_inj' same rfl
        have pos : 0 < b := Nat.lt_trans Nat.zero_lt_one low
        have quotient : m / b = n / b := ih (m / b) (Nat.div_lt_self (by omega) low) front
        have remainder : m % b = n % b :=
          digitChar_injective _ (Nat.lt_of_lt_of_le (Nat.mod_lt m pos) high) _
            (Nat.lt_of_lt_of_le (Nat.mod_lt n pos) high) (List.cons.inj last).1
        rw [← Nat.div_add_mod m b, quotient, remainder, Nat.div_add_mod]

end Digits

/-- No comma is among the digits of a number. -/
theorem comma_notMem_toDigits {b : Nat} (low : 1 < b) (high : b ≤ 16) (n : Nat) :
    ',' ∉ Nat.toDigits b n :=
  mt (isDigit_of_mem_toDigits low high) (by decide)

/-- Of an integer, nothing but digits and a minus sign is written. -/
theorem notMem_repr {c : Char} (noDigit : ¬ IsDigit c) (noSign : c ≠ '-') (n : Int) :
    c ∉ n.repr.toList := by
  have digits : ∀ k : Nat, c ∉ k.repr.toList := by
    intro k
    rw [Nat.repr_eq_ofList_toDigits, String.toList_ofList]
    exact mt (isDigit_of_mem_toDigits (by decide) (by decide)) noDigit
  rw [Int.repr_eq_if]
  split
  next => exact digits _
  next =>
    rw [String.toList_append, List.mem_append, not_or]
    exact ⟨mt List.mem_singleton.mp noSign, digits _⟩

/-- No comma is in the text of an integer. -/
theorem comma_notMem_repr (n : Int) : ',' ∉ n.repr.toList :=
  notMem_repr (by decide) (by decide) n

/-! ## Operands -/

namespace Reg

/-- No comma is in the name of a register. -/
theorem comma_notMem_name : ∀ r : Reg, ',' ∉ r.name.toList := by
  decide +kernel

/-- Registers are told by their names. -/
theorem name_inj {r s : Reg} : r.name = s.name ↔ r = s := by
  have injective : ∀ r s : Reg, r.name = s.name → r = s := by decide +kernel
  exact ⟨injective r s, congrArg name⟩

end Reg

section Operands

variable {v w : Word} {r s : Reg}

/-- Words are told by their signed values. -/
theorem toString_toInt_inj : toString v.toInt = toString w.toInt ↔ v = w := by
  rw [Int.toString_eq_repr, Int.toString_eq_repr, Int.repr_inj, BitVec.toInt_inj]

/-- Amounts of a shift are told by their values. -/
theorem toString_toNat_inj {a b : BitVec 5} : toString a.toNat = toString b.toNat ↔ a = b := by
  rw [Nat.toString_eq_repr, Nat.toString_eq_repr, Nat.repr_inj, BitVec.toNat_inj]

/-- An offset from a register is written without a comma. -/
theorem comma_notMem_baseText : ',' ∉ (baseText v r).toList := by
  simp [baseText, comma_notMem_repr, Reg.comma_notMem_name]

/-- The number ends where the bracket is. -/
theorem baseText_inj : baseText v r = baseText w s ↔ v = w ∧ r = s := by
  constructor
  · intro same
    rw [baseText, baseText, String.append_left_inj, String.append_assoc, String.append_assoc,
      Int.toString_eq_repr, Int.toString_eq_repr, ← String.toList_inj, String.toList_append,
      String.toList_append, String.toList_append, String.toList_append] at same
    have bracket : ∀ n : Int, '(' ∉ n.repr.toList := notMem_repr (by decide) (by decide)
    obtain ⟨offset, base⟩ := cut_unique (bracket v.toInt) (bracket w.toInt) same
    exact ⟨BitVec.toInt_inj.mp (Int.repr_inj.mp (String.toList_inj.mp offset)),
      Reg.name_inj.mp (String.toList_inj.mp base)⟩
  · rintro ⟨rfl, rfl⟩
    rfl

/-- A distance is written without a comma. -/
theorem comma_notMem_relativeText : ',' ∉ (relativeText v).toList := by
  unfold relativeText signedText
  split <;> simp [comma_notMem_repr]

/-- A number and its sign are told by one another. -/
theorem signedText_inj {m n : Int} : signedText m = signedText n ↔ m = n := by
  have plus : ∀ k : Int, k < 0 → ∀ s : String, toString k ≠ "+" ++ s := by
    intro k negative s same
    rw [Int.toString_eq_repr, Int.repr_eq_if, if_neg (Int.not_le.mpr negative), ← String.toList_inj,
      String.toList_append, String.toList_append] at same
    exact absurd (List.cons.inj same).1 (by decide)
  constructor
  · intro same
    unfold signedText at same
    split at same
    next negative =>
      split at same
      next =>
        rw [Int.toString_eq_repr, Int.toString_eq_repr] at same
        exact Int.repr_inj.mp same
      next => exact absurd same (plus m negative _)
    next =>
      split at same
      next negative => exact absurd same.symm (plus n negative _)
      next =>
        rw [Int.toString_eq_repr, Int.toString_eq_repr] at same
        exact Int.repr_inj.mp ((String.append_right_inj "+").mp same)
  · rintro rfl
    rfl

/-- Distances are told by their texts. -/
theorem relativeText_inj : relativeText v = relativeText w ↔ v = w := by
  rw [relativeText, relativeText, String.append_right_inj, signedText_inj, BitVec.toInt_inj]

/-- An upper immediate is written without a comma. -/
theorem comma_notMem_upperText : ',' ∉ (upperText v).toList := by
  simp [upperText, hexText, comma_notMem_toDigits]

/-- Upper immediates are told by their texts, up to the bits that are not written. -/
theorem upperText_inj : upperText v = upperText w ↔ v >>> 12 = w >>> 12 := by
  rw [upperText, upperText, String.append_right_inj]
  constructor
  · intro same
    exact BitVec.eq_of_toNat_eq
      (toDigits_injective (by decide) (by decide) (String.ofList_inj.mp same))
  · intro same
    rw [same]

end Operands

/-! ## Operations -/

namespace Instr

/-- The instruction with its operands left out. -/
def operation : Instr → Instr
  | .alu op .. => .alu op .zero .zero .zero
  | .aluImm op .. => .aluImm op .zero .zero 0
  | .shiftImm op .. => .shiftImm op .zero .zero 0
  | .load op .. => .load op .zero .zero 0
  | .store op .. => .store op .zero .zero 0
  | .branch op .. => .branch op .zero .zero 0
  | .jal .. => .jal .zero 0
  | .jalr .. => .jalr .zero .zero 0
  | .lui .. => .lui .zero 0
  | .auipc .. => .auipc .zero 0
  | .fence => .fence
  | .ecall => .ecall
  | .ebreak => .ebreak

/-- Every operation, with the operands left out. -/
def operations : List Instr :=
  [[.add, .sub, .sll, .slt, .sltu, .xor, .srl, .sra, .or, .and, .mul, .mulh, .mulhsu, .mulhu, .div,
      .divu, .rem, .remu].map fun op => Instr.alu op .zero .zero .zero,
    [.addi, .slti, .sltiu, .xori, .ori, .andi].map fun op => Instr.aluImm op .zero .zero 0,
    [.slli, .srli, .srai].map fun op => Instr.shiftImm op .zero .zero 0,
    [.lb, .lh, .lw, .lbu, .lhu].map fun op => Instr.load op .zero .zero 0,
    [.sb, .sh, .sw].map fun op => Instr.store op .zero .zero 0,
    [.beq, .bne, .blt, .bge, .bltu, .bgeu].map fun op => Instr.branch op .zero .zero 0,
    [.jal .zero 0, .jalr .zero .zero 0, .lui .zero 0, .auipc .zero 0, .fence, .ecall,
      .ebreak]].flatten

/-- Every instruction's operation is in the table of operations. -/
theorem operation_mem (i : Instr) : i.operation ∈ operations := by
  cases i with
  | alu op | aluImm op | shiftImm op | load op | store op | branch op =>
    dsimp only [operation]
    cases op <;> decide
  | _ =>
    dsimp only [operation]
    decide

/-- An instruction's operation has its mnemonic. -/
theorem mnemonic_operation (i : Instr) : i.operation.mnemonic = i.mnemonic := by
  cases i <;> rfl

/-- An instruction's operation has as many operands. -/
theorem length_operands_operation (i : Instr) :
    i.operation.operands.length = i.operands.length := by
  cases i <;> rfl

/-- No mnemonic is in the table twice. -/
theorem nodup_mnemonics : (operations.map mnemonic).Nodup := by
  decide +kernel

/-- A mnemonic ends at the first blank. -/
theorem space_notMem_mnemonic (i : Instr) : ' ' ∉ i.mnemonic.toList := by
  have all : ∀ o ∈ operations, ' ' ∉ o.mnemonic.toList := by decide +kernel
  rw [← mnemonic_operation]
  exact all _ (operation_mem i)

/-- A mnemonic belongs to one operation. -/
theorem operation_eq_of_mnemonic {i j : Instr} (same : i.mnemonic = j.mnemonic) :
    i.operation = j.operation :=
  List.inj_on_of_nodup_map nodup_mnemonics (operation_mem i) (operation_mem j)
    (by rw [mnemonic_operation, mnemonic_operation, same])

/-- An operand ends at the first comma. -/
theorem comma_notMem_operand (i : Instr) : ∀ s ∈ i.operands, ',' ∉ s.toList := by
  cases i <;>
    simp [operands, Reg.comma_notMem_name, comma_notMem_repr, comma_notMem_toDigits,
      comma_notMem_baseText, comma_notMem_relativeText, comma_notMem_upperText]

/-- The operands that a word can hold are told by how they are written. -/
theorem eq_of_operands {i j : Instr} (hi : i.InRange) (hj : j.InRange)
    (operation : i.operation = j.operation) (operands : i.operands = j.operands) : i = j := by
  cases i <;> cases j <;> cases operation <;>
    simp only [Instr.operands, List.cons.injEq, and_true, Reg.name_inj, toString_toInt_inj,
      toString_toNat_inj, baseText_inj, relativeText_inj, upperText_inj] at operands
  case fence.fence.refl | ecall.ecall.refl | ebreak.ebreak.refl => rfl
  case jal.jal.refl =>
    obtain ⟨rfl, rfl⟩ := operands
    rfl
  case lui.lui.refl | auipc.auipc.refl =>
    -- Of an upper part only the upper bits are written, but the others are zero.
    obtain ⟨rfl, upper⟩ := operands
    rw [← Word.shiftLeft_ushiftRight_twelve hi, upper, Word.shiftLeft_ushiftRight_twelve hj]
  all_goals
    obtain ⟨rfl, rfl, rfl⟩ := operands
    rfl

/-! ## Lines -/

/-- The line of an instruction without operands is its mnemonic. -/
theorem text_of_no_operands {i : Instr} (none : i.operands = []) : i.text = i.mnemonic := by
  rw [text, none]

/-- The line of any other has its operands behind it. -/
theorem text_of_operands {i : Instr} (some : i.operands ≠ []) :
    i.text = mnemonicText i.mnemonic ++ ", ".intercalate i.operands := by
  unfold text
  split
  next none => exact absurd none some
  next => rfl

/-- Behind a mnemonic there is at least one space. -/
theorem exists_mnemonicText (mnemonic : String) :
    ∃ spaces, (mnemonicText mnemonic).toList = mnemonic.toList ++ ' ' :: spaces := by
  have room :
      max 1 (mnemonicColumn - mnemonic.length) = max 1 (mnemonicColumn - mnemonic.length) - 1 + 1 :=
    (Nat.sub_add_cancel (Nat.le_max_left ..)).symm
  exact ⟨_,
    by rw [mnemonicText, String.toList_append, String.toList_ofList, room, List.replicate_succ]⟩

/-- A line begins with the mnemonic, which ends where the first space is. -/
theorem mnemonic_of_text (i : Instr) : i.text.toList.takeWhile (· != ' ') = i.mnemonic.toList := by
  have whole : ∀ c ∈ i.mnemonic.toList, (c != ' ') = true := by
    intro c mem
    exact bne_iff_ne.mpr fun space => space_notMem_mnemonic i (space ▸ mem)
  by_cases none : i.operands = []
  · rw [text_of_no_operands none]
    exact List.takeWhile_eq_self_iff.mpr whole
  · obtain ⟨spaces, column⟩ := exists_mnemonicText i.mnemonic
    rw [text_of_operands none, String.toList_append, column, List.append_assoc,
      List.takeWhile_append_of_pos whole, List.cons_append, List.takeWhile_cons_of_neg (by decide),
      List.append_nil]

/-- A line tells an instruction whose operands a word can hold. -/
theorem eq_of_text {i j : Instr} (hi : i.InRange) (hj : j.InRange)
    (same : i.text = j.text) : i = j := by
  have mnemonic : i.mnemonic = j.mnemonic := by
    rw [← String.toList_inj, ← mnemonic_of_text, same, mnemonic_of_text]
  have operation := operation_eq_of_mnemonic mnemonic
  have count : i.operands.length = j.operands.length := by
    rw [← length_operands_operation, operation, length_operands_operation]
  refine eq_of_operands hi hj operation ?_
  by_cases none : i.operands = []
  · rw [none] at count
    rw [none, List.eq_nil_of_length_eq_zero count.symm]
  · have some : j.operands ≠ [] := by
      intro none'
      rw [none'] at count
      exact none (List.eq_nil_of_length_eq_zero count)
    rw [text_of_operands none, text_of_operands some, mnemonic, String.append_right_inj] at same
    exact join_unique (comma_notMem_operand i) (comma_notMem_operand j) count same

/-- A listing is unambiguous: if the lines of two words are the same, they stand for the same
instruction, and unless that is a fence the words are the same. -/
theorem listing_unambiguous {v w : Word} {i j : Instr} (first : decode? v = some i)
    (second : decode? w = some j) (same : i.text = j.text) : i = j ∧ (i ≠ .fence → v = w) := by
  obtain rfl := eq_of_text (decode?_eq_some_iff.mp first).1 (decode?_eq_some_iff.mp second).1 same
  refine ⟨rfl, ?_⟩
  intro notFence
  rw [← encode_of_decode? first notFence, ← encode_of_decode? second notFence]

/-- Of all words, one has this line. -/
theorem listing_farBranch :
    decode? 0x80b50063 = some (.branch .beq 10 11 (-4096)) ∧
      (Instr.branch .beq 10 11 (-4096)).text = "beq  a0, a1, pc-4096" ∧
      ∀ w i, decode? w = some i → i.text = "beq  a0, a1, pc-4096" → w = 0x80b50063 := by
  have decoded : decode? 0x80b50063 = some (.branch .beq 10 11 (-4096)) := by decide
  have line : (Instr.branch .beq 10 11 (-4096)).text = "beq  a0, a1, pc-4096" := by decide +kernel
  refine ⟨decoded, line, ?_⟩
  intro w i other same
  exact ((listing_unambiguous decoded other (line.trans same.symm)).2 nofun).symm

end Instr

end BareC
