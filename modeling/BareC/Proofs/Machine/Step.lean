import BareC.Machine.Run
import BareC.Proofs.Machine.Memory

/-!
# Single steps

What one step does to a machine that carries given code: the word at the program counter is the one
the code has there, and the effect of its instruction is applied. A machine carries code as long as
nothing is stored over it.

Addresses are numbers below `2 ^ 32` here, and words only where a register or the program counter
holds one. The program counter of the instruction with number `i` is `4 * i`.

`At` and `Carries` are what an execution of generated code keeps between two steps, and each effect
has the lemma that says what becomes of them. A machine that stores over its own code is outside of
this module from then on.
-/

namespace BareC

/-! ## Words as addresses -/

namespace Word

/-- Words add as numbers do. -/
theorem ofNat_add_ofNat (a b : Nat) :
    BitVec.ofNat 32 a + BitVec.ofNat 32 b = BitVec.ofNat 32 (a + b) :=
  (BitVec.ofNat_add ..).symm

/-- Words subtract as numbers do, where the difference is one. -/
theorem ofNat_sub_ofNat {a b : Nat} (h : b ≤ a) :
    BitVec.ofNat 32 a - BitVec.ofNat 32 b = BitVec.ofNat 32 (a - b) := by
  rw [BitVec.sub_eq_iff_eq_add, ofNat_add_ofNat, Nat.sub_add_cancel h]

/-- Adding a negative word takes it away. -/
theorem ofNat_add_neg (a b : Nat) :
    BitVec.ofNat 32 (a + b) + -BitVec.ofNat 32 b = BitVec.ofNat 32 a := by
  rw [← BitVec.sub_eq_add_neg, ofNat_sub_ofNat (Nat.le_add_left b a), Nat.add_sub_cancel]

/-- A number below the bound is its word's. -/
theorem toNat_ofNat_of_lt {a : Nat} (h : a < 2 ^ 32) : (BitVec.ofNat 32 a).toNat = a := by
  rw [BitVec.toNat_ofNat, Nat.mod_eq_of_lt h]

/-- Below zero the numbers go on at the top. -/
theorem toNat_ofNat_add_neg {a b : Nat} (h : a < b) (lt : b < 2 ^ 31) :
    (BitVec.ofNat 32 a + -BitVec.ofNat 32 b).toNat = 2 ^ 32 - (b - a) := by
  have ha : (BitVec.ofNat 32 a).toNat = a := toNat_ofNat_of_lt (by omega)
  have hb : (BitVec.ofNat 32 b).toNat = b := toNat_ofNat_of_lt (by omega)
  rw [BitVec.toNat_add, BitVec.toNat_neg, ha, hb]
  omega

/-- The address of the instruction behind. -/
theorem ofNat_four_mul_succ (i : Nat) :
    BitVec.ofNat 32 (4 * i) + 4 = BitVec.ofNat 32 (4 * (i + 1)) :=
  ofNat_add_ofNat (4 * i) 4

end Word

/-! ## Registers -/

namespace Registers

variable {regs : Registers} {rd r : Reg} {v : Word}

/-- A register holds what it was set to. -/
theorem getElem_set_self : (Vector.set regs r v r.valid : Registers)[r] = v :=
  Vector.getElem_set_self r.valid

/-- Setting a register leaves the others. -/
theorem getElem_set_of_ne {s : Reg} (h : r ≠ s) :
    (Vector.set regs s v s.valid : Registers)[r] = regs[r] :=
  Vector.getElem_set_ne s.valid r.valid fun eq => h (Fin.ext eq.symm)

/-- A register holds what was written to it, the zero register apart. -/
theorem getElem_write_self (h : rd ≠ .zero) : (regs.write rd v)[rd] = v := by
  rw [write, if_neg h]
  exact getElem_set_self

/-- Writing to a register leaves the others. -/
theorem getElem_write_of_ne (h : r ≠ rd) : (regs.write rd v)[r] = regs[r] := by
  unfold write
  split
  next => rfl
  next => exact getElem_set_of_ne h

/-- No instruction changes the first register. -/
theorem getElem_write_zero : (regs.write rd v)[Reg.zero] = regs[Reg.zero] := by
  by_cases h : rd = .zero
  · rw [write, if_pos h]
  · exact getElem_write_of_ne (Ne.symm h)

end Registers

/-! ## Code in memory -/

theorem Word.length_toBytes (w : Word) : w.toBytes.length = 4 :=
  Bytes.length_ofNat ..

/-- Words are four bytes each. -/
theorem length_flatMap_toBytes (words : List Word) :
    (words.flatMap Word.toBytes).length = 4 * words.length := by
  induction words with
  | nil => rfl
  | cons w words ih =>
    rw [List.flatMap_cons, List.length_append, ih, Word.length_toBytes, List.length_cons]
    omega

/-- The bytes of a word in code. -/
theorem getElem?_flatMap_toBytes {words : List Word} {i : Nat} {w : Word}
    (h : words[i]? = some w) {j : Nat} (hj : j < 4) :
    (words.flatMap Word.toBytes)[4 * i + j]? = w.toBytes[j]? := by
  induction words generalizing i with
  | nil => cases h
  | cons u words ih =>
    rw [List.flatMap_cons]
    cases i with
    | zero =>
      rw [List.getElem?_cons_zero] at h
      cases h
      rw [List.getElem?_append_left (by rw [Word.length_toBytes]; omega), Nat.mul_zero,
        Nat.zero_add]
    | succ i =>
      rw [List.getElem?_cons_succ] at h
      rw [List.getElem?_append_right (by rw [Word.length_toBytes]; omega), Word.length_toBytes,
        show 4 * (i + 1) + j - 4 = 4 * i + j by omega]
      exact ih h

/-- The words of code that is held. -/
theorem Memory.Holds.wordAt {m : Memory} {words : List Word}
    (h : m.Holds (words.flatMap Word.toBytes)) {i : Nat} {w : Word} (hw : words[i]? = some w) :
    m.wordAt (4 * i) = w := by
  have hi : i < words.length := (List.getElem?_eq_some_iff.mp hw).1
  have whole : Memory.numberAt m.bytes (4 * i) w.toBytes.length = w.toBytes.value := by
    apply Memory.numberAt_eq_value
    intro j hj
    rw [Word.length_toBytes] at hj
    rw [h.2 _ (by rw [length_flatMap_toBytes]; omega), getElem?_flatMap_toBytes hw hj]
  rw [Word.length_toBytes, Word.toBytes, Bytes.value_ofNat] at whole
  have small : w.toNat % 256 ^ 4 = w.toNat := Nat.mod_eq_of_lt w.isLt
  rw [Memory.wordAt, whole, small, BitVec.ofNat_toNat, BitVec.setWidth_eq]

namespace Machine

variable {η : Type} {m : Machine η} {h : TrapHandler η}

/-- The machine has some words as its code, prints nothing, and its first register is zero. There is
not more code than jumps reach. -/
structure Carries (m : Machine η) (words : List Word) : Prop where
  silent : m.verbose = false
  zero : m.regs[Reg.zero] = 0
  code : m.memory.Holds (words.flatMap Word.toBytes)
  small : 4 * words.length ≤ 2 ^ 20

/-- The machine is at the instruction with number `i`. -/
def At (m : Machine η) (i : Nat) : Prop :=
  m.pc = BitVec.ofNat 32 (4 * i)

/-! ## What is left of an effect -/

/-- The machine behind an instruction that wrote a register. -/
def wrote (m : Machine η) (rd : Reg) (v : Word) : Machine η :=
  { m with regs := m.regs.write rd v, pc := m.pc + 4 }

/-- The machine behind an instruction that stored a word. -/
def stored (m : Machine η) (address v : Word) : Machine η :=
  { m with memory := m.memory.put address 4 v.toNat, pc := m.pc + 4 }

/-- The machine at another place. -/
def went (m : Machine η) (target : Word) : Machine η :=
  { m with pc := target }

/-- The machine at another place, with the way back in a register. -/
def linked (m : Machine η) (rd : Reg) (target : Word) : Machine η :=
  { m with regs := m.regs.write rd (m.pc + 4), pc := target }

section Fields

variable (m : Machine η) (rd : Reg) (address v target : Word)

@[simp] theorem regs_wrote : (m.wrote rd v).regs = m.regs.write rd v := rfl
@[simp] theorem memory_wrote : (m.wrote rd v).memory = m.memory := rfl
@[simp] theorem regs_stored : (m.stored address v).regs = m.regs := rfl
@[simp] theorem memory_stored :
    (m.stored address v).memory = m.memory.put address 4 v.toNat := rfl
@[simp] theorem regs_went : (m.went target).regs = m.regs := rfl
@[simp] theorem memory_went : (m.went target).memory = m.memory := rfl
@[simp] theorem regs_linked : (m.linked rd target).regs = m.regs.write rd (m.pc + 4) := rfl
@[simp] theorem memory_linked : (m.linked rd target).memory = m.memory := rfl

end Fields

variable {words : List Word} {i j : Nat} {w v address target : Word} {rd : Reg} {instr : Instr}

/-- Behind a write to a register the machine is at the next word. -/
theorem At.wrote (at_ : m.At i) : (m.wrote rd v).At (i + 1) := by
  rw [At, ← Word.ofNat_four_mul_succ, ← at_]
  rfl

/-- As `At.wrote`, for a store. -/
theorem At.stored (at_ : m.At i) : (m.stored address v).At (i + 1) := by
  rw [At, ← Word.ofNat_four_mul_succ, ← at_]
  rfl

/-- The word that was stored is the one at its place. -/
theorem wordAt_stored {a : Nat} (ha : address.toNat = a) (inside : a + 4 ≤ m.memory.size) :
    (m.stored address v).memory.wordAt a = v := by
  subst ha
  exact Memory.wordAt_put_self inside

/-- A store leaves the words apart from it. -/
theorem wordAt_stored_of_disjoint {a b : Nat} (ha : address.toNat = a)
    (disjoint : b + 4 ≤ a ∨ a + 4 ≤ b) :
    (m.stored address v).memory.wordAt b = m.memory.wordAt b := by
  subst ha
  exact Memory.wordAt_put_of_disjoint disjoint

/-- A store leaves memory the same outside its word. -/
theorem sameOn_stored {p : Nat → Prop} {a : Nat} (ha : address.toNat = a)
    (outside : ∀ b, p b → b < a ∨ a + 4 ≤ b) :
    m.memory.SameOn p (m.stored address v).memory := by
  subst ha
  exact .put outside

namespace Carries

/-- Code that is carried fits the memory. -/
theorem le_size (hm : m.Carries words) : 4 * words.length ≤ m.memory.size := by
  have := hm.code.1
  rwa [length_flatMap_toBytes] at this

/-- Writing to a register leaves the code carried. -/
theorem wrote (hm : m.Carries words) : (m.wrote rd v).Carries words :=
  ⟨hm.silent, Registers.getElem_write_zero.trans hm.zero, hm.code, hm.small⟩

/-- A store behind the code leaves the code alone. -/
theorem stored (hm : m.Carries words) (behind : 4 * words.length ≤ address.toNat) :
    (m.stored address v).Carries words := by
  refine ⟨hm.silent, hm.zero, Memory.holds_of_sameOn hm.code (.put fun a ha => .inl ?_), hm.small⟩
  rw [length_flatMap_toBytes] at ha
  exact Nat.lt_of_lt_of_le ha behind

/-- As `Carries.wrote`, for a jump. -/
theorem went (hm : m.Carries words) : (m.went target).Carries words :=
  ⟨hm.silent, hm.zero, hm.code, hm.small⟩

/-- As `Carries.wrote`, for a jump that links. -/
theorem linked (hm : m.Carries words) : (m.linked rd target).Carries words :=
  ⟨hm.silent, Registers.getElem_write_zero.trans hm.zero, hm.code, hm.small⟩

/-! ## Steps -/

/-- The word at the program counter is fetched as its instruction. -/
theorem fetch (hm : m.Carries words) (at_ : m.At i) (hw : words[i]? = some w)
    (hd : Instr.decode? w = some instr) : m.fetch = .ok instr := by
  have hi : i < words.length := (List.getElem?_eq_some_iff.mp hw).1
  have small := hm.small
  have pc : m.pc.toNat = 4 * i := by
    rw [at_, Word.toNat_ofNat_of_lt (by omega)]
  have fits := hm.le_size
  have word := hm.code.wordAt hw
  unfold Memory.wordAt at word
  rw [Machine.fetch, Memory.load_of_le (by omega), pc]
  simp only [word, hd]

end Carries

/-- The machine executes an instruction that has some effect, and goes on as another machine. -/
structure Does (h : TrapHandler η) (m : Machine η) (instr : Instr) (e : Effect) (m' : Machine η) :
    Prop where
  fetch : m.fetch = .ok instr
  effect : instr.effect m.pc m.regs m.memory = .ok e
  step : m.step h = (.ok .resume, m')

/-- The instruction at the program counter is executed if nothing is wrong with it. -/
theorem Carries.does (hm : m.Carries words) (at_ : m.At i) (hw : words[i]? = some w)
    (hd : Instr.decode? w = some instr) {e : Effect} {m' : Machine η}
    (he : instr.effect m.pc m.regs m.memory = .ok e) (ha : m.apply h e = (.resume, m')) :
    m.Does h instr e m' := by
  have fetched := hm.fetch at_ hw hd
  have quiet : m.noteIfVerbose (.executing m.pc instr) = m := by
    rw [noteIfVerbose, hm.silent]; rfl
  refine ⟨fetched, he, ?_⟩
  rw [step, fetched]
  simp only [quiet, he, ha]

end Machine
end BareC
