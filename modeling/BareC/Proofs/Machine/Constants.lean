import BareC.Proofs.Assembly.Drafts
import BareC.Proofs.Assembly.Placement
import BareC.Proofs.Isa.Operands
import BareC.Proofs.Machine.Halting
import BareC.Proofs.Machine.Runs

/-!
# Loading constants

A constant that fits in an immediate is added to zero. Any other is put together from its upper and
its lower part, and as the lower part is signed, the upper one is rounded to make up for it. At the
very top of the signed numbers it is rounded beyond them, and the sum wraps back to the constant.
Whatever the constant is and wherever the words that load it are, a machine that comes to them goes
on behind them with the constant in its register and with all else as it was
(`Machine.loadConst_exact`).

The words are an equation with the cases of the emitter (`link_loadConst`), and each case is one
step or two. The register may be any but the one that is always zero. What the constant is used for,
and how many of them a unit has, is left to the code around it.
-/

namespace BareC

/-! ## The parts of a constant -/

/-- Both halves of a split word fit their instructions. -/
theorem Word.upperLower_bounds (v : Word) :
    (-2048 ≤ (Encode.upperLower v).2.toInt ∧ (Encode.upperLower v).2.toInt ≤ 2047) ∧
      (Encode.upperLower v).1.toNat < 2 ^ 20 := by
  have low : (Encode.upperLower v).2 = v.signed 12 := sshiftRight_shiftLeft_twenty v
  obtain ⟨least, greatest⟩ := signed_bounds (show 11 < 32 by decide) v
  refine ⟨⟨low ▸ least, Int.lt_add_one_iff.mp (low ▸ greatest)⟩, ?_⟩
  rw [Encode.upperLower, BitVec.toNat_ushiftRight, Nat.shiftRight_eq_div_pow]
  exact Nat.div_lt_of_lt_mul (BitVec.isLt _)

/-- The parts of a constant add up to it as numbers, the lower one being signed. -/
theorem Word.upperLower_sum (v : Word) :
    (((Encode.upperLower v).1.toNat : Int) * 2 ^ 12 + (Encode.upperLower v).2.toInt) % 2 ^ 32 =
      v.toNat := by
  have sum := congrArg BitVec.toNat (upperLower_add v)
  obtain ⟨-, small⟩ := upperLower_bounds v
  rw [BitVec.toNat_add, BitVec.toNat_shiftLeft, Nat.shiftLeft_eq] at sum
  rw [BitVec.toInt_eq_toNat_cond]
  split <;> omega

/-! ## The words that load it -/

namespace Assembly

/-- The words that load a constant: one where it fits an immediate, and otherwise its upper half
and, unless that is zero, its lower. -/
theorem link_loadConst (rd v : Word) :
    (loadConst rd v).link =
      if Encode.isImm12 v then [Encode.aluImm .addi rd zero v]
      else Encode.lui rd (Encode.upperLower v).1 ::
        if (Encode.upperLower v).2 = 0 then []
          else [Encode.aluImm .addi rd rd (Encode.upperLower v).2] := by
  rw [link_eq_wordsFrom, loadConst_eq]
  split
  next => rfl
  next => split <;> rfl

/-- A constant is loaded by one word or two. -/
theorem length_link_loadConst (rd v : Word) :
    (loadConst rd v).link.length = 1 ∨ (loadConst rd v).link.length = 2 := by
  rw [link_loadConst]
  split
  next => exact .inl rfl
  next =>
    split
    next => exact .inl rfl
    next => exact .inr rfl

end Assembly

/-- The later of two writes to a register stands. -/
theorem Registers.write_write (regs : Registers) (rd : Reg) (v w : Word) :
    (regs.write rd v).write rd w = regs.write rd w := by
  unfold write
  split
  next => rfl
  next => exact Vector.set_set ..

namespace Machine

variable {η : Type} {h : TrapHandler η} {m : Machine η}

/-- An instruction that writes a register is one step. -/
theorem resumes_of_write {i : Instr} {rd : Reg} {v : Word} (fetch : m.fetch = .ok i)
    (effect : i.effect m.pc m.regs m.memory = .ok (.write rd v)) :
    ∃ m', Resumes h 1 m m' ∧ m'.status = (m.pc + 4, m.regs.write rd v, m.memory, m.service) := by
  obtain ⟨trap, status⟩ := step_of_fetch (h := h) fetch effect
  exact ⟨(m.step h).2, .step (Prod.ext trap rfl) (.refl _), status⟩

/-- An immediate that fits is added in one step. -/
theorem resumes_addi {words : List Word} {base : Word} {k : Nat} {rd rs : Reg} {v : Word}
    (held : m.memory.HasWords base words) (here : m.pc = base + BitVec.ofNat 32 (4 * k))
    (found : words[k]? = some (Encode.aluImm .addi (Encode.reg rd) (Encode.reg rs) v))
    (fits : v.signed 12 = v) :
    ∃ m', Resumes h 1 m m' ∧ m'.status =
      (m.pc + 4, m.regs.write rd (m.regs[rs] + v), m.memory, m.service) := by
  have decodes := Instr.decode?_aluImm .addi rd rs v
  rw [fits] at decodes
  exact resumes_of_write (fetch_of_hasWords held here found decodes) rfl

/-- The words that load a constant do nothing else. -/
theorem resumes_loadConst {rd : Reg} {v : Word} (writable : rd ≠ .zero)
    (zero : m.regs[Reg.zero] = 0)
    (held : m.memory.HasWords m.pc (Assembly.loadConst (Encode.reg rd) v).link) :
    ∃ m', Resumes h (Assembly.loadConst (Encode.reg rd) v).link.length m m' ∧
      m'.status = (m.pc + BitVec.ofNat 32 (4 * (Assembly.loadConst (Encode.reg rd) v).link.length),
        m.regs.write rd v, m.memory, m.service) := by
  rw [Assembly.link_loadConst] at held ⊢
  have here : m.pc = m.pc + BitVec.ofNat 32 (4 * 0) := (BitVec.add_zero m.pc).symm
  split at held
  next small =>
    obtain ⟨m', resumes, status⟩ :=
      resumes_addi (h := h) held here rfl (Word.signed_of_isImm12 small)
    have sum : m.regs[Reg.zero] + v = v := by rw [zero]; exact BitVec.zero_add v
    rw [sum] at status
    rw [if_pos small]
    exact ⟨m', resumes, status⟩
  next large =>
    have sum := Word.upperLower_add v
    rw [if_neg large]
    obtain ⟨m₁, upper, status⟩ :=
      resumes_of_write (h := h) (fetch_of_hasWords held here rfl (Instr.decode?_lui rd _)) rfl
    split at held
    next none =>
      have alone : (Encode.upperLower v).1 <<< 12 = v := by
        rw [none] at sum
        exact (BitVec.add_zero _).symm.trans sum
      rw [alone] at status
      rw [if_pos none]
      exact ⟨m₁, upper, status⟩
    next some =>
      rw [if_neg some]
      have pc : m₁.pc = m.pc + BitVec.ofNat 32 (4 * 1) := congrArg (·.1) status
      have regs : m₁.regs = m.regs.write rd ((Encode.upperLower v).1 <<< 12) :=
        congrArg (·.2.1) status
      have memory : m₁.memory = m.memory := congrArg (·.2.2.1) status
      have service : m₁.service = m.service := congrArg (·.2.2.2) status
      obtain ⟨m₂, lower, status₂⟩ :=
        resumes_addi (h := h) (memory ▸ held) pc rfl (Word.upperLower_signed v)
      refine ⟨m₂, upper.trans lower, status₂.trans ?_⟩
      rw [pc, regs, memory, service, Registers.getElem_write_self writable, sum,
        Registers.write_write, BitVec.add_assoc]
      rfl

/-- Loading a constant is exact: on a machine that comes to the words for it, one or two, with zero
in the first register, they are executed one after the other and leave the constant in its register
and all else as it was. The parts that it is put together from fit in their fields and add up to it.
-/
theorem loadConst_exact (v : Word) :
    (∀ (rd : Reg) (h : TrapHandler η) (m : Machine η),
      let words := (Assembly.loadConst (Encode.reg rd) v).link
      rd ≠ .zero → m.regs[Reg.zero] = 0 → m.memory.HasWords m.pc words →
      (words.length = 1 ∨ words.length = 2) ∧
        ∃ m', Resumes h words.length m m' ∧ m'.pc = m.pc + BitVec.ofNat 32 (4 * words.length) ∧
          m'.regs[rd] = v ∧ (∀ r, r ≠ rd → m'.regs[r] = m.regs[r]) ∧ m'.memory = m.memory ∧
          m'.service = m.service) ∧
      let (high, low) := Encode.upperLower v
      (-2048 ≤ low.toInt ∧ low.toInt ≤ 2047) ∧ high.toNat < 2 ^ 20 ∧
        ((high.toNat : Int) * 2 ^ 12 + low.toInt) % 2 ^ 32 = v.toNat := by
  refine ⟨?_, v.upperLower_bounds.1, v.upperLower_bounds.2, v.upperLower_sum⟩
  intro rd h m words writable zero held
  refine ⟨Assembly.length_link_loadConst _ v, ?_⟩
  obtain ⟨m', resumes, status⟩ := resumes_loadConst (h := h) writable zero held
  have regs : m'.regs = m.regs.write rd v := congrArg (·.2.1) status
  refine ⟨m', resumes, congrArg (·.1) status, ?_, ?_, congrArg (·.2.2.1) status,
    congrArg (·.2.2.2) status⟩
  · rw [regs, Registers.getElem_write_self writable]
  · intro r other
    rw [regs, Registers.getElem_write_of_ne other]

/-- The greatest signed number. Its upper part is rounded to one that is no signed number any more.
-/
def greatest : Word := 0x7fffffff

/-- A machine at the words that load it into `a0`. -/
def atGreatest : Machine Unit where
  pc := 4
  memory := ⟨(List.replicate 4 0 ++ [0x80000537, 0xfff50513].flatMap Word.toBytes).toArray⟩
  service := ()

/-- The greatest positive constant, whose upper half reaches into the sign. -/
theorem loadConst_greatest :
    ∃ m', Resumes .resuming 2 atGreatest m' ∧ m'.pc = 12 ∧ m'.regs[Reg.a0] = greatest ∧
      Encode.upperLower greatest = (0x80000, -1) := by
  have words : (Assembly.loadConst (Encode.reg .a0) greatest).link = [0x80000537, 0xfff50513] := by
    decide +kernel
  have held : atGreatest.memory.HasWords atGreatest.pc [0x80000537, 0xfff50513] := by
    apply Memory.hasWords_of_slice? <;> decide +kernel
  obtain ⟨loads, -⟩ := @loadConst_exact Unit greatest
  obtain ⟨-, m', resumes, pc, value, -⟩ :=
    loads .a0 .resuming atGreatest (by decide) (by decide +kernel) (words ▸ held)
  rw [words] at resumes pc
  exact ⟨m', resumes, pc, value, by decide⟩

end Machine

end BareC
