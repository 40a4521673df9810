import BareC.Proofs.Machine.Arithmetic
import BareC.Proofs.Machine.Halting

/-!
# Steps of the architecture

What the architecture asks of one step is said of the machines before and behind it, apart from how
the step is made: the value written (`Instr.Yields`), the place to go on at (`Instr.Continues`) and
the bytes of memory (`Instr.Leaves`), all from the registers and the memory before. A step that
succeeds does this and nothing else (`step_executes`), and it fails at loads and stores that reach
outside of memory only.

The architectural account is written down a second time and on purpose, in whole numbers and bytes,
since a step that was measured by its own definition would always pass. It covers the instructions
that the decoder knows. Traps are handed to a handler, of which it is only said that the machine
goes on behind them with what it left; timing, privileges and interrupts are not part of this
machine.
-/

namespace BareC

/-! ## Bytes and addresses -/

/-- The value of some bytes is less than the power of their number. -/
theorem Bytes.value_lt (bs : Bytes) : bs.value < 256 ^ bs.length := by
  induction bs with
  | nil => exact Nat.one_pos
  | cons b bs ih =>
    have byte := b.toNat_lt
    rw [value, List.length_cons, Nat.pow_succ']
    omega

/-- The lowest bit of a word cleared. -/
theorem Word.toNat_and_not_one (w : Word) : (w &&& ~~~1#32).toNat = w.toNat / 2 * 2 := by
  have shifted : w &&& ~~~1#32 = w >>> 1 <<< 1 := by
    refine BitVec.eq_of_getLsbD_eq fun i lt => ?_
    cases i with
    | zero => simp
    | succ i =>
      rw [BitVec.getLsbD_shiftLeft, BitVec.getLsbD_ushiftRight, BitVec.getLsbD_and,
        BitVec.getLsbD_not]
      simp [lt, Nat.add_comm]
  have := w.isLt
  rw [shifted, BitVec.toNat_shiftLeft, BitVec.toNat_ushiftRight, Nat.shiftLeft_eq,
    Nat.shiftRight_eq_div_pow]
  omega

namespace Memory

/-- The bytes of a number that is put are its digits to the base 256. -/
theorem getElem?_putNumber_inside {bytes : Array UInt8} {i n length j : Nat} (low : i ≤ j)
    (high : j < i + length) (inside : i + length ≤ bytes.size) :
    (putNumber bytes i n length)[j]? = some (UInt8.ofNat (n / 256 ^ (j - i))) := by
  induction length generalizing bytes i n with
  | zero => omega
  | succ length ih =>
    rw [putNumber]
    by_cases first : j = i
    · subst first
      rw [getElem?_putNumber_of_outside (by omega),
        Array.getElem?_setIfInBounds_self_of_lt (by omega), Nat.sub_self, Nat.pow_zero, Nat.div_one]
    · have later : j - i = j - (i + 1) + 1 := by omega
      rw [ih (by omega) (by omega) (by rw [Array.size_setIfInBounds]; omega),
        Nat.div_div_eq_div_mul, later, Nat.pow_succ']

/-- An access is covered where it ends within the memory's bytes. -/
theorem covers_iff {m : Memory} {address : Word} {length : Nat} :
    m.covers address length = true ↔ address.toNat + length ≤ m.bytes.size :=
  decide_eq_true_iff

/-- What is read is the number of the bytes that are there. -/
theorem exists_bytes_of_load {m : Memory} {address : Word} {length n : Nat}
    (loaded : m.load address length = .ok n) :
    ∃ bs : Bytes, bs.length = length ∧ (∀ k < length, m.bytes[address.toNat + k]? = bs[k]?) ∧
    bs.value = n := by
  rw [load] at loaded
  split at loaded
  next covered =>
    rw [covers_iff] at covered
    cases loaded
    let bs : Bytes := (m.bytes.extract address.toNat (address.toNat + length)).toList
    have count : bs.length = length := by
      simp only [bs, Array.length_toList, Array.size_extract]
      omega
    have same (k : Nat) (lt : k < length) : m.bytes[address.toNat + k]? = bs[k]? := by
      rw [Array.getElem?_toList, Array.getElem?_extract]
      split
      next => rfl
      next => omega
    have number : numberAt m.bytes address.toNat bs.length = bs.value :=
      numberAt_eq_value fun j lt => same j (count ▸ lt)
    exact ⟨bs, count, same, by rw [← number, count]⟩
  next => cases loaded

/-- A word whose bytes are in memory is read. -/
theorem load_of_toBytes {m : Memory} {address w : Word}
    (there : ∀ k < 4, m.bytes[address.toNat + k]? = w.toBytes[k]?) :
    m.load address 4 = .ok w.toNat := by
  have last :=
    (there 3 (by decide)).trans (List.getElem?_eq_getElem (by rw [w.length_toBytes]; decide))
  have inside : address.toNat + 4 ≤ m.size := (Array.getElem?_eq_some_iff.mp last).1
  have number : numberAt m.bytes address.toNat w.toBytes.length = w.toBytes.value :=
    numberAt_eq_value fun j lt => there j (w.length_toBytes ▸ lt)
  have small : w.toNat % 256 ^ 4 = w.toNat := Nat.mod_eq_of_lt w.isLt
  rw [w.length_toBytes, Word.toBytes, Bytes.value_ofNat, small] at number
  rw [load_of_le inside, number]

end Memory

/-! ## What the architecture asks of a step -/

namespace Machine

variable {η : Type}

/-- The value of a register. The first one has the value zero. -/
def value (m : Machine η) (r : Reg) : Word :=
  if r = .zero then 0 else m.regs[r]

/-- The address at an offset from a register. Behind the highest address the lowest follows. -/
def indexed (m : Machine η) (r : Reg) (offset : Word) : Nat :=
  ((m.value r).toNat + offset.toNat) % 2 ^ 32

end Machine

namespace Instr

variable {η : Type}

/-- The register that the instruction writes. -/
def rd? : Instr → Option Reg
  | .alu _ rd _ _ | .aluImm _ rd _ _ | .shiftImm _ rd _ _ | .load _ rd _ _ | .jal rd _
  | .jalr rd _ _
  | .lui rd _ | .auipc rd _ => some rd
  | .store .. | .branch .. | .fence | .ecall | .ebreak => none

/-- From this machine, the instruction writes this value. -/
def Yields (m : Machine η) (v : Word) : Instr → Prop
  | .alu op _ rs1 rs2 => op.Computes (m.value rs1) (m.value rs2) v
  | .aluImm op _ rs1 imm => op.onRegisters.Computes (m.value rs1) imm v
  | .shiftImm op _ rs1 amount => op.onRegisters.Computes (m.value rs1) (amount.setWidth 32) v
  | .load op _ rs1 offset =>
    ∃ bs : Bytes, bs.length = op.width ∧
      (∀ k < op.width, m.memory.bytes[m.indexed rs1 offset + k]? = bs[k]?) ∧ op.Extends bs.value v
  | .jal .. | .jalr .. => v.toNat = (m.pc.toNat + 4) % 2 ^ 32
  | .lui _ imm => v = imm
  | .auipc _ imm => v.toNat = (m.pc.toNat + imm.toNat) % 2 ^ 32
  | .store .. | .branch .. | .fence | .ecall | .ebreak => False

/-- From this machine, the instruction goes on there. -/
def Continues (m : Machine η) (next : Word) : Instr → Prop
  | .branch op rs1 rs2 offset =>
    (op.Taken (m.value rs1) (m.value rs2) → next.toNat = (m.pc.toNat + offset.toNat) % 2 ^ 32) ∧
      (¬ op.Taken (m.value rs1) (m.value rs2) → next.toNat = (m.pc.toNat + 4) % 2 ^ 32)
  | .jal _ offset => next.toNat = (m.pc.toNat + offset.toNat) % 2 ^ 32
  | .jalr _ rs1 offset => next.toNat = m.indexed rs1 offset / 2 * 2
  | _ => next.toNat = (m.pc.toNat + 4) % 2 ^ 32

/-- From this machine, the instruction leaves memory like this. -/
def Leaves (m : Machine η) (memory : Memory) : Instr → Prop
  | .store op rs1 rs2 offset =>
    memory.size = m.memory.size ∧
      ∀ j, memory.bytes[j]? =
        if m.indexed rs1 offset ≤ j ∧ j < m.indexed rs1 offset + op.width then
          some (UInt8.ofNat ((m.value rs2).toNat / 256 ^ (j - m.indexed rs1 offset)))
        else m.memory.bytes[j]?
  | _ => memory = m.memory

/-- What the instruction reads or writes in memory is there. -/
def Within (m : Machine η) : Instr → Prop
  | .load op _ rs1 offset => m.indexed rs1 offset + op.width ≤ m.memory.size
  | .store op rs1 _ offset => m.indexed rs1 offset + op.width ≤ m.memory.size
  | _ => True

/-- The second machine is the first behind the instruction. -/
structure Executes (i : Instr) (m m' : Machine η) : Prop where
  written : ∀ rd ∈ i.rd?, rd ≠ .zero → i.Yields m m'.regs[rd]
  others : ∀ r, (i.rd? = some r → r = .zero) → m'.regs[r] = m.regs[r]
  pc : i.Continues m m'.pc
  memory : i.Leaves m m'.memory
  service : m'.service = m.service

/-- What the machine has printed does not matter. -/
theorem Executes.of_status {i : Instr} {m m' m'' : Machine η} (h : i.Executes m m')
    (same : m''.status = m'.status) : i.Executes m m'' := by
  obtain ⟨pc, regs, memory, service⟩ := m'
  obtain ⟨pc', regs', memory', service'⟩ := m''
  cases same
  exact ⟨h.written, h.others, h.pc, h.memory, h.service⟩

end Instr

namespace Machine

variable {η : Type} {h : TrapHandler η} {m m' : Machine η} {i : Instr}

/-- A register's value is what it holds, where the zero register holds zero. -/
theorem value_eq (zero : m.regs[Reg.zero] = 0) (r : Reg) : m.value r = m.regs[r] := by
  unfold value
  split
  next first => rw [first, zero]
  next => rfl

/-- As `value_eq`, for an address with an offset. -/
theorem indexed_eq (zero : m.regs[Reg.zero] = 0) (r : Reg) (offset : Word) :
    m.indexed r offset = (m.regs[r] + offset).toNat := by
  rw [indexed, value_eq zero, BitVec.toNat_add]

/-- The next instruction's address wraps at the end of the addresses. -/
theorem toNat_pc_add_four : (m.pc + 4).toNat = (m.pc.toNat + 4) % 2 ^ 32 :=
  BitVec.toNat_add ..

/-! ## Effects -/

/-- An instruction that writes a register. -/
theorem executes_of_write {rd : Reg} {v : Word} (writes : i.rd? = some rd) (yields : i.Yields m v)
    (regs : m'.regs = m.regs.write rd v) (pc : i.Continues m m'.pc) (memory : i.Leaves m m'.memory)
    (service : m'.service = m.service) : i.Executes m m' where
  written r isRd notZero := by
    cases writes.symm.trans isRd
    rw [regs, Registers.getElem_write_self notZero]
    exact yields
  others r other := by
    rw [regs]
    by_cases same : r = rd
    · subst same
      rw [other writes, Registers.getElem_write_zero]
    · exact Registers.getElem_write_of_ne same
  pc := pc
  memory := memory
  service := service

/-- An instruction that writes none. -/
theorem executes_of_keep (keeps : i.rd? = none) (regs : m'.regs = m.regs) (pc : i.Continues m m'.pc)
    (memory : i.Leaves m m'.memory) (service : m'.service = m.service) : i.Executes m m' where
  written r isRd := by rw [keeps] at isRd; cases isRd
  others r _ := by rw [regs]
  pc := pc
  memory := memory
  service := service

/-- A load that succeeds does what the architecture says. -/
theorem executes_load {op : LoadOp} {rd rs1 : Reg} {offset : Word} {n : Nat}
    (zero : m.regs[Reg.zero] = 0) (loaded : m.memory.load (m.regs[rs1] + offset) op.width = .ok n) :
    (Instr.load op rd rs1 offset).Executes m (m.apply h (.write rd (op.extend n))).2 := by
  obtain ⟨bs, count, same, rfl⟩ := Memory.exists_bytes_of_load loaded
  refine executes_of_write rfl ⟨bs, count, fun k lt => ?_, ?_⟩ rfl toNat_pc_add_four rfl rfl
  · rw [indexed_eq zero]
    exact same k lt
  · exact op.extends_extend (count ▸ bs.value_lt)

/-- As `executes_load`, for a store that is covered. -/
theorem executes_store {op : StoreOp} {rs1 rs2 : Reg} {offset : Word} (zero : m.regs[Reg.zero] = 0)
    (covered : m.memory.covers (m.regs[rs1] + offset) op.width = true) :
    (Instr.store op rs1 rs2 offset).Executes m
      (m.apply h (.store (m.regs[rs1] + offset) op.width m.regs[rs2])).2 := by
  refine executes_of_keep rfl rfl toNat_pc_add_four ⟨Memory.size_put .., fun j => ?_⟩ rfl
  rw [indexed_eq zero, value_eq zero]
  split
  next here => exact Memory.getElem?_putNumber_inside here.1 here.2 (Memory.covers_iff.mp covered)
  next elsewhere => exact Memory.getElem?_putNumber_of_outside (by omega)

/-- What the effect of an instruction makes of a machine is what the architecture asks for. -/
theorem executes_apply (zero : m.regs[Reg.zero] = 0) {e : Effect}
    (effect : i.effect m.pc m.regs m.memory = .ok e) (noCall : i ≠ .ecall) :
    (m.apply h e).1 = .resume ∧ i.Executes m (m.apply h e).2 := by
  have value := value_eq zero
  cases i with
  | alu op rd rs1 rs2 =>
    cases effect
    refine ⟨rfl, executes_of_write rfl ?_ rfl toNat_pc_add_four rfl rfl⟩
    rw [Instr.Yields, value, value]
    exact op.computes_eval ..
  | aluImm op rd rs1 imm =>
    cases effect
    refine ⟨rfl, executes_of_write rfl ?_ rfl toNat_pc_add_four rfl rfl⟩
    rw [Instr.Yields, value, ImmOp.eval_eq]
    exact op.onRegisters.computes_eval ..
  | shiftImm op rd rs1 amount =>
    cases effect
    refine ⟨rfl, executes_of_write rfl ?_ rfl toNat_pc_add_four rfl rfl⟩
    rw [Instr.Yields, value, ShiftOp.eval_eq]
    exact op.onRegisters.computes_eval ..
  | load op rd rs1 offset =>
    rw [Instr.effect] at effect
    cases loaded : m.memory.load (m.regs[rs1] + offset) op.width with
    | error f =>
      rw [loaded] at effect
      cases effect
    | ok n =>
      rw [loaded] at effect
      cases effect
      exact ⟨rfl, executes_load zero loaded⟩
  | store op rs1 rs2 offset =>
    rw [Instr.effect] at effect
    split at effect
    next covered =>
      cases effect
      exact ⟨rfl, executes_store zero covered⟩
    next => cases effect
  | branch op rs1 rs2 offset =>
    cases effect
    refine ⟨rfl, executes_of_keep rfl rfl ?_ rfl rfl⟩
    rw [Instr.Continues, value, value, ← op.holds_iff]
    refine ⟨fun taken => ?_, fun passed => ?_⟩
    · rw [apply, if_pos taken, BitVec.toNat_add]
    · rw [apply, if_neg passed, toNat_pc_add_four]
  | jal rd offset =>
    cases effect
    exact ⟨rfl, executes_of_write rfl toNat_pc_add_four rfl (BitVec.toNat_add ..) rfl rfl⟩
  | jalr rd rs1 offset =>
    cases effect
    refine ⟨rfl, executes_of_write rfl toNat_pc_add_four rfl ?_ rfl rfl⟩
    rw [Instr.Continues, indexed_eq zero]
    exact Word.toNat_and_not_one _
  | lui rd imm =>
    cases effect
    exact ⟨rfl, executes_of_write rfl rfl rfl toNat_pc_add_four rfl rfl⟩
  | auipc rd imm =>
    cases effect
    exact ⟨rfl, executes_of_write rfl (BitVec.toNat_add ..) rfl toNat_pc_add_four rfl rfl⟩
  | fence =>
    cases effect
    exact ⟨rfl, executes_of_keep rfl rfl toNat_pc_add_four rfl rfl⟩
  | ecall => exact absurd rfl noCall
  | ebreak => cases effect

/-- Nothing but memory that is missing keeps an instruction from its effect. -/
theorem exists_effect_iff (zero : m.regs[Reg.zero] = 0) (noBreak : i ≠ .ebreak) :
    (∃ e, i.effect m.pc m.regs m.memory = .ok e) ↔ i.Within m := by
  cases i with
  | load op rd rs1 offset =>
    rw [Instr.Within, indexed_eq zero, Memory.size, ← Memory.covers_iff, Instr.effect, Memory.load]
    cases m.memory.covers (m.regs[rs1] + offset) op.width with
    | true => exact iff_of_true ⟨_, rfl⟩ rfl
    | false => exact iff_of_false (by rintro ⟨e, ok⟩; cases ok) Bool.false_ne_true
  | store op rs1 rs2 offset =>
    rw [Instr.Within, indexed_eq zero, Memory.size, ← Memory.covers_iff, Instr.effect]
    cases m.memory.covers (m.regs[rs1] + offset) op.width with
    | true => exact iff_of_true ⟨_, rfl⟩ rfl
    | false => exact iff_of_false (by rintro ⟨e, ok⟩; cases ok) Bool.false_ne_true
  | ebreak => exact absurd rfl noBreak
  | alu | aluImm | shiftImm | branch | jal | jalr | lui | auipc | fence | ecall =>
    exact iff_of_true ⟨_, rfl⟩ trivial

/-! ## Steps -/

/-- An instruction whose step succeeds has an effect. -/
theorem exists_effect_of_step (fetch : m.fetch = .ok i) {trap : Trap}
    (step : m.step h = (.ok trap, m')) : ∃ e, i.effect m.pc m.regs m.memory = .ok e := by
  cases effect : i.effect m.pc m.regs m.memory with
  | error f =>
    simp only [Machine.step, fetch, effect_noteIfVerbose, effect] at step
    cases step
  | ok e => exact ⟨e, rfl⟩

/-- A step executes the instruction whose word is at the program counter, as the architecture has
it, if it succeeds. It fails only where the instruction reaches outside of memory. Of the
instructions that divide, the quotient and the remainder of any two words make up the dividend. -/
theorem step_executes (h : TrapHandler η) (m : Machine η) {w : Word} {i : Instr}
    (zero : m.regs[Reg.zero] = 0) (word : ∀ k < 4, m.memory.bytes[m.pc.toNat + k]? = w.toBytes[k]?)
    (decodes : Instr.decode? w = some i) (noCall : i ≠ .ecall) (noBreak : i ≠ .ebreak) :
    (∀ trap m', m.step h = (.ok trap, m') → trap = .resume ∧ i.Executes m m') ∧
    ((∃ trap m', m.step h = (.ok trap, m')) ↔ i.Within m) ∧
    (∀ a b q r, AluOp.div.Computes a b q → AluOp.rem.Computes a b r → b * q + r = a) ∧
    ∀ a b q r, AluOp.divu.Computes a b q → AluOp.remu.Computes a b r → b * q + r = a := by
  have fetch : m.fetch = .ok i := by
    rw [Machine.fetch, Memory.load_of_toBytes word]
    dsimp only
    rw [BitVec.ofNat_toNat, BitVec.setWidth_eq, decodes]
  refine ⟨fun trap m' step => ?_, ?_, fun a b q r quotient remainder => ?_,
    fun a b q r quotient remainder => ?_⟩
  · obtain ⟨e, effect⟩ := exists_effect_of_step fetch step
    obtain ⟨outcome, status⟩ := step_of_fetch (h := h) fetch effect
    rw [step] at outcome status
    obtain ⟨resumes, executes⟩ := executes_apply (h := h) zero effect noCall
    exact ⟨(Except.ok.inj outcome).trans resumes, executes.of_status status⟩
  · rw [← exists_effect_iff zero noBreak]
    constructor
    · rintro ⟨trap, m', step⟩
      exact exists_effect_of_step fetch step
    · rintro ⟨e, effect⟩
      exact ⟨_, _, Prod.ext (step_of_fetch fetch effect).1 rfl⟩
  · rw [quotient.unique (AluOp.computes_eval .div a b),
      remainder.unique (AluOp.computes_eval .rem a b)]
    exact AluOp.mul_div_add_rem a b
  · rw [quotient.unique (AluOp.computes_eval .divu a b),
      remainder.unique (AluOp.computes_eval .remu a b)]
    exact AluOp.mul_divu_add_remu a b

/-- A machine at `jalr ra, 1(ra)`, with eight in `ra`. -/
def returning : Machine Unit where
  regs := (Vector.replicate 32 0).set Reg.ra 8
  memory := ⟨(Word.toBytes 0x001080e7).toArray⟩
  service := ()

/-- It goes to the eight that was in `ra`, and the way back takes its place. -/
theorem step_executes_returning :
    ∃ m', returning.step .resuming = (.ok .resume, m') ∧ m'.pc.toNat = 8 ∧
    m'.regs[Reg.ra].toNat = 4 := by
  obtain ⟨executes, succeeds, -⟩ := step_executes .resuming returning (w := 0x001080e7)
    (i := .jalr .ra .ra 1) (by decide) (by decide) (by decide) nofun nofun
  obtain ⟨trap, m', step⟩ := succeeds.mpr trivial
  obtain ⟨rfl, executed⟩ := executes trap m' step
  refine ⟨m', step, executed.pc.trans (by decide), ?_⟩
  exact (executed.written .ra rfl (by decide)).trans (by decide)

end Machine

end BareC
