import BareC.Proofs.Machine.Architecture

/-!
# What goes wrong in a step

A fault is told by the machine in front of the step (`Cause`): the instruction reaches outside of
memory, or is none, or is a breakpoint. A step fails with those faults that have such a cause, and
with no others (`step_eq_error_iff`). One that fails leaves everything as it was, but for the notice
of the instruction that it was about to execute.

A cause is told from registers, memory and the word at the program counter, without making the step.
That the notice is taken in front of the failure is part of the statement: with notices the machine
is another, and `SameButNotices` says in what. A trap handler cannot fail: it answers that the
machine halts or goes on.
-/

namespace BareC

/-! ## Words in memory -/

/-- Bytes are those of the number that they stand for. -/
theorem Bytes.ofNat_value (bs : Bytes) : Bytes.ofNat bs.length bs.value = bs := by
  induction bs with
  | nil => rfl
  | cons b bs ih =>
    have byte := b.toNat_lt
    have low : UInt8.ofNat (b.toNat + 256 * value bs) = b := by
      apply UInt8.toNat_inj.mp
      rw [UInt8.toNat_ofNat']
      omega
    have high : (b.toNat + 256 * value bs) / 256 = value bs := by omega
    rw [List.length_cons, ofNat, value, low, high, ih]

/-- Any four bytes of memory are a word. -/
theorem Memory.exists_word_of_load {m : Memory} {address : Word} {n : Nat}
    (loaded : m.load address 4 = .ok n) :
    ∃ w : Word, ∀ k < 4, m.bytes[address.toNat + k]? = w.toBytes[k]? := by
  obtain ⟨bs, length, same, -⟩ := exists_bytes_of_load loaded
  have small : bs.value < 2 ^ 32 := by
    have lt := bs.value_lt
    rwa [length] at lt
  have bytes : Bytes.ofNat 4 bs.value = bs := by
    rw [← length]
    exact bs.ofNat_value
  refine ⟨BitVec.ofNat 32 bs.value, ?_⟩
  rw [Word.toBytes, Word.toNat_ofNat_of_lt small, bytes]
  exact same

/-- A load fails exactly behind the end of memory, with its address and length. -/
theorem Memory.load_eq_error_iff {m : Memory} {address : Word} {length : Nat} {f : MachineFault} :
    m.load address length = .error f ↔
      m.size < address.toNat + length ∧ f = .access address length := by
  rw [load]
  by_cases inside : m.covers address length = true
  · have le : address.toNat + length ≤ m.size := covers_iff.mp inside
    rw [if_pos inside]
    constructor
    · intro fails
      cases fails
    · rintro ⟨outside, -⟩
      exact absurd outside (Nat.not_lt.mpr le)
  · have outside : m.size < address.toNat + length := Nat.lt_of_not_le (mt covers_iff.mpr inside)
    rw [if_neg inside]
    constructor
    · intro fails
      cases fails
      exact ⟨outside, rfl⟩
    · rintro ⟨-, rfl⟩
      rfl

/-- What the instruction reads or writes in memory: so many bytes, at an offset from a register. -/
def Instr.access? : Instr → Option (Reg × Word × Nat)
  | .load op _ rs1 offset => some (rs1, offset, op.width)
  | .store op rs1 _ offset => some (rs1, offset, op.width)
  | _ => none

namespace Machine

variable {η : Type} {h : TrapHandler η} {m m' : Machine η} {f : MachineFault}

/-! ## Causes -/

/-- The word at the program counter. -/
def IsNext (m : Machine η) (w : Word) : Prop :=
  ∀ k < 4, m.memory.bytes[m.pc.toNat + k]? = w.toBytes[k]?

/-- The instruction at the program counter reads or writes so many bytes at this address. -/
def Accesses (m : Machine η) (address : Word) (length : Nat) : Prop :=
  ∃ w i rs1 offset, m.IsNext w ∧ Instr.decode? w = some i ∧ i.access? = some (rs1, offset, length) ∧
    address.toNat = (m.regs[rs1].toNat + offset.toNat) % 2 ^ 32

/-- Why the next step fails. -/
inductive Cause (m : Machine η) : MachineFault → Prop
  /-- The instruction is not in memory, or what it reads or writes is not. -/
  | access {address : Word} {length : Nat} :
      address = m.pc ∧ length = 4 ∨ m.Accesses address length →
    m.memory.size < address.toNat + length → Cause m (.access address length)
  | illegal {w : Word} : m.IsNext w → Instr.decode? w = none → Cause m (.illegalInstruction m.pc w)
  | breakpoint {w : Word} : m.IsNext w → Instr.decode? w = some .ebreak → Cause m (.breakpoint m.pc)

/-- The limit of a run is none of them. -/
theorem Cause.ne_stepLimit (cause : m.Cause f) (pc : Word) (steps : Nat) :
    f ≠ .stepLimit pc steps := by
  cases cause <;> exact nofun

/-! ## Steps that fail -/

/-- There is a next word, or it reaches outside of memory. -/
theorem exists_isNext_or (m : Machine η) : (∃ w, m.IsNext w) ∨ m.memory.size < m.pc.toNat + 4 := by
  cases loaded : m.memory.load m.pc 4 with
  | error f => exact .inr (Memory.load_eq_error_iff.mp loaded).1
  | ok n => exact .inl (Memory.exists_word_of_load loaded)

/-- No instruction is fetched from behind the end of memory. -/
theorem fetch_of_outside (outside : m.memory.size < m.pc.toNat + 4) :
    m.fetch = .error (.access m.pc 4) := by
  rw [fetch, Memory.load_eq_error_iff.mpr ⟨outside, rfl⟩]

section Next

variable {w : Word} (next : m.IsNext w)

include next

/-- A word that does not decode is reported with its address. -/
theorem fetch_of_illegal (illegal : Instr.decode? w = none) :
    m.fetch = .error (.illegalInstruction m.pc w) := by
  rw [fetch, Memory.load_of_toBytes next]
  dsimp only
  rw [BitVec.ofNat_toNat, BitVec.setWidth_eq, illegal]

/-- A word that decodes is fetched as its instruction. -/
theorem fetch_of_decode {i : Instr} (decodes : Instr.decode? w = some i) : m.fetch = .ok i := by
  rw [fetch, Memory.load_of_toBytes next]
  dsimp only
  rw [BitVec.ofNat_toNat, BitVec.setWidth_eq, decodes]

end Next

/-- An instruction that accesses memory fails as a load from the same place does. -/
theorem effect_eq_error_iff_of_access {i : Instr} {rs1 : Reg} {offset : Word} {length : Nat}
    (access : i.access? = some (rs1, offset, length)) :
    i.effect m.pc m.regs m.memory = .error f ↔
      m.memory.load (m.regs[rs1] + offset) length = .error f := by
  cases i with
  | load op rd rs1 offset =>
    cases access
    rw [Instr.effect]
    cases m.memory.load (m.regs[rs1] + offset) op.width with
    | ok n =>
      constructor <;>
      · intro fails
        cases fails
    | error f' =>
      constructor <;>
      · intro fails
        cases fails
        rfl
  | store op rs1 rs2 offset =>
    cases access
    rw [Instr.effect, Memory.load]
    cases m.memory.covers (m.regs[rs1] + offset) op.width with
    | true =>
      constructor <;>
      · intro fails
        cases fails
    | false =>
      constructor <;>
      · intro fails
        cases fails
        rfl
  | _ => cases access

/-- Of the instructions that access no memory, breakpoints fail. -/
theorem effect_eq_error_iff_of_none {i : Instr} (none : i.access? = none) :
    i.effect m.pc m.regs m.memory = .error f ↔ i = .ebreak ∧ f = .breakpoint m.pc := by
  cases i with
  | load | store => cases none
  | ebreak =>
    constructor
    · intro fails
      cases fails
      exact ⟨rfl, rfl⟩
    · rintro ⟨-, rfl⟩
      rfl
  | _ =>
    refine iff_of_false nofun ?_
    rintro ⟨isBreak, -⟩
    cases isBreak

/-- A step that cannot fetch changes nothing. -/
theorem step_of_fetch_error (fails : m.fetch = .error f) : m.step h = (.error f, m) := by
  rw [step, fails]

/-- A step whose instruction fails has given notice of it, and that is all. -/
theorem step_of_effect_error {i : Instr} (fetch : m.fetch = .ok i)
    (fails : i.effect m.pc m.regs m.memory = .error f) :
    m.step h = (.error f, m.noteIfVerbose (.executing m.pc i)) := by
  rw [step, fetch]
  dsimp only
  rw [effect_noteIfVerbose, fails]

/-- A step that fails does so in fetching the instruction, or with it. -/
theorem step_error_cases (fails : (m.step h).1 = .error f) :
    m.fetch = .error f ∨ ∃ i, m.fetch = .ok i ∧ i.effect m.pc m.regs m.memory = .error f := by
  cases fetched : m.fetch with
  | error f' =>
    rw [step_of_fetch_error fetched] at fails
    cases Except.error.inj fails
    exact .inl rfl
  | ok i =>
    cases effect : i.effect m.pc m.regs m.memory with
    | error f' =>
      rw [step_of_effect_error fetched effect] at fails
      cases Except.error.inj fails
      exact .inr ⟨i, rfl, effect⟩
    | ok e =>
      rw [(step_of_fetch fetched effect).1] at fails
      cases fails

/-- What a fetch reports is a cause. -/
theorem cause_of_fetch_error (fails : m.fetch = .error f) : m.Cause f := by
  rcases m.exists_isNext_or with ⟨w, next⟩ | outside
  · cases decodes : Instr.decode? w with
    | none =>
      rw [fetch_of_illegal next decodes] at fails
      cases fails
      exact .illegal next decodes
    | some i =>
      rw [fetch_of_decode next decodes] at fails
      cases fails
  · rw [fetch_of_outside outside] at fails
    cases fails
    exact .access (.inl ⟨rfl, rfl⟩) outside

/-- What an instruction reports is a cause. -/
theorem cause_of_effect_error {i : Instr} (fetch : m.fetch = .ok i)
    (fails : i.effect m.pc m.regs m.memory = .error f) : m.Cause f := by
  obtain ⟨w, next, decodes⟩ : ∃ w, m.IsNext w ∧ Instr.decode? w = some i := by
    rcases m.exists_isNext_or with ⟨w, next⟩ | outside
    · refine ⟨w, next, ?_⟩
      cases decodes : Instr.decode? w with
      | none =>
        rw [fetch_of_illegal next decodes] at fetch
        cases fetch
      | some i' =>
        rw [fetch_of_decode next decodes] at fetch
        cases fetch
        rfl
    · rw [fetch_of_outside outside] at fetch
      cases fetch
  cases access : i.access? with
  | none =>
    obtain ⟨rfl, rfl⟩ := (effect_eq_error_iff_of_none access).mp fails
    exact .breakpoint next decodes
  | some place =>
    obtain ⟨rs1, offset, length⟩ := place
    have loads := (effect_eq_error_iff_of_access access).mp fails
    obtain ⟨outside, rfl⟩ := Memory.load_eq_error_iff.mp loads
    exact .access (.inr ⟨w, i, rs1, offset, next, decodes, access, BitVec.toNat_add ..⟩) outside

/-- Where there is a cause, the step fails. -/
theorem Cause.fails (cause : m.Cause f) : (m.step h).1 = .error f := by
  cases cause with
  | illegal next illegal => rw [step_of_fetch_error (fetch_of_illegal next illegal)]
  | breakpoint next decodes => rw [step_of_effect_error (fetch_of_decode next decodes) rfl]
  | access place outside =>
    rcases place with ⟨rfl, rfl⟩ | ⟨w, i, rs1, offset, next, decodes, access, address⟩
    · rw [step_of_fetch_error (fetch_of_outside outside)]
    · obtain rfl := BitVec.eq_of_toNat_eq (address.trans (BitVec.toNat_add ..).symm)
      have loads := Memory.load_eq_error_iff.mpr ⟨outside, rfl⟩
      have fails := (effect_eq_error_iff_of_access access).mpr loads
      rw [step_of_effect_error (fetch_of_decode next decodes) fails]

/-- A step fails for the causes that there are, and for no others. -/
theorem step_eq_error_iff : (m.step h).1 = .error f ↔ m.Cause f := by
  constructor
  · intro fails
    rcases step_error_cases fails with fetch | ⟨i, fetch, effect⟩
    · exact cause_of_fetch_error fetch
    · exact cause_of_effect_error fetch effect
  · exact Cause.fails

/-! ## What is left of a machine -/

/-- The machines differ in what they have printed, if in anything. -/
def SameButNotices (m m' : Machine η) : Prop :=
  m = { m' with notices := m.notices }

/-- A machine is itself but for its notices. -/
theorem SameButNotices.refl (m : Machine η) : m.SameButNotices m := rfl

/-- A notice changes nothing else. -/
theorem sameButNotices_noteIfVerbose (m : Machine η) (n : Notice) :
    (m.noteIfVerbose n).SameButNotices m := by
  unfold noteIfVerbose SameButNotices
  split <;> rfl

/-- A step that fails changes nothing. -/
theorem sameButNotices_of_fails (fails : (m.step h).1 = .error f) :
    (m.step h).2.SameButNotices m := by
  rcases step_error_cases fails with fetch | ⟨i, fetch, effect⟩
  · rw [step_of_fetch_error fetch]
    exact .refl m
  · rw [step_of_effect_error fetch effect]
    exact sameButNotices_noteIfVerbose m _

end Machine

end BareC
