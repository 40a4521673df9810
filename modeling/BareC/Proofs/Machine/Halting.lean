import BareC.Proofs.Isa.Fields
import BareC.Proofs.Machine.Step

/-!
# Behind the halt

A machine that comes to the halt code selects the halt, asks the trap handler for it, and finds
itself in front of a jump to itself. That is so whatever the handler does, as long as it leaves the
code alone: it cannot move the program counter, and a machine that has halted is one like all
others, which may be made to go on. So what it does is known for ever (`status_after`), and one step
of it is all that the handler hears of.

To tell what the handler hears, it is given a record beside its state, which changes nothing else
(`unrecorded_after`).

That the machine does not leave the third word is an induction on the steps with the code held as
its invariant; for that the handler has to spare the code (`Spares`). A handler that writes over it
may make the machine do anything, and nothing is said then.

The code is taken to be there and to be reached with zero in the first register. How a program comes
to it is the subject of the semantics of units.
-/

namespace BareC

/-! ## Code anywhere in memory -/

/-- Some words lie in memory one behind the other, from an address on. Behind the last address comes
the first again, as it does for the program counter. -/
def Memory.HasWords (m : Memory) (address : Word) (words : List Word) : Prop :=
  ∀ i w, words[i]? = some w → m.load (address + BitVec.ofNat 32 (4 * i)) 4 = .ok w.toNat

/-- The bytes of some words, if all of them have addresses. -/
theorem Memory.hasWords_of_slice? {m : Memory} {address : Word} {words : List Word}
    (slice : m.slice? address.toNat (address.toNat + 4 * words.length) =
      some (words.flatMap Word.toBytes))
    (inside : address.toNat + 4 * words.length ≤ 2 ^ 32) : m.HasWords address words := by
  intro i w hw
  have hi : i < words.length := (List.getElem?_eq_some_iff.mp hw).1
  unfold slice? at slice
  split at slice
  next => cases slice
  next fits =>
    have fits : address.toNat + 4 * words.length ≤ m.bytes.size := by
      rw [Bool.or_eq_true, decide_eq_true_eq, decide_eq_true_eq, not_or] at fits
      exact Nat.not_lt.mp fits.2
    have bytes := Option.some.inj slice
    have at_ : (address + BitVec.ofNat 32 (4 * i)).toNat = address.toNat + 4 * i := by
      rw [BitVec.toNat_add, BitVec.toNat_ofNat]
      omega
    have number : numberAt m.bytes (address.toNat + 4 * i) w.toBytes.length = w.toBytes.value := by
      apply numberAt_eq_value
      intro j hj
      rw [Word.length_toBytes] at hj
      rw [← getElem?_flatMap_toBytes hw hj, ← bytes, Array.getElem?_toList, Array.getElem?_extract,
        if_pos (by omega), Nat.add_assoc]
    have small : w.toNat % 256 ^ 4 = w.toNat := Nat.mod_eq_of_lt w.isLt
    rw [Word.length_toBytes, Word.toBytes, Bytes.value_ofNat, small] at number
    rw [load_of_le (by rw [at_, size]; omega), at_, number]

/-- What a load brings is told by the bytes from its address on. -/
theorem Memory.load_congr {m m' : Memory} {address : Word} {length : Nat} (size : m'.size = m.size)
    (bytes : ∀ a, address.toNat ≤ a → m'.bytes[a]? = m.bytes[a]?) :
    m'.load address length = m.load address length := by
  have number : numberAt m'.bytes address.toNat length = numberAt m.bytes address.toNat length := by
    apply numberAt_congr
    intro a above _
    exact bytes a above
  rw [load, load, covers, covers, size, number]

/-! ## Handlers and records -/

variable {η τ : Type}

/-- The same handler with all that it was called with on record, oldest first. -/
def TrapHandler.recorded (h : TrapHandler η) : TrapHandler (η × List (Registers × Memory)) where
  handle s regs memory :=
    let (trap, s', regs', memory') := h.handle s.1 regs memory
    (trap, (s', s.2 ++ [(regs, memory)]), regs', memory')

/-- Words at an address stay there, whatever else the handler does to memory and registers. -/
def TrapHandler.Spares (h : TrapHandler η) (address : Word) (words : List Word) : Prop :=
  ∀ service regs memory, memory.HasWords address words →
    (h.handle service regs memory).2.2.2.HasWords address words

namespace Machine

/-- The machine with another state of another handler. -/
def serve (m : Machine η) (service : τ) : Machine τ :=
  { m with service }

/-- All of a machine but what it prints. -/
def status (m : Machine η) : Word × Registers × Memory × η :=
  (m.pc, m.regs, m.memory, m.service)

/-- The machine after so many steps, which are made whatever comes of the ones before. -/
def after (h : TrapHandler η) (m : Machine η) : Nat → Machine η
  | 0 => m
  | n + 1 => ((m.after h n).step h).2

variable {h : TrapHandler η} {m : Machine η}

/-- Noting and serving may be exchanged. -/
theorem noteIfVerbose_serve (m : Machine η) (service : τ) (n : Notice) :
    (m.serve service).noteIfVerbose n = (m.noteIfVerbose n).serve service := by
  unfold noteIfVerbose serve
  split <;> rfl

/-- A notice does not change the status. -/
theorem noteIfVerbose_status (m : Machine η) (n : Notice) :
    (m.noteIfVerbose n).status = m.status := by
  unfold noteIfVerbose
  split <;> rfl

/-- A notice does not change the handler's state. -/
theorem service_noteIfVerbose (m : Machine η) (n : Notice) :
    (m.noteIfVerbose n).service = m.service :=
  congrArg (·.2.2.2) (m.noteIfVerbose_status n)

/-- Forgets the record. -/
def unrecorded (m : Machine (η × List (Registers × Memory))) : Machine η :=
  m.serve m.service.1

/-- With the handler's calls on record, a step is the same. -/
theorem unrecorded_step (h : TrapHandler η) (m : Machine (η × List (Registers × Memory))) :
    (m.step h.recorded).1 = (m.unrecorded.step h).1 ∧
      (m.step h.recorded).2.unrecorded = (m.unrecorded.step h).2 := by
  have fetch : m.unrecorded.fetch = m.fetch := rfl
  unfold step
  rw [fetch]
  split
  next => exact ⟨rfl, rfl⟩
  next i _ =>
    have noted : m.unrecorded.noteIfVerbose (.executing m.unrecorded.pc i) =
        (m.noteIfVerbose (.executing m.pc i)).unrecorded := by
      unfold unrecorded
      rw [noteIfVerbose_serve, service_noteIfVerbose]
      rfl
    have effect : ∀ n : Machine (η × List (Registers × Memory)),
        i.effect n.unrecorded.pc n.unrecorded.regs n.unrecorded.memory =
          i.effect n.pc n.regs n.memory :=
      fun _ => rfl
    rw [noted]
    dsimp only
    rw [effect]
    split
    next => exact ⟨rfl, rfl⟩
    next e _ => cases e <;> exact ⟨rfl, rfl⟩

/-- Recording the traps changes nothing else. -/
theorem unrecorded_after (h : TrapHandler η)
    (m : Machine (η × List (Registers × Memory))) (n : Nat) :
    (m.after h.recorded n).unrecorded = m.unrecorded.after h n := by
  induction n with
  | zero => rfl
  | succ n ih => rw [after, after, (unrecorded_step h _).2, ih]

/-! ## Single steps -/

/-- A notice does not change what an instruction does. -/
theorem effect_noteIfVerbose (i : Instr) (m : Machine η) (n : Notice) :
    i.effect (m.noteIfVerbose n).pc (m.noteIfVerbose n).regs (m.noteIfVerbose n).memory =
      i.effect m.pc m.regs m.memory := by
  unfold noteIfVerbose
  split <;> rfl

/-- A step that fetches and has an effect applies it. -/
theorem step_of_fetch {i : Instr} {e : Effect} (fetch : m.fetch = .ok i)
    (effect : i.effect m.pc m.regs m.memory = .ok e) :
    (m.step h).1 = .ok (m.apply h e).1 ∧ (m.step h).2.status = (m.apply h e).2.status := by
  unfold step
  rw [fetch]
  dsimp only
  rw [effect_noteIfVerbose, effect]
  dsimp only
  unfold noteIfVerbose
  split
  next => cases e <;> exact ⟨rfl, rfl⟩
  next => exact ⟨rfl, rfl⟩

/-- Of words held in memory, the one at the program counter is fetched. -/
theorem fetch_of_hasWords {address : Word} {words : List Word} {i : Nat} {w : Word} {instr : Instr}
    (held : m.memory.HasWords address words) (at_ : m.pc = address + BitVec.ofNat 32 (4 * i))
    (hw : words[i]? = some w) (decodes : Instr.decode? w = some instr) : m.fetch = .ok instr := by
  unfold fetch
  rw [at_, held i w hw]
  dsimp only
  rw [BitVec.ofNat_toNat, BitVec.setWidth_eq, decodes]

section Halt

variable {address : Word} (held : m.memory.HasWords address haltCode)
include held

/-- The first word of the halt puts its selector into the register. -/
theorem step_selectHalt (at_ : m.pc = address) (zero : m.regs[Reg.zero] = 0) :
    (m.step h).1 = .ok .resume ∧
      (m.step h).2.status = (address + 4, m.regs.write .t0 haltSelector, m.memory, m.service) := by
  have fetch : m.fetch = .ok (.aluImm .addi .t0 .zero (haltSelector.signed 12)) := by
    apply fetch_of_hasWords (i := 0) held
    · rw [at_]
      exact (BitVec.add_zero address).symm
    · rfl
    · exact Instr.decode?_aluImm ..
  have selects : ImmOp.eval m.regs[Reg.zero] (haltSelector.signed 12) .addi = haltSelector := by
    rw [zero]
    decide
  obtain ⟨trap, status⟩ := step_of_fetch (h := h) fetch rfl
  rw [selects] at status
  refine ⟨trap, status.trans ?_⟩
  rw [← at_]
  rfl

/-- The second word of the halt asks the handler. -/
theorem step_ask (at_ : m.pc = address + 4) :
    let answer := h.handle m.service m.regs m.memory
    (m.step h).1 = .ok answer.1 ∧
      (m.step h).2.status =
        (address + 8, answer.2.2.1.set Reg.zero 0 Reg.zero.valid, answer.2.2.2, answer.2.1) := by
  have fetch : m.fetch = .ok .ecall := fetch_of_hasWords (i := 1) held at_ rfl Instr.decode?_ecall
  obtain ⟨trap, status⟩ := step_of_fetch (h := h) fetch rfl
  refine ⟨trap, status.trans ?_⟩
  have behind : address + 8 = m.pc + 4 := by
    rw [at_, BitVec.add_assoc]
    rfl
  rw [behind]
  rfl

/-- The third word of the halt jumps to itself and changes nothing. -/
theorem step_spin (at_ : m.pc = address + 8) :
    (m.step h).1 = .ok .resume ∧ (m.step h).2.status = m.status := by
  have fetch : m.fetch = .ok (.jal .zero (((0 : Word) &&& ~~~1).signed 21)) :=
    fetch_of_hasWords (i := 2) held at_ rfl (Instr.decode?_jal ..)
  obtain ⟨trap, status⟩ := step_of_fetch (h := h) fetch rfl
  refine ⟨trap, status.trans ?_⟩
  have here : m.pc + ((0 : Word) &&& ~~~1).signed 21 = m.pc := BitVec.add_zero m.pc
  rw [here]
  rfl

end Halt

/-! ## Any number of steps -/

/-- A handler on record leaves alone what it leaves alone without. -/
theorem spares_recorded {address : Word} {words : List Word} (spares : h.Spares address words) :
    h.recorded.Spares address words :=
  fun service => spares service.1

section Steps

variable (zero : m.regs[Reg.zero] = 0) (held : m.memory.HasWords m.pc haltCode)
include zero held

/-- One step behind the call of the halt its selector is in the register, and nothing else has
changed. -/
theorem status_after_one :
    (m.after h 1).status = (m.pc + 4, m.regs.write .t0 haltSelector, m.memory, m.service) :=
  (step_selectHalt held rfl zero).2

/-- Then the selector is in its register. -/
theorem regs_after_one : (m.after h 1).regs[Reg.t0] = haltSelector := by
  have regs : (m.after h 1).regs = m.regs.write .t0 haltSelector :=
    congrArg (·.2.1) (status_after_one zero held)
  rw [regs]
  exact Registers.getElem_write_self (by decide)

/-- The code of the halt is still held then. -/
theorem held_after_one :
    (m.after h 1).pc = m.pc + 4 ∧ (m.after h 1).memory.HasWords m.pc haltCode := by
  have selected := status_after_one (h := h) zero held
  have memory : (m.after h 1).memory = m.memory := congrArg (·.2.2.1) selected
  rw [memory]
  exact ⟨congrArg (·.1) selected, held⟩

/-- What two steps leave is what the handler answers. -/
theorem status_after_two :
    let asked := m.after h 1
    let answer := h.handle asked.service asked.regs asked.memory
    (m.after h 2).status =
      (m.pc + 8, answer.2.2.1.set Reg.zero 0 Reg.zero.valid, answer.2.2.2, answer.2.1) := by
  obtain ⟨pc, halt⟩ := held_after_one (h := h) zero held
  exact (step_ask halt pc).2

variable (spares : h.Spares m.pc haltCode)
include spares

/-- A handler that spares the code leaves it held. -/
theorem held_after_two :
    (m.after h 2).pc = m.pc + 8 ∧ (m.after h 2).memory.HasWords m.pc haltCode := by
  have answered := status_after_two (h := h) zero held
  have memory : (m.after h 2).memory = _ := congrArg (·.2.2.1) answered
  rw [memory]
  exact ⟨congrArg (·.1) answered, spares _ _ _ (held_after_one zero held).2⟩

/-- Behind the trap, nothing changes any more. -/
theorem status_after (n : Nat) : (m.after h (n + 2)).status = (m.after h 2).status := by
  obtain ⟨pc, halt⟩ := held_after_two zero held spares
  induction n with
  | zero => rfl
  | succ n ih =>
    have memory : (m.after h (n + 2)).memory = (m.after h 2).memory := congrArg (·.2.2.1) ih
    have at_ : (m.after h (n + 2)).pc = m.pc + 8 := (congrArg (·.1) ih).trans pc
    have spins := step_spin (h := h) (m := m.after h (n + 2)) (by rwa [memory]) at_
    exact spins.2.trans ih

/-- Where the machine stands after any number of steps: it does not leave the last word. -/
theorem pc_after (n : Nat) :
    (m.after h n).pc = if n = 0 then m.pc else if n = 1 then m.pc + 4 else m.pc + 8 := by
  match n with
  | 0 => rfl
  | 1 => exact (held_after_one zero held).1
  | n + 2 =>
    have same : (m.after h (n + 2)).pc = (m.after h 2).pc :=
      congrArg (·.1) (status_after zero held spares n)
    rw [same, if_neg (Nat.succ_ne_zero _), if_neg (by omega)]
    exact (held_after_two zero held spares).1

/-- No step fails, and only the second may halt. -/
theorem answer_after (n : Nat) :
    ∃ trap, ((m.after h n).step h).1 = .ok trap ∧ (n ≠ 1 → trap = .resume) := by
  match n with
  | 0 => exact ⟨.resume, (step_selectHalt held rfl zero).1, fun _ => rfl⟩
  | 1 =>
    obtain ⟨pc, halt⟩ := held_after_one (h := h) zero held
    exact ⟨_, (step_ask halt pc).1, fun later => absurd rfl later⟩
  | n + 2 =>
    obtain ⟨pc, halt⟩ := held_after_two zero held spares
    have same := status_after zero held spares n
    have memory : (m.after h (n + 2)).memory = (m.after h 2).memory := congrArg (·.2.2.1) same
    have at_ : (m.after h (n + 2)).pc = m.pc + 8 := (congrArg (·.1) same).trans pc
    exact ⟨.resume, (step_spin (by rwa [memory]) at_).1, fun _ => rfl⟩

/-- The handler is called by the second step, and never again. -/
theorem calls_after (n : Nat) :
    ((m.serve (m.service, [])).after h.recorded n).service.2 =
      if n < 2 then [] else [((m.after h 1).regs, (m.after h 1).memory)] := by
  let start : Machine (η × List (Registers × Memory)) := m.serve (m.service, [])
  have one : (start.after h.recorded 1).service.2 = [] :=
    congrArg (·.2.2.2.2) (status_after_one (m := start) zero held)
  match n with
  | 0 => rfl
  | 1 => exact one
  | n + 2 =>
    have two : (start.after h.recorded 2).service.2 = (start.after h.recorded 1).service.2 ++
        [((start.after h.recorded 1).regs, (start.after h.recorded 1).memory)] :=
      congrArg (·.2.2.2.2) (status_after_two (m := start) zero held)
    have quiet :
        (start.after h.recorded (n + 2)).service.2 = (start.after h.recorded 2).service.2 :=
      congrArg (·.2.2.2.2) (status_after (m := start) zero held (spares_recorded spares) n)
    have same : (start.after h.recorded 1).unrecorded = m.after h 1 := unrecorded_after h start 1
    rw [quiet, two, one, if_neg (by omega), ← same]
    rfl

end Steps

/-- From a machine that has come to the halt code, however many steps are made: it stands at one of
the three instructions, no step fails, and none but the second can halt. The handler is called by
the second step alone, with the halt opcode in `t0`, and behind that step nothing changes any more.
-/
theorem spins_behind_halt (zero : m.regs[Reg.zero] = 0) (held : m.memory.HasWords m.pc haltCode)
    (spares : h.Spares m.pc haltCode) (n : Nat) :
    let now := m.after h n
    let asked := m.after h 1
    let recorded := (m.serve (m.service, [])).after h.recorded n
    now.pc = (if n = 0 then m.pc else if n = 1 then m.pc + 4 else m.pc + 8) ∧
      (∃ trap, (now.step h).1 = .ok trap ∧ (n ≠ 1 → trap = .resume)) ∧
      (2 ≤ n → now.status = (m.after h 2).status) ∧
      recorded.unrecorded = now ∧
      recorded.service.2 = (if n < 2 then [] else [(asked.regs, asked.memory)]) ∧
      asked.regs[Reg.t0] = haltSelector := by
  have settled : 2 ≤ n → (m.after h n).status = (m.after h 2).status := by
    intro later
    obtain ⟨k, rfl⟩ := Nat.exists_eq_add_of_le' later
    exact status_after zero held spares k
  exact ⟨pc_after zero held spares n, answer_after zero held spares n, settled,
    unrecorded_after h (m.serve (m.service, [])) n, calls_after zero held spares n,
    regs_after_one zero held⟩

/-- A handler that goes on, with every register changed and a byte of memory. -/
def overwriting : TrapHandler Unit where
  handle s _ memory := (.resume, s, Vector.replicate 32 0xdead, ⟨memory.bytes.setIfInBounds 0 0xff⟩)

/-- A machine at the halt code, with something else behind it. -/
def atHalt : Machine Unit :=
  { pc := 4, memory := ⟨(List.replicate 4 0 ++ haltBytes ++ Encode.ecall.toBytes).toArray⟩,
    service := () }

/-- A handler that writes elsewhere spares the code. -/
theorem spares_overwriting : overwriting.Spares 4 haltCode := by
  intro _ _ memory held i w hw
  have hi : i < 3 := (List.getElem?_eq_some_iff.mp hw).1
  have at_ : ((4 : Word) + BitVec.ofNat 32 (4 * i)).toNat = 4 + 4 * i := by
    rw [BitVec.toNat_add, BitVec.toNat_ofNat]
    have four : (4 : Word).toNat = 4 := rfl
    omega
  rw [← held i w hw]
  apply Memory.load_congr
  · exact Array.size_setIfInBounds
  · intro a above
    exact Array.getElem?_setIfInBounds_ne (by omega)

/-- The registers stay as the handler left them, and so does the program counter stay at the jump.
-/
theorem spins_behind_halt_overwriting :
    atHalt.regs[Reg.zero] = 0 ∧ atHalt.memory.HasWords atHalt.pc haltCode ∧
      overwriting.Spares atHalt.pc haltCode ∧ ∀ n, 2 ≤ n →
        (atHalt.after overwriting n).pc = 12 ∧
        (atHalt.after overwriting n).regs[Reg.a0] = 0xdead := by
  have zero : atHalt.regs[Reg.zero] = 0 := by decide +kernel
  have held : atHalt.memory.HasWords atHalt.pc haltCode := by
    apply Memory.hasWords_of_slice? <;> decide +kernel
  refine ⟨zero, held, spares_overwriting, ?_⟩
  intro n later
  obtain ⟨pc, -, settled, -⟩ := spins_behind_halt zero held spares_overwriting n
  have regs : (atHalt.after overwriting n).regs = (atHalt.after overwriting 2).regs :=
    congrArg (·.2.1) (settled later)
  rw [pc, if_neg (by omega), if_neg (by omega), regs]
  decide +kernel

end Machine

end BareC
