import BareC.Machine.Run
import BareC.Proofs.Semantics.Functions
import BareC.Token.Scan

/-!
# Preservation of meaning

What the evaluator says of `main` is what the machine does: it halts behind the call of `main` with
the value as its exit code. The evaluator only has to come to an end, and the stack that it asks for
has to fit between the code and the place where the stack begins.

The number of steps is part of the result: some number of steps, after which the machine halts.
Nothing is claimed where the evaluator has no result, be it that it never ends, that it reads what
was not written or that a name has no definition; and nothing where the stack does not suffice,
which the machine does not check.
-/

namespace BareC

open Assembly

/-- The stack begins inside the memory. -/
theorem Memory.toNat_stackStart_le (m : Memory) : m.stackStart.toNat ≤ m.size := by
  rw [stackStart, BitVec.toNat_and]
  refine Nat.le_trans Nat.and_le_left ?_
  rw [BitVec.toNat_ofNat]
  exact Nat.mod_le ..

namespace Machine

/-- A machine that is about to run a unit. -/
structure Ready {η : Type} (m : Machine η) (words : List Word) (size : Nat) (argc argv : Word) :
    Prop where
  carries : m.Carries words
  at_ : m.At 0
  memory_size : m.memory.size = size
  sp : m.regs[Reg.sp] = (Memory.zeros size).stackStart
  a0 : m.regs[Reg.a0] = argc
  a1 : m.regs[Reg.a1] = argv
  others : ∀ r, r ≠ Reg.sp → r ≠ Reg.a0 → r ≠ Reg.a1 → m.regs[r] = 0

theorem setReg_ne {η : Type} {m : Machine η} {r s : Reg} {v : Word} (h : r ≠ s) :
    (m.setReg s v).regs[r] = m.regs[r] :=
  Registers.getElem_set_of_ne h

theorem setReg_self {η : Type} {m : Machine η} {r : Reg} {v : Word} : (m.setReg r v).regs[r] = v :=
  Registers.getElem_set_self

/-- A machine that has just been created takes code that fits its memory. -/
theorem load_create {η : Type} (service : η) {size : Nat} {code : Bytes}
    (fits : code.length ≤ size) :
    (create size service).load code = (.ok (), { create size service with
      memory := ⟨(code ++ List.replicate (size - code.length) 0).toArray⟩, pc := 0 }) := by
  rw [load, show (create size service).memory = Memory.zeros size from rfl,
    Memory.place_zeros fits]
  rfl

/-- Loading code into a machine that has just been created makes it ready. -/
theorem ready_of_load {η : Type} (service : η) (size : Nat) (words : List Word) (argc argv : Word)
    (short : 4 * words.length ≤ 2 ^ 20) (fits : 4 * words.length ≤ size) :
    ∃ loaded, (create size service).load (words.flatMap Word.toBytes) = (.ok (), loaded) ∧
      (loaded.setArgs argc argv).Ready words size argc argv := by
  have zeros : (Memory.zeros size).size = size := Array.size_replicate
  have room : (words.flatMap Word.toBytes).length ≤ size := by rwa [length_flatMap_toBytes]
  obtain ⟨holds, same⟩ := Memory.holds_of_place (Memory.place_zeros room)
  refine ⟨_, load_create service room, ⟨rfl, ?_, holds, short⟩, rfl, same.trans zeros, ?_, ?_,
    setReg_self, ?_⟩
  · rw [setArgs, setReg_ne (by decide), setReg_ne (by decide)]
    rfl
  · rw [setArgs, setReg_ne (by decide), setReg_ne (by decide)]
    exact Registers.getElem_set_self
  · rw [setArgs, setReg_ne (by decide)]
    exact setReg_self
  · intro r sp a0 a1
    rw [setArgs, setReg_ne a1, setReg_ne a0]
    exact (Registers.getElem_set_of_ne sp).trans (Vector.getElem_replicate r.valid)

/-- The arguments of `main` are in their registers. -/
theorem Ready.passed {η : Type} {m : Machine η} {words : List Word} {size : Nat} {argc argv : Word}
    (ready : m.Ready words size argc argv) {params k : Nat} (hk : k < Grammar.maxParameters)
    {w : Word} (hw : ((argc :: argv :: List.replicate 6 0).take params)[k]? = some w) :
    m.regs[argumentReg k hk] = w := by
  rw [List.getElem?_take] at hw
  split at hw
  next =>
    rcases k with _ | _ | k
    · cases hw
      exact ready.a0
    · cases hw
      exact ready.a1
    · have zero : w = 0 := by
        rw [List.getElem?_cons_succ, List.getElem?_cons_succ, List.getElem?_replicate] at hw
        split at hw
        next => exact (Option.some.inj hw).symm
        next => cases hw
      rw [zero]
      have ne (r : Reg) (low : r < 12) : argumentReg (k + 2) hk ≠ r := by
        rintro rfl
        have := Fin.lt_def.mp low
        simp only [argumentReg] at this
        omega
      exact ready.others _ (ne _ (by decide)) (ne _ (by decide)) (ne _ (by decide))
  next => cases hw

/-- The `ecall` behind the call of `main` halts with what `main` left in `a0`. -/
theorem Carries.step_halt {m : Machine Nat} {words : List Word} {i : Nat} (hm : m.Carries words)
    (at_ : m.At i) (hw : words[i]? = some Encode.ecall) (t0 : m.regs[Reg.t0] = haltSelector) :
    ∃ m', m.step .halting = (.ok (.halt m.regs[Reg.a0]), m') := by
  have handled : TrapHandler.halting.handle m.service m.regs m.memory =
      (.halt m.regs[Reg.a0], m.service, m.regs, m.memory) := if_pos t0
  refine ⟨{ m with regs := m.regs.set Reg.zero 0, pc := m.pc + 4 }, ?_⟩
  rw [step, hm.fetch at_ hw Instr.decode?_ecall]
  simp only [noteIfVerbose, hm.silent, Bool.false_eq_true, if_false, Instr.effect, apply, handled]

/-- A run that comes to where the next step halts, if it is long enough. -/
theorem Reaches.run {η : Type} {h : TrapHandler η} {m m' m'' : Machine η} {v : Word} {i : Nat}
    (reaches : Reaches h m m') (at_ : m'.At i) (halts : m'.step h = (.ok (.halt v), m'')) :
    ∃ steps, ∀ limit, steps ≤ limit →
      (m.run h limit).1 = .ok ⟨v, steps, BitVec.ofNat 32 (4 * i)⟩ := by
  obtain ⟨n, way⟩ := reaches
  refine ⟨n + 1, fun limit enough => ?_⟩
  obtain ⟨left, rfl⟩ := Nat.le.dest enough
  rw [Machine.run, Nat.add_assoc, way, Nat.add_comm 1 left, runFrom, halts, ← at_, Nat.zero_add]

end Machine

namespace Program

/-- The machine does what the evaluator says of `main`. If the evaluator comes to the end of it with
a value, and the stack that it needed fits between the code and the start of the stack, then the
machine halts at the `ecall` behind the call of `main` with that value, given enough steps. -/
theorem run_of_evalMain {ts : List Token} {size fuel need : Nat} {argc argv v : Word}
    (short : (ofTokens ts).codeLength ≤ 2 ^ 20) (small : size < 2 ^ 31)
    (eval : (ofTokens ts).evalMain fuel argc argv = some (v, need))
    (room : (ofTokens ts).codeLength + need ≤ (Memory.zeros size).stackStart.toNat) :
    ∃ loaded, (Machine.create size 0).load (ofTokens ts).code = (.ok (), loaded) ∧
      ∃ steps, ∀ limit, steps ≤ limit →
        ((loaded.setArgs argc argv).run .halting limit).1 = .ok ⟨v, steps, 8⟩ := by
  obtain ⟨f, last, called⟩ := Option.bind_eq_some_iff.mp eval
  have stack_le : (Memory.zeros size).stackStart.toNat ≤ size :=
    Nat.le_trans (Memory.toNat_stackStart_le _) (Nat.le_of_eq Array.size_replicate)
  have length : 4 * (ofTokens ts).words.length = (ofTokens ts).codeLength := rfl
  obtain ⟨loaded, load, ready⟩ := Machine.ready_of_load 0 size (ofTokens ts).words argc argv
    short (by omega)
  refine ⟨loaded, load, ?_⟩
  generalize loaded.setArgs argc argv = m at ready
  -- The call of `main`.
  have compact : (ofTokens ts).assembly.Compact := compact_of_codeLength_le short
  have sound : ∀ f ∈ (ofTokens ts).functions, f.Sound fun slots => Expr.Within slots :=
    fun f mem => within_of_mem_functions mem
  obtain ⟨-, entry, place, calls⟩ := runsCalls sound compact TrapHandler.halting
    (Memory.zeros size).stackStart.toNat fuel "main" _ v need called
  obtain ⟨call, select, ecall, -⟩ := placed_entryStub last
  rw [place] at call
  have jump := ready.carries.does_jal (h := .halting) ready.at_ call (compact _ _ place)
  let m₁ := m.linked Reg.ra (BitVec.ofNat 32 (4 * entry))
  have ra : m₁.regs[Reg.ra] = BitVec.ofNat 32 (4 * 1) := by
    refine (Registers.getElem_write_self (by decide)).trans ?_
    rw [ready.at_]
    rfl
  have sp : m₁.regs[Reg.sp] = BitVec.ofNat 32 (Memory.zeros size).stackStart.toNat := by
    rw [BitVec.ofNat_toNat, BitVec.setWidth_eq]
    exact (Registers.getElem_write_of_ne (by decide)).trans ready.sp
  have passed : ∀ k (hk : k < Grammar.maxParameters) w,
      ((argc :: argv :: List.replicate 6 0).take f.params)[k]? = some w →
        m₁.regs[Machine.argumentReg k hk] = w := fun k hk w hw =>
    (Registers.getElem_write_of_ne (Ne.symm (Machine.ne_argumentReg (by decide) hk))).trans
      (ready.passed hk hw)
  obtain ⟨m₂, reaches, at₂, carries₂, -, -, value, -⟩ := calls m₁ _ 1 rfl ready.carries.linked sp ra
    passed room (Nat.le_refl _) (ready.memory_size ▸ stack_le) (ready.memory_size ▸ small)
  -- The halt behind it.
  have selected := carries₂.does_aluImm (h := .halting) at₂ select (by decide)
  have t0 : (m₂.wrote Reg.t0 (m₂.regs[Reg.zero] + haltSelector)).regs[Reg.t0] = haltSelector := by
    rw [Machine.getElem_wrote_self (by decide), carries₂.zero]
    rfl
  obtain ⟨m₃, halts⟩ := carries₂.wrote.step_halt at₂.wrote ecall t0
  rw [Machine.getElem_wrote_of_ne (by decide), value] at halts
  exact ((Machine.Reaches.one jump.step).trans (reaches.trans (.one selected.step))).run at₂.wrote
    halts

/-- A unit that adds up the numbers up to its first argument. -/
def summing : List Token :=
  Token.ofSource "
    int sum(int n) \x7b if (n) return n + sum(n - 1); return 0; \x7d
    int main(int n) \x7b return sum(n); \x7d".toUTF8.toList

/-- The code of the example. -/
theorem codeLength_summing : (ofTokens summing).codeLength = 236 := by
  have size : (ofTokens summing).assembly.size = 59 := by decide +kernel
  rw [codeLength, words, length_link, size]

/-- The sum up to five comes out of a kilobyte of memory. -/
theorem run_summing :
    ∃ loaded, (Machine.create 1024 0).load (ofTokens summing).code = (.ok (), loaded) ∧
      ∃ steps, ∀ limit, steps ≤ limit →
        ((loaded.setArgs 5 0).run .halting limit).1 = .ok ⟨15, steps, 8⟩ := by
  have stack : (Memory.zeros 1024).stackStart.toNat = 1024 := by decide +kernel
  have eval : (ofTokens summing).evalMain 10 5 0 = some (15, 188) := by decide +kernel
  have short : (ofTokens summing).codeLength ≤ 2 ^ 20 := by
    rw [codeLength_summing]
    decide
  have room : (ofTokens summing).codeLength + 188 ≤ (Memory.zeros 1024).stackStart.toNat := by
    rw [codeLength_summing, stack]
    decide
  exact run_of_evalMain short (by decide) eval room

end Program

end BareC
