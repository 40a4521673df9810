import BareC.Proofs.Semantics.Frames

/-!
# Watching a machine

What can be seen of a run from outside, step by step (`Machine.Watched`): the instruction that is
executed, and the calls that have been made and have not returned. A machine is `Proper` if nothing
that was promised of the next step is broken by it.

To show that a machine stays proper for ever, it is shown to do so for any number of steps, as long
as the stack pointer stays between the code and the start of the stack (`Machine.SafeFor`). Being
safe is carried backwards: a machine is safe if the one behind its next step is.

The monitor changes nothing: it is a relation between machines, with the open calls beside them. A
check that goes through it step by step (`watch?`) is proved to find only what is so, and lets an
example be looked at some way into its run.
-/

namespace BareC

/-- A call that has not returned, as it was seen when it was made. -/
structure Call where
  /-- The address behind the instruction that called. -/
  resume : Word
  sp : Word
  s0 : Word

namespace Machine

variable {η : Type}

/-- The open calls behind an instruction. A jump that leaves its return address in `ra` is a call,
and an indirect jump is a return from the latest one. -/
def callsBehind (m : Machine η) (calls : List Call) : Instr → List Call
  | .jal rd _ => if rd = .ra then ⟨m.pc + 4, m.regs[Reg.sp], m.regs[Reg.s0]⟩ :: calls else calls
  | .jalr .. => calls.tail
  | _ => calls

/-- The stack pointer lies between two addresses. -/
def StackWithin (low high : Nat) (m : Machine η) : Prop :=
  low ≤ m.regs[Reg.sp].toNat ∧ m.regs[Reg.sp].toNat ≤ high

/-- So many steps from the start the machine is `m` and these calls are open, and in every state up
to there the stack pointer was between the two addresses. -/
inductive Watched (h : TrapHandler η) (low high : Nat) (start : Machine η) :
    Nat → Machine η → List Call → Prop where
  | start (within : start.StackWithin low high) : Watched h low high start 0 start []
  | step {k : Nat} {m m' : Machine η} {calls : List Call} {instr : Instr}
      (before : Watched h low high start k m calls) (fetch : m.fetch = .ok instr)
      (step : m.step h = (.ok .resume, m')) (within : m'.StackWithin low high) :
      Watched h low high start (k + 1) m' (m.callsBehind calls instr)

/-! ### Watching by computing -/

instance (low high : Nat) : DecidablePred (StackWithin (η := η) low high) := fun _ =>
  inferInstanceAs (Decidable (_ ∧ _))

/-- The machine so many steps on and the calls that are open then, if it gets there and its stack
pointer stays between the two addresses. -/
def watch? (h : TrapHandler η) (low high : Nat) : (steps : Nat) → Machine η → List Call →
    Option (Machine η × List Call)
  | 0, m, calls => some (m, calls)
  | steps + 1, m, calls =>
    match m.fetch, m.step h with
    | .ok instr, (.ok .resume, m') =>
      if m'.StackWithin low high then
        watch? h low high steps m' (m.callsBehind calls instr)
      else none
    | _, _ => none

/-- What the checker goes through is watched, by induction on the steps. -/
theorem Watched.of_watch? {h : TrapHandler η} {low high k steps : Nat} {start m m' : Machine η}
    {calls calls' : List Call} (before : Watched h low high start k m calls)
    (seen : watch? h low high steps m calls = some (m', calls')) :
    Watched h low high start (k + steps) m' calls' := by
  induction steps generalizing k m calls with
  | zero =>
    cases seen
    exact before
  | succ steps ih =>
    rw [watch?] at seen
    split at seen
    next fetch step =>
      split at seen
      next within =>
        rw [Nat.add_comm steps, ← Nat.add_assoc]
        exact ih (before.step fetch step within) seen
      next => cases seen
    next => cases seen

/-- Where the halt behind the call of `main` is. -/
def haltAddress : Word := 8

/-- The machine is at an instruction of its code, the code is as it was loaded, and the next step
goes well: it stores between the stack pointer and the end of the stack, it returns from the latest
call to where that was made and as it was made, and it neither fails nor halts anywhere but at the
halt. -/
structure Proper (h : TrapHandler η) (words : List Word) (top : Nat) (calls : List Call)
    (m : Machine η) : Prop where
  inside : ∃ i, m.pc.toNat = 4 * i ∧ words[i]? = some (m.memory.wordAt m.pc.toNat)
  code : m.memory.slice? 0 (4 * words.length) = some (words.flatMap Word.toBytes)
  store : ∀ instr address length v, m.fetch = .ok instr →
    instr.effect m.pc m.regs m.memory = .ok (.store address length v) →
      m.regs[Reg.sp].toNat ≤ address.toNat ∧ address.toNat + length ≤ top
  ret : ∀ rd rs1 offset m', m.fetch = .ok (.jalr rd rs1 offset) →
    m.step h = (.ok .resume, m') → ∃ call rest, calls = call :: rest ∧
      m'.pc = call.resume ∧ m'.regs[Reg.sp] = call.sp ∧ m'.regs[Reg.s0] = call.s0
  step : (∃ m', m.step h = (.ok .resume, m')) ∨
    ∃ v m', m.step h = (.ok (.halt v), m') ∧ m.pc = haltAddress

/-- The machine stays proper for so many steps, unless the stack pointer leaves its bounds. -/
def SafeFor (h : TrapHandler η) (words : List Word) (top : Nat) :
    Nat → Machine η → List Call → Prop
  | 0, _, _ => True
  | k + 1, m, calls => m.StackWithin (4 * words.length) top →
    m.Proper h words top calls ∧ ∀ instr m', m.fetch = .ok instr →
      m.step h = (.ok .resume, m') → SafeFor h words top k m' (m.callsBehind calls instr)

variable {h : TrapHandler η} {words : List Word} {top : Nat} {m m' start : Machine η}
  {calls : List Call} {k n : Nat}

/-- A machine that is safe for any number of steps is proper wherever it comes. -/
theorem Watched.proper (watched : Watched h (4 * words.length) top start n m calls)
    (safe : ∀ k, SafeFor h words top k start []) : m.Proper h words top calls := by
  have all : m.StackWithin (4 * words.length) top ∧ ∀ k, SafeFor h words top k m calls := by
    induction watched with
    | start within => exact ⟨within, safe⟩
    | step before fetch step within ih =>
      refine ⟨within, fun k => ?_⟩
      exact (ih.2 (k + 1) ih.1).2 _ _ fetch step
  exact (all.2 1 all.1).1

namespace SafeFor

/-- What is safe for some steps is safe for fewer. -/
theorem mono (safe : SafeFor h words top k m calls) (le : n ≤ k) :
    SafeFor h words top n m calls := by
  induction n generalizing k m calls with
  | zero => trivial
  | succ n ih =>
    obtain ⟨k, rfl⟩ : ∃ k', k = k' + 1 := ⟨k - 1, by omega⟩
    intro within
    obtain ⟨proper, next⟩ := safe within
    refine ⟨proper, fun instr m' fetch step => ?_⟩
    exact ih (next instr m' fetch step) (by omega)

/-- Nothing is promised of a machine whose stack pointer left its bounds. -/
theorem of_not_within (outside : ¬m.StackWithin (4 * words.length) top) :
    SafeFor h words top k m calls := by
  cases k with
  | zero => trivial
  | succ k => exact fun within => absurd within outside

end SafeFor

/-- What a machine finds at its program counter is its code. -/
theorem Inside.word (inside : m.Inside words) :
    ∃ i, m.pc.toNat = 4 * i ∧ words[i]? = some (m.memory.wordAt m.pc.toNat) := by
  obtain ⟨carries, i, hi, at_⟩ := inside
  have small := carries.small
  have pc : m.pc.toNat = 4 * i := by rw [at_, Word.toNat_ofNat_of_lt (by omega)]
  refine ⟨i, pc, ?_⟩
  rw [pc, carries.code.wordAt (List.getElem?_eq_getElem hi), List.getElem?_eq_getElem hi]

/-- The code of a machine inside its program is in its memory. -/
theorem Inside.code (inside : m.Inside words) :
    m.memory.slice? 0 (4 * words.length) = some (words.flatMap Word.toBytes) := by
  rw [← length_flatMap_toBytes]
  exact inside.1.code.slice?_eq

/-- An instruction of the code that keeps to the stack, and returns only from where it was called.
-/
theorem Inside.proper {instr : Instr} {e : Effect} (inside : m.Inside words)
    (does : m.Does h instr e m')
    (store : ∀ a length v, e = .store a length v →
      m.regs[Reg.sp].toNat ≤ a.toNat ∧ a.toNat + length ≤ top)
    (ret : ∀ rd rs1 offset, instr = .jalr rd rs1 offset → ∃ call rest, calls = call :: rest ∧
      m'.pc = call.resume ∧ m'.regs[Reg.sp] = call.sp ∧ m'.regs[Reg.s0] = call.s0) :
    m.Proper h words top calls := by
  refine ⟨inside.word, inside.code, ?_, ?_, .inl ⟨m', does.step⟩⟩
  · intro instr' a length v fetch effect
    rw [does.fetch] at fetch
    cases fetch
    rw [does.effect] at effect
    cases effect
    exact store a length v rfl
  · intro rd rs1 offset m'' fetch step
    rw [does.fetch] at fetch
    cases fetch
    rw [does.step] at step
    cases step
    exact ret rd rs1 offset rfl

namespace SafeFor

/-- A machine is safe if its next step is proper and the machine behind it is safe. -/
theorem of_does {instr : Instr} {e : Effect} (does : m.Does h instr e m')
    (proper : m.StackWithin (4 * words.length) top → m.Proper h words top calls)
    (next : ∀ n < k, SafeFor h words top n m' (m.callsBehind calls instr)) :
    SafeFor h words top k m calls := by
  cases k with
  | zero => trivial
  | succ k =>
    intro within
    refine ⟨proper within, fun instr' m'' fetch step => ?_⟩
    rw [does.fetch] at fetch
    cases fetch
    rw [does.step] at step
    cases step
    exact next k (Nat.lt_succ_self k)

end SafeFor

/-- Harmless instructions neither call nor return. -/
theorem Harmless.callsBehind {instr : Instr} {e : Effect} (harmless : m.Harmless top instr e) :
    m.callsBehind calls instr = calls := by
  cases instr with
  | jal rd offset =>
    rw [Machine.callsBehind, if_neg]
    rintro rfl
    exact harmless.call offset rfl
  | jalr rd rs1 offset => exact absurd rfl (harmless.ret rd rs1 offset)
  | _ => rfl

namespace SafeFor

/-- A harmless instruction is safe if what follows it is. -/
theorem of_harmless {instr : Instr} {e : Effect} (inside : m.Inside words)
    (does : m.Does h instr e m') (harmless : m.Harmless top instr e)
    (next : ∀ n < k, SafeFor h words top n m' calls) : SafeFor h words top k m calls := by
  refine of_does does (fun _ => inside.proper does harmless.store ?_) ?_
  · intro rd rs1 offset eq
    exact absurd eq (harmless.ret rd rs1 offset)
  · rw [harmless.callsBehind]
    exact next

/-- A machine is safe if the one at the end of a path is. -/
theorem of_path (path : Path h words top m m') (safe : SafeFor h words top k m' calls) :
    SafeFor h words top k m calls := by
  induction path with
  | refl => exact safe
  | step inside does harmless _ ih =>
    exact of_harmless inside does harmless fun n hn => (ih safe).mono (Nat.le_of_lt hn)

/-- Lowering the stack pointer is safe if there is no room: it leaves its bounds. -/
theorem of_lower {i a c : Nat} (hm : m.Carries words) (at_ : m.At i)
    (hw : words[i]? = some (Encode.aluImm .addi (Encode.reg .sp) (Encode.reg .sp)
      (-BitVec.ofNat 32 c)))
    (fits : Word.signed 12 (-BitVec.ofNat 32 c) = -BitVec.ofNat 32 c) (few : c < 2 ^ 31)
    (sp : m.regs[Reg.sp] = BitVec.ofNat 32 a) (le : a ≤ top) (lt : top < 2 ^ 31)
    (full : a < 4 * words.length + c) : SafeFor h words top k m calls := by
  refine of_path (path_aluImm top hm at_ hw fits) (of_not_within ?_)
  have value : (m.wrote Reg.sp (ImmOp.addi.eval m.regs[Reg.sp] (-BitVec.ofNat 32 c))).regs[Reg.sp] =
      BitVec.ofNat 32 a + -BitVec.ofNat 32 c := by
    refine (Registers.getElem_write_self (by decide)).trans ?_
    rw [sp]
    rfl
  rintro ⟨low, high⟩
  rw [value] at low high
  by_cases enough : c ≤ a
  · obtain ⟨b, rfl⟩ : ∃ b, a = b + c := ⟨a - c, by omega⟩
    rw [Word.ofNat_add_neg, Word.toNat_ofNat_of_lt (by omega)] at low
    omega
  · rw [Word.toNat_ofNat_add_neg (by omega) (by omega)] at high
    omega

end SafeFor

end Machine

end BareC
