import BareC.Isa.Halt
import BareC.Machine.Memory

/-!
# Traps

An `ecall` hands the registers and the memory to a handler, which may change both and decides
whether the machine goes on. Nothing is assumed about a handler. The one that machines come with
halts, with the exit code in `a0`, if `t0` holds the halt opcode, and otherwise answers zero.
-/

namespace BareC

/-- The registers; the first reads as zero. -/
abbrev Registers := Vector Word 32

/-- Registers are looked up by their numbers, and there is one for each. -/
instance : GetElem Registers Reg Word fun _ _ => True where
  getElem regs r _ := regs.get r

/-- The registers after an instruction has written one of them. What is written to the first is
lost. -/
def Registers.write (regs : Registers) (rd : Reg) (v : Word) : Registers :=
  if rd = .zero then regs else regs.set rd v rd.valid

/-- What a machine does after an `ecall`. -/
inductive Trap where
  | resume
  | halt (code : Word)
  deriving DecidableEq, Repr

/-- A handler of traps with states `η`. -/
structure TrapHandler (η : Type) where
  handle : η → Registers → Memory → Trap × η × Registers × Memory

namespace TrapHandler

/-- The handler that knows how to halt. Its state counts the calls that it answered with zero. -/
def halting : TrapHandler Nat where
  handle ignored regs memory :=
    if regs[Reg.t0] = haltSelector then (.halt regs[Reg.a0], ignored, regs, memory)
    else (.resume, ignored + 1, regs.set Reg.a0 0, memory)

/-- The handler that always goes on and changes nothing. -/
def resuming : TrapHandler Unit where
  handle s regs memory := (.resume, s, regs, memory)

/-- The byte that a scribbling handler leaves. -/
def scribble : Nat := 0x5a

/-- A handler that goes on after writing where it should not: to the register that reads as zero, to
`a0`, and to memory at the address in `a1`, if there is any. -/
def scribbling : TrapHandler Unit where
  handle s regs memory :=
    let memory' :=
      if memory.covers regs[Reg.a1] 1 then memory.put regs[Reg.a1] 1 scribble else memory
    (.resume, s, (regs.set Reg.zero 0xdead).set Reg.a0 (regs[Reg.a0] + 1), memory')

/-- The same handler with its calls counted. -/
def counted {η : Type} (h : TrapHandler η) : TrapHandler (η × Nat) where
  handle s regs memory :=
    let (trap, s', regs, memory) := h.handle s.1 regs memory
    (trap, (s', s.2 + 1), regs, memory)

end TrapHandler

end BareC
