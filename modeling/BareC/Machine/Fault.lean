import BareC.Bytes

/-!
# Why a machine stops

A run that does not reach the halt ends in one of these.
-/

namespace BareC

inductive MachineFault where
  /-- The word at the program counter is no instruction. -/
  | illegalInstruction (pc word : Word)
  /-- An access of `length` bytes reaches outside of memory. -/
  | access (address : Word) (length : Nat)
  | breakpoint (pc : Word)
  /-- The steps that were allowed are used up. -/
  | stepLimit (pc : Word) (steps : Nat)
  /-- Code to be loaded is longer than memory. -/
  | codeTooLarge (length memory : Nat)
  deriving DecidableEq, Repr

/-- The wording of a fault. -/
def MachineFault.message : MachineFault → String
  | .illegalInstruction pc word =>
    "illegal instruction 0x" ++ word.toHex ++ " at pc 0x" ++ pc.toHex
  | .access address length =>
    "memory fault: " ++ toString length ++ " byte access at 0x" ++ address.toHex
  | .breakpoint pc => "ebreak at pc 0x" ++ pc.toHex
  | .stepLimit pc steps =>
    "step limit of " ++ toString steps ++ " reached at pc 0x" ++ pc.toHex
  | .codeTooLarge length memory =>
    "code of " ++ toString length ++ " bytes does not fit in " ++ toString memory ++
      " bytes of memory"

end BareC
