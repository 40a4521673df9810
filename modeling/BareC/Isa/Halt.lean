import BareC.Isa.Encode

/-!
# Halting the machine

The only thing a program can ask its surroundings for is to stop. It does so by an `ecall` with the
halt opcode in `t0` and the exit code in `a0`. A machine that comes back from the trap finds a jump
to itself.
-/

namespace BareC

/-- What `t0` holds to halt. -/
def haltSelector : Word := 0

/-- Puts the halt opcode into `t0`. -/
def selectHalt : Word :=
  Encode.aluImm .addi (Encode.reg .t0) (Encode.reg .zero) haltSelector

/-- A jump to itself. -/
def selfJump : Word :=
  Encode.jal (Encode.reg .zero) 0

/-- The code that halts the machine with the exit code in `a0`. -/
def haltCode : List Word :=
  [selectHalt, Encode.ecall, selfJump]

/-- The same as bytes. -/
def haltBytes : Bytes :=
  haltCode.flatMap Word.toBytes

end BareC
