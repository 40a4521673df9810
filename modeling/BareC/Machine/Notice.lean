import BareC.Isa.Listing
import BareC.Machine.Trap

/-!
# What a machine prints

A machine that is told to be verbose reports what it loads, every instruction before it executes,
and how it halted. Its registers are printed on request.
-/

namespace BareC

inductive Notice where
  | loaded (length : Nat) (sp : Word)
  | executing (pc : Word) (i : Instr)
  | halted (code : Word) (steps : Nat)
  | registers (regs : Registers) (pc : Word)

/-- Text made at least so long by spaces behind it. -/
def padRight (length : Nat) (s : String) : String :=
  s ++ String.ofList (List.replicate (length - s.length) ' ')

/-- A number below a hundred in two digits. -/
def twoDigits (n : Nat) : String :=
  if n < 10 then "0" ++ toString n else toString n

namespace Notice

/-- The line of a register. -/
def registerLine (regs : Registers) (r : Reg) : String :=
  let v := regs[r]
  "x" ++ twoDigits r ++ " (" ++ padRight 4 r.name ++ ") = 0x" ++ v.toHex ++ " (" ++
    toString v.toNat ++ ")"

/-- The lines of a notice. -/
def lines : Notice → List String
  | .loaded length sp =>
    ["loaded " ++ toString length ++ " bytes of code, sp = 0x" ++ sp.toHex]
  | .executing pc i => ["PC = 0x" ++ pc.toHex ++ ", Instr = " ++ i.text]
  | .halted code steps =>
    ["halt: exit code " ++ toString code.toNat ++ " after " ++ toString steps ++ " steps"]
  | .registers regs pc =>
    ["--- Register Dump ---"] ++ (List.finRange 32).map (registerLine regs) ++
      ["pc           = 0x" ++ pc.toHex, "------------------------"]

end Notice

end BareC
