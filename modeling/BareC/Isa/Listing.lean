import BareC.Isa.Instr

/-!
# Instructions as text

One line to an instruction: the mnemonic in a column, then its operands with registers by name.
Immediates are signed numbers, offsets of branches and jumps are counted from the instruction itself
and always carry their sign, and the upper part that `lui` loads is in hexadecimal.
-/

namespace BareC

/-- The operands of an instruction begin in this column, unless its mnemonic reaches beyond it. -/
def mnemonicColumn : Nat := 5

/-- A mnemonic with the space behind it. -/
def mnemonicText (mnemonic : String) : String :=
  mnemonic ++ String.ofList (List.replicate (max 1 (mnemonicColumn - mnemonic.length)) ' ')

/-- A number with its sign, also if it is not negative. -/
def signedText (n : Int) : String :=
  if n < 0 then toString n else "+" ++ toString n

/-- An address relative to a register. -/
def baseText (offset : Word) (base : Reg) : String :=
  toString offset.toInt ++ "(" ++ base.name ++ ")"

/-- An address relative to the instruction. -/
def relativeText (offset : Word) : String :=
  "pc" ++ signedText offset.toInt

/-- The upper twenty bits of a word. -/
def upperText (imm : Word) : String :=
  "0x" ++ hexText (imm >>> 12).toNat

namespace Instr

def mnemonic : Instr → String
  | .alu op .. => op.mnemonic
  | .aluImm op .. => op.mnemonic
  | .shiftImm op .. => op.mnemonic
  | .load op .. => op.mnemonic
  | .store op .. => op.mnemonic
  | .branch op .. => op.mnemonic
  | .jal .. => "jal"
  | .jalr .. => "jalr"
  | .lui .. => "lui"
  | .auipc .. => "auipc"
  | .fence => "fence"
  | .ecall => "ecall"
  | .ebreak => "ebreak"

def operands : Instr → List String
  | .alu _ rd rs1 rs2 => [rd.name, rs1.name, rs2.name]
  | .aluImm _ rd rs1 imm => [rd.name, rs1.name, toString imm.toInt]
  | .shiftImm _ rd rs1 amount => [rd.name, rs1.name, toString amount.toNat]
  | .load _ rd rs1 offset => [rd.name, baseText offset rs1]
  | .store _ rs1 rs2 offset => [rs2.name, baseText offset rs1]
  | .branch _ rs1 rs2 offset => [rs1.name, rs2.name, relativeText offset]
  | .jal rd offset => [rd.name, relativeText offset]
  | .jalr rd rs1 offset => [rd.name, baseText offset rs1]
  | .lui rd imm | .auipc rd imm => [rd.name, upperText imm]
  | .fence | .ecall | .ebreak => []

/-- The line of an instruction. -/
def text (i : Instr) : String :=
  match i.operands with
  | [] => i.mnemonic
  | operands => mnemonicText i.mnemonic ++ ", ".intercalate operands

end Instr

end BareC
