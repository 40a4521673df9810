import BareC.Assembly
import BareC.Syntax

/-!
# Pieces of assembly

The instructions that generated code is made of, with the registers it uses them on, and the short
sequences that always come together. A value is computed into `a0`; what has to wait for another
value is pushed on the stack, which grows down by one word.

The generator writes drafts. A draft still has the operands that its instruction was asked for,
which an encoded word no longer shows: an immediate that is too large has been cut to its field, and
a register that is too large has run into the field beside it. Encoding makes items of drafts one by
one and checks nothing.
-/

namespace BareC

namespace Assembly

/-! ## Registers -/

def zero : Word := Encode.reg .zero
def ra : Word := Encode.reg .ra
def sp : Word := Encode.reg .sp
def s0 : Word := Encode.reg .s0
def a0 : Word := Encode.reg .a0
def a1 : Word := Encode.reg .a1

/-- The register that passes the argument with this number. -/
def argument (i : Nat) : Word :=
  a0 + BitVec.ofNat 32 i

/-- The offset of a slot from the frame pointer. The slots lie below it, the first one on top. -/
def slotPlace (slot : Nat) : Word :=
  -4 * (BitVec.ofNat 32 slot + 1)

/-- The bytes that so many slots take, in steps of sixteen. -/
def frameSize (locals : Nat) : Nat :=
  (4 * locals + 15) / 16 * 16

/-! ## Single instructions -/

def alu (op : AluOp) (rd rs1 rs2 : Word) : AsmItem :=
  .word (Encode.alu op rd rs1 rs2)

def aluImm (op : ImmOp) (rd rs1 imm : Word) : AsmItem :=
  .word (Encode.aluImm op rd rs1 imm)

def loadWord (rd base offset : Word) : AsmItem :=
  .word (Encode.load .lw rd base offset)

def storeWord (rs base offset : Word) : AsmItem :=
  .word (Encode.store .sw rs base offset)

end Assembly

/-! ## Drafts -/

/-- An item of assembly with the operands that it was asked for. -/
inductive Draft where
  | alu (op : AluOp) (rd rs1 rs2 : Word)
  | aluImm (op : ImmOp) (rd rs1 imm : Word)
  | loadWord (rd base offset : Word)
  | storeWord (rs base offset : Word)
  | branch (op : BranchOp) (rs1 rs2 offset : Word)
  | lui (rd imm20 : Word)
  | jalr (rd rs1 offset : Word)
  | jump (rd : Word) (target : Label)
  | mark (l : Label)
  deriving Repr

namespace Draft

/-- The item that a draft becomes. -/
def item : Draft → AsmItem
  | .alu op rd rs1 rs2 => Assembly.alu op rd rs1 rs2
  | .aluImm op rd rs1 imm => Assembly.aluImm op rd rs1 imm
  | .loadWord rd base offset => Assembly.loadWord rd base offset
  | .storeWord rs base offset => Assembly.storeWord rs base offset
  | .branch op rs1 rs2 offset => .word (Encode.branch op rs1 rs2 offset)
  | .lui rd imm20 => .word (Encode.lui rd imm20)
  | .jalr rd rs1 offset => .word (Encode.jalr rd rs1 offset)
  | .jump rd target => .jump rd target
  | .mark l => .mark l

/-- The piece of code that drafts become. -/
def encode (ds : List Draft) : Assembly :=
  ds.map item

/-! ## Sequences -/

open Assembly (zero ra sp s0 a0 a1 argument slotPlace frameSize)

/-- Loads a constant: one word if it fits in an immediate, or else its upper part and, unless it is
zero, its lower part. -/
def loadConst (rd v : Word) : List Draft :=
  if Encode.isImm12 v then [.aluImm .addi rd zero v]
  else
    let (high, low) := Encode.upperLower v
    .lui rd high :: if low = 0 then [] else [.aluImm .addi rd rd low]

/-- Pushes `a0`. -/
def push : List Draft :=
  [.aluImm .addi sp sp (-4), .storeWord a0 sp 0]

/-- Pops into a register. -/
def pop (rd : Word) : List Draft :=
  [.loadWord rd sp 0, .aluImm .addi sp sp 4]

/-- Pops the registers that pass so many arguments, from the last one to the first. -/
def popArguments (count : Nat) : List Draft :=
  (List.range count).reverse.flatMap fun i => pop (argument i)

/-- A jump that leaves nothing behind. -/
def goto (target : Label) : Draft :=
  .jump zero target

/-- Jumps unless `a0` and zero compare in this way, by a branch around a jump, which reaches further
than a branch. -/
def gotoUnless (op : BranchOp) (target : Label) : List Draft :=
  [.branch op a0 zero 8, goto target]

/-- Jumps if `a0` is zero. -/
def gotoIfZero (target : Label) : List Draft :=
  gotoUnless .bne target

/-- Jumps if `a0` is not zero. -/
def gotoIfNonzero (target : Label) : List Draft :=
  gotoUnless .beq target

/-- `a0` becomes the result of an operator on `a1` and `a0`. -/
def operate : BinaryOp → List Draft
  | .add => [.alu .add a0 a1 a0]
  | .sub => [.alu .sub a0 a1 a0]
  | .mul => [.alu .mul a0 a1 a0]
  | .div => [.alu .div a0 a1 a0]
  | .rem => [.alu .rem a0 a1 a0]
  | .bitAnd => [.alu .and a0 a1 a0]
  | .bitOr => [.alu .or a0 a1 a0]
  | .bitXor => [.alu .xor a0 a1 a0]
  | .shl => [.alu .sll a0 a1 a0]
  | .shr => [.alu .sra a0 a1 a0]
  | .lt => [.alu .slt a0 a1 a0]
  | .gt => [.alu .slt a0 a0 a1]
  | .le => [.alu .slt a0 a0 a1, .aluImm .xori a0 a0 1]
  | .ge => [.alu .slt a0 a1 a0, .aluImm .xori a0 a0 1]
  | .eq => [.alu .xor a0 a1 a0, .aluImm .sltiu a0 a0 1]
  | .ne => [.alu .xor a0 a1 a0, .alu .sltu a0 zero a0]

/-- `a0` becomes the result of an operator on it. -/
def operateUnary : UnaryOp → Draft
  | .neg => .alu .sub a0 zero a0
  | .not => .aluImm .sltiu a0 a0 1
  | .bitNot => .aluImm .xori a0 a0 (-1)

/-- Saves the return address and the caller's frame pointer, and points to the new frame. -/
def saveFrame : List Draft :=
  [.aluImm .addi sp sp (-8), .storeWord ra sp 4, .storeWord s0 sp 0, .aluImm .addi s0 sp 0]

/-- Makes room for the slots. -/
def openFrame (locals : Nat) : List Draft :=
  let frame : Word := BitVec.ofNat 32 (frameSize locals)
  if 0 < frame.toInt then [.aluImm .addi sp sp (-frame)] else []

/-- Stores the parameters to the first slots. -/
def storeParams (params : Nat) : List Draft :=
  (List.range params).map fun i => .storeWord (argument i) s0 (slotPlace i)

/-- What stands in front of the body of a function. -/
def prologue (params locals : Nat) : List Draft :=
  saveFrame ++ openFrame locals ++ storeParams params

/-- Closes a frame, from wherever the stack pointer is in it. -/
def closeFrame : List Draft :=
  [.aluImm .addi sp s0 0, .loadWord ra sp 4, .loadWord s0 sp 0, .aluImm .addi sp sp 8]

/-- Closes a frame and returns. -/
def epilogue : List Draft :=
  closeFrame ++ [.jalr zero ra 0]

end Draft

end BareC
