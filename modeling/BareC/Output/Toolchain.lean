import BareC.Host.Bare
import BareC.Host.Log
import BareC.Output.CodeBuffer
import BareC.Output.Frontend

/-!
# Compiling in memory

A toolchain takes source through the stages of a frontend into a region of memory. What it checks is
what its caller has to get right: that there is a region, that it is not larger than a jump can
reach across, and that it holds the code. Faults of the source are no errors here; they have made
the code shorter.

Every entry point checks before it writes, so a region is left alone whenever an error comes back.
-/

namespace BareC

/-! ## Settings and errors -/

/-- The settings of a toolchain. -/
structure Settings where
  /-- Compile `Settings.builtinSource` whatever source is given. -/
  useBuiltin : Bool := false
  /-- Write a log line for every stage. -/
  verbose : Bool := false
  deriving DecidableEq, Repr

namespace Settings

/-- A program for trying a target out. -/
def builtinSource : String :=
  "int main(int argc, char** argv) \x7b return 0; \x7d\n"

/-- The length of the region that an image without a system sets aside. -/
def defaultCapacity : Nat := 40000

/-- The largest region inside which a jump reaches every place. -/
def maxCapacity : Nat := 0x100000

/-- The source to compile. -/
def sourceFor (settings : Settings) (source : Bytes) : Bytes :=
  if settings.useBuiltin then Bytes.ofText builtinSource else source

end Settings

/-- What a caller can get wrong. -/
inductive CompileError where
  | zeroCapacity
  | capacityTooSmall (required capacity : Nat)
  | capacityExceedsCeiling (capacity ceiling : Nat)
  | nullSource
  deriving DecidableEq, Repr

/-- The wording of an error. -/
def CompileError.message : CompileError → String
  | .zeroCapacity => "output capacity must be non-zero"
  | .capacityTooSmall required capacity =>
    "generated code needs " ++ toString required ++ " bytes but the output holds " ++
      toString capacity
  | .capacityExceedsCeiling capacity ceiling =>
    "output capacity " ++ toString capacity ++ " exceeds the " ++ toString ceiling ++
      " byte ceiling"
  | .nullSource => "source pointer is null"

/-! ## The toolchain -/

/-- A frontend with the host that it logs to and its settings. -/
structure Toolchain (σ : Type) where
  frontend : Frontend σ
  host : Host σ
  settings : Settings := {}

namespace Toolchain

variable {σ : Type}

/-- The compiler of this library on a host. -/
def standard (host : Host σ) (settings : Settings) : Toolchain σ :=
  { frontend := .standard host, host, settings }

/-- Logs a line if the settings ask for it. -/
def log (t : Toolchain σ) (pieces : List String) : StateM σ Unit := do
  if t.settings.verbose then Log.say t.host ("harness: " :: pieces)

/-- Takes source through the first three stages. -/
def treeOf (t : Toolchain σ) (source : Bytes) : StateM σ t.frontend.Tree := do
  let source := t.settings.sourceFor source
  t.log ["tokenize ", toString source.length, " bytes"]
  let tokens ← t.frontend.tokenize source
  t.log ["preprocess"]
  let tokens ← t.frontend.preprocess tokens
  t.log ["parse"]
  t.frontend.parse tokens

/-- What is wrong with a capacity for a program. -/
def refusal? (t : Toolchain σ) (tree : t.frontend.Tree) (capacity : Nat) :
    StateM σ (Option CompileError) := do
  if capacity = 0 then return some .zeroCapacity
  if Settings.maxCapacity < capacity then
    return some (.capacityExceedsCeiling capacity Settings.maxCapacity)
  match ← t.frontend.codeLength tree with
  | none => return none
  | some required =>
    return if capacity < required then some (.capacityTooSmall required capacity) else none

/-- Writes the code of a program over the front of a region. -/
def writeTo (t : Toolchain σ) (tree : t.frontend.Tree) (region : Array UInt8) :
    StateM σ (Nat × Array UInt8) := do
  let (written, region) ← t.frontend.generate tree region
  t.log ["codegen wrote ", toString written, " of ", toString region.size, " bytes"]
  return (written, region)

/-- Compiles into a region of the caller's. Returns the number of bytes written, or an error, and
the region. -/
def compileOver (t : Toolchain σ) (source : Bytes) (region : Array UInt8) :
    StateM σ (Except CompileError Nat × Array UInt8) := do
  if region.isEmpty then return (.error .zeroCapacity, region)
  let tree ← t.treeOf source
  match ← t.refusal? tree region.size with
  | some e => return (.error e, region)
  | none =>
    let (written, region) ← t.writeTo tree region
    return (.ok written, region)

/-- Compiles into a fresh region of exactly `capacity` bytes. -/
def compile (t : Toolchain σ) (source : Bytes) (capacity : Nat) :
    StateM σ (Except CompileError CodeBuffer) := do
  if capacity = 0 then return .error .zeroCapacity
  let tree ← t.treeOf source
  match ← t.refusal? tree capacity with
  | some e => return .error e
  | none =>
    let (length, region) ← t.writeTo tree (Array.replicate capacity 0)
    return .ok { region, length }

/-- Compiles into the first `capacity` bytes of some memory, of which nothing more is known than
that they are there. -/
def compileAt (t : Toolchain σ) (source : Bytes) (memory : Array UInt8) (capacity : Nat) :
    StateM σ (Except CompileError Nat × Array UInt8) := do
  if capacity = 0 then return (.error .zeroCapacity, memory)
  let (result, region) ← t.compileOver source (memory.extract 0 capacity)
  return (result, region ++ memory.extract capacity memory.size)

/-- Compiles without a check. What does not fit is dropped. -/
def compileUnguarded (t : Toolchain σ) (source : Bytes) (region : Array UInt8) :
    StateM σ (Nat × Array UInt8) := do
  let tree ← t.treeOf source
  t.writeTo tree region

end Toolchain

/-! ## On a bare target -/

/-- Compiles on a bare target, where every include is empty and logs are lost. -/
def compileBare (source : Bytes) (capacity : Nat) (settings : Settings := {}) :
    Except CompileError CodeBuffer :=
  (((Toolchain.standard Host.bare settings).compile source capacity).run ()).1

/-- The source that a pointer to text ended by a zero byte stands for. The bytes given are those
from the pointer on, and a null pointer has none. -/
def sourceOfText (text : Option Bytes) : Except CompileError Bytes :=
  match text with
  | none => .error .nullSource
  | some bytes => .ok (bytes.takeWhile (· != 0))

/-- The entry point of an image without a system: the region of the compiled text, or nothing if the
capacity or the pointer is refused. -/
def regionOfText (text : Option Bytes) (capacity : Nat) (settings : Settings := {}) :
    Option (Array UInt8) :=
  let source := if settings.useBuiltin then .ok [] else sourceOfText text
  match source with
  | .error _ => none
  | .ok source => (compileBare source capacity settings).toOption.map (·.region)

end BareC
