import BareC.Machine.Fault

/-!
# Memory

Flat memory of a fixed number of bytes, lowest byte of a number first. Code is loaded at address
zero and the stack grows down from the top. An access is made whole or not at all: one byte of it
outside of memory, and it fails and changes nothing. Addresses do not wrap around.
-/

namespace BareC

structure Memory where
  bytes : Array UInt8
  deriving DecidableEq, Repr

namespace Memory

/-- Memory of so many zero bytes. -/
def zeros (size : Nat) : Memory :=
  ⟨Array.replicate size 0⟩

def size (m : Memory) : Nat :=
  m.bytes.size

/-- The highest address that is a multiple of sixteen, where the stack begins. -/
def stackStart (m : Memory) : Word :=
  BitVec.ofNat 32 m.size &&& ~~~0xf

/-- The bytes from one address up to another, if there are such. -/
def slice? (m : Memory) (start stop : Nat) : Option Bytes :=
  if stop < start || m.size < stop then none else some (m.bytes.extract start stop).toList

/-- Every byte of an access lies in memory. -/
def covers (m : Memory) (address : Word) (length : Nat) : Bool :=
  address.toNat + length ≤ m.size

/-! ## Numbers in memory -/

/-- The number that some bytes from an index on stand for. -/
def numberAt (bytes : Array UInt8) (i : Nat) : (length : Nat) → Nat
  | 0 => 0
  | length + 1 => (bytes[i]?.getD 0).toNat + 256 * numberAt bytes (i + 1) length

/-- The bytes with those of a number written over them from an index on. -/
def putNumber (bytes : Array UInt8) (i : Nat) (n : Nat) : (length : Nat) → Array UInt8
  | 0 => bytes
  | length + 1 => putNumber (bytes.setIfInBounds i (UInt8.ofNat n)) (i + 1) (n / 256) length

/-- Reads a number of `length` bytes. -/
def load (m : Memory) (address : Word) (length : Nat) : Except MachineFault Nat :=
  if m.covers address length then .ok (numberAt m.bytes address.toNat length)
  else .error (.access address length)

/-- Writes the lowest `length` bytes of a number. -/
def put (m : Memory) (address : Word) (length n : Nat) : Memory :=
  ⟨putNumber m.bytes address.toNat n length⟩

/-- Writes the lowest `length` bytes of a number, if they lie in memory. -/
def store (m : Memory) (address : Word) (length n : Nat) : Except MachineFault Memory :=
  if m.covers address length then .ok (m.put address length n)
  else .error (.access address length)

/-- Copies code to address zero. -/
def place (m : Memory) (code : Bytes) : Except MachineFault Memory :=
  if m.size < code.length then .error (.codeTooLarge code.length m.size)
  else .ok ⟨code.toArray ++ m.bytes.extract code.length m.size⟩

end Memory

end BareC
