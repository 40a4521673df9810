import BareC.Output.Digest

/-!
# Buffers of machine code

What a compilation into a fresh region hands back: a region of exactly the length asked for, with
the code at its front and zeros behind it.
-/

namespace BareC

/-- A region with code at its front. -/
structure CodeBuffer where
  region : Array UInt8
  /-- The number of bytes of code. -/
  length : Nat
  deriving DecidableEq, Repr

namespace CodeBuffer

/-- The length of the region. -/
def capacity (b : CodeBuffer) : Nat :=
  b.region.size

def code (b : CodeBuffer) : Bytes :=
  (b.region.extract 0 b.length).toList

def isEmpty (b : CodeBuffer) : Bool :=
  b.length == 0

/-- What identifies the code. -/
def digest (b : CodeBuffer) : Bytes :=
  Digest.sha256 b.code

def toHex (b : CodeBuffer) : String :=
  b.code.toHex

end CodeBuffer

end BareC
