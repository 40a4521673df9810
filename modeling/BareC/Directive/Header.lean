import BareC.Directive.Macros
import BareC.Host

/-!
# Fetching headers

A header is named in quotes or between angle brackets and read through the host, a buffer at a time,
until a read brings nothing or the header is as long as a header may be. What a host claims to have
read is never believed beyond the length of the buffer, and a descriptor that was opened is closed
whatever the reads bring.
-/

namespace BareC

/-- How many headers may be open inside each other. -/
def maxHeaderDepth : Nat := 16

/-- Reading stops once a header has this many bytes. -/
def maxHeaderBytes : Nat := 0x100000

/-- The length of the buffer that headers are read through. -/
def readBuffer : Nat := 512

namespace Header

/-- Why a header has no name. -/
inductive NameFault where
  | unclosed
  | missing
  deriving DecidableEq, Repr

/-- The header named by the words of an include: a string, or the spellings of all tokens between
angle brackets, put together without the space between them. -/
def name : List Token → Except NameFault String
  | [] => .error .missing
  | t :: words =>
    if t.kind = .str then .ok t.text
    else if t.is "<" then
      if words.any (·.is ">") then
        .ok (String.join ((words.takeWhile (!·.is ">")).map (·.text)))
      else .error .unclosed
    else .error .missing

/-- Reads what is left of an open header behind the bytes `got`. The buffer is used again and again,
so a read that brings less than it claims leaves earlier bytes in place. -/
def readRest {σ : Type} (host : Host σ) (fd : Descriptor) (buffer : Vector UInt8 readBuffer)
    (got : Array UInt8) (s : σ) : Array UInt8 × σ :=
  let ((count, buffer), s) := (host.read fd buffer).run s
  if 0 < count then
    let brought := min count.toNat readBuffer
    let got' := got ++ buffer.toArray.extract 0 brought
    if maxHeaderBytes ≤ got'.size then (got', s) else readRest host fd buffer got' s
  else (got, s)
termination_by maxHeaderBytes - got.size
decreasing_by
  have : readBuffer = 512 := rfl
  simp only [Array.size_append, Array.size_extract, Vector.size_toArray, got', brought] at *
  omega

/-- The contents of a header, or nothing if the host does not open it. -/
def fetch {σ : Type} (host : Host σ) (path : Bytes) (s : σ) : Option Bytes × σ :=
  let (fd, s) := (host.openPath path .readOnly).run s
  if fd < 0 then (none, s)
  else
    let (contents, s) := readRest host fd (Vector.replicate readBuffer 0) #[] s
    let (_, s) := (host.close fd).run s
    (some contents.toList, s)

end Header

end BareC
