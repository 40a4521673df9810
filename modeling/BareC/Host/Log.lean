import BareC.Host

/-!
# Log lines

A line is put together from pieces in a buffer of fixed length and handed to the host's standard
error. What does not fit is cut off, bytes and not characters being counted, but the line end always
fits.
-/

namespace BareC.Log

/-- The line end. -/
def newline : UInt8 := 10

/-- The length of the buffer that a line is put together in. -/
def maxLine : Nat := 192

/-- A line with as much of a piece behind it as `room` bytes leave. -/
def append (room : Nat) (line piece : Bytes) : Bytes :=
  line ++ piece.take (room - line.length)

/-- Puts a line together at the front of a buffer. Returns its length and the buffer; a buffer
without any room stays as it is. -/
def writeLine (buffer : Array UInt8) (pieces : List Bytes) : Nat × Array UInt8 :=
  if buffer.isEmpty then (0, buffer)
  else
    let line := pieces.foldl (append (buffer.size - 1)) [] ++ [newline]
    (line.length, line.toArray ++ buffer.extract line.length buffer.size)

/-- The line of some pieces. -/
def line (pieces : List Bytes) : Bytes :=
  let (length, buffer) := writeLine (Array.replicate maxLine 0) pieces
  (buffer.extract 0 length).toList

/-- Writes one line to the host's standard error, whatever the host answers. -/
def say {σ : Type} (host : Host σ) (pieces : List String) : StateM σ Unit := do
  let _ ← host.write standardError (line (pieces.map Bytes.ofText))

end BareC.Log
