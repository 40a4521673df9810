/-!
# Byte strings and words

Sources, headers, paths and machine code are strings of bytes; registers and instructions are words
of 32 bits. This module holds the two types, the byte order that joins them, and how both are
written in hexadecimal.
-/

namespace BareC

/-- A string of bytes. -/
abbrev Bytes := List UInt8

/-- A machine word. -/
abbrev Word := BitVec 32

/-- The bytes of a text in UTF-8. -/
def Bytes.ofText (s : String) : Bytes :=
  s.toUTF8.toList

/-! ## Little-endian numbers -/

/-- The lowest `count` bytes of a number, lowest first. -/
def Bytes.ofNat : (count n : Nat) → Bytes
  | 0, _ => []
  | count + 1, n => UInt8.ofNat n :: ofNat count (n / 256)

/-- The number that bytes stand for, lowest first. -/
def Bytes.value : Bytes → Nat
  | [] => 0
  | b :: bs => b.toNat + 256 * value bs

/-- A number has as many bytes as were asked for. -/
@[simp]
theorem Bytes.length_ofNat (count n : Nat) : (Bytes.ofNat count n).length = count := by
  induction count generalizing n with
  | zero => rfl
  | succ count ih => simp [Bytes.ofNat, ih]

/-- The four bytes of a word. -/
def Word.toBytes (w : Word) : Bytes :=
  Bytes.ofNat 4 w.toNat

/-! ## Hexadecimal -/

/-- The digit of a value below sixteen. -/
def hexDigit (n : Nat) : Char :=
  if n < 10 then Char.ofNat ('0'.toNat + n) else Char.ofNat ('a'.toNat + (n - 10))

/-- Two digits to a byte, the high one first. -/
def Bytes.toHex (bs : Bytes) : String :=
  bs.foldl (fun s b => (s.push (hexDigit (b.toNat / 16))).push (hexDigit (b.toNat % 16))) ""

/-- A number without leading zeros. -/
def hexText (n : Nat) : String :=
  String.ofList (Nat.toDigits 16 n)

/-- A word in eight digits. -/
def Word.toHex (w : Word) : String :=
  String.ofList ((List.range 8).map fun i => hexDigit ((w.toNat >>> (28 - 4 * i)) % 16))

end BareC
