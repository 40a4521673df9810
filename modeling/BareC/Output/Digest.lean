import BareC.Bytes

/-!
# SHA-256

The digest that identifies a piece of machine code. A message is padded to whole blocks of 64 bytes
with its length in bits at the end, and each block is mixed into a state of eight words. The
arithmetic wraps at 32 bits throughout.
-/

namespace BareC.Digest

/-- The eight words of the state. -/
abbrev State := Vector UInt32 8

/-- The fractional parts of the square roots of the first eight primes. -/
def initial : State :=
  #v[0x6a09e667, 0xbb67ae85, 0x3c6ef372, 0xa54ff53a, 0x510e527f, 0x9b05688c, 0x1f83d9ab, 0x5be0cd19]

/-- The fractional parts of the cube roots of the first 64 primes, one for each round. -/
def roundConstants : List UInt32 :=
  [0x428a2f98, 0x71374491, 0xb5c0fbcf, 0xe9b5dba5, 0x3956c25b, 0x59f111f1, 0x923f82a4, 0xab1c5ed5,
   0xd807aa98, 0x12835b01, 0x243185be, 0x550c7dc3, 0x72be5d74, 0x80deb1fe, 0x9bdc06a7, 0xc19bf174,
   0xe49b69c1, 0xefbe4786, 0x0fc19dc6, 0x240ca1cc, 0x2de92c6f, 0x4a7484aa, 0x5cb0a9dc, 0x76f988da,
   0x983e5152, 0xa831c66d, 0xb00327c8, 0xbf597fc7, 0xc6e00bf3, 0xd5a79147, 0x06ca6351, 0x14292967,
   0x27b70a85, 0x2e1b2138, 0x4d2c6dfc, 0x53380d13, 0x650a7354, 0x766a0abb, 0x81c2c92e, 0x92722c85,
   0xa2bfe8a1, 0xa81a664b, 0xc24b8b70, 0xc76c51a3, 0xd192e819, 0xd6990624, 0xf40e3585, 0x106aa070,
   0x19a4c116, 0x1e376c08, 0x2748774c, 0x34b0bcb5, 0x391c0cb3, 0x4ed8aa4a, 0x5b9cca4f, 0x682e6ff3,
   0x748f82ee, 0x78a5636f, 0x84c87814, 0x8cc70208, 0x90befffa, 0xa4506ceb, 0xbef9a3f7, 0xc67178f2]

def rotateRight (x : UInt32) (n : UInt32) : UInt32 :=
  (x >>> n) ||| (x <<< (32 - n))

/-- A number in eight bytes, highest first. -/
def bigEndian64 (n : Nat) : Bytes :=
  (Bytes.ofNat 8 n).reverse

/-- A message with its padding. -/
def pad (message : Bytes) : Bytes :=
  message ++ [0x80] ++ List.replicate ((119 - message.length % 64) % 64) 0 ++
    bigEndian64 (8 * message.length)

/-- The words of bytes, highest byte first. -/
def wordsOf : Bytes → List UInt32
  | a :: b :: c :: d :: rest =>
    (a.toUInt32 <<< 24 ||| b.toUInt32 <<< 16 ||| c.toUInt32 <<< 8 ||| d.toUInt32) :: wordsOf rest
  | _ => []

/-- The message schedule, from the latest word back: `n` words more than the sixteen of a block. -/
def schedule (n : Nat) (latest : List UInt32) : List UInt32 :=
  match n with
  | 0 => latest
  | n + 1 =>
    let w (i : Nat) : UInt32 := latest.getD (i - 1) 0
    let s0 := rotateRight (w 15) 7 ^^^ rotateRight (w 15) 18 ^^^ (w 15 >>> 3)
    let s1 := rotateRight (w 2) 17 ^^^ rotateRight (w 2) 19 ^^^ (w 2 >>> 10)
    schedule n ((w 16 + s0 + w 7 + s1) :: latest)

/-- One round with its constant and its word of the schedule. -/
def round (s : State) (k w : UInt32) : State :=
  let a := s[0]; let b := s[1]; let c := s[2]; let d := s[3]
  let e := s[4]; let f := s[5]; let g := s[6]; let h := s[7]
  let s1 := rotateRight e 6 ^^^ rotateRight e 11 ^^^ rotateRight e 25
  let choice := (e &&& f) ^^^ (~~~e &&& g)
  let t1 := h + s1 + choice + k + w
  let s0 := rotateRight a 2 ^^^ rotateRight a 13 ^^^ rotateRight a 22
  let majority := (a &&& b) ^^^ (a &&& c) ^^^ (b &&& c)
  #v[t1 + s0 + majority, a, b, c, d + t1, e, f, g]

/-- Mixes a block of sixteen words into the state. -/
def mix (s : State) (block : List UInt32) : State :=
  let words := (schedule 48 block.reverse).reverse
  let mixed := (roundConstants.zip words).foldl (fun s (k, w) => round s k w) s
  s.zipWith (· + ·) mixed

/-- Mixes the first blocks of a message into the state. -/
def mixAll (s : State) (message : Bytes) : (blocks : Nat) → State
  | 0 => s
  | blocks + 1 => mixAll (mix s (wordsOf (message.take 64))) (message.drop 64) blocks

/-- The digest of a message, in 32 bytes. -/
def sha256 (message : Bytes) : Bytes :=
  let padded := pad message
  (mixAll initial padded (padded.length / 64)).toList.flatMap
    fun w => (Bytes.ofNat 4 w.toNat).reverse

end BareC.Digest
