import BareC.Assembly.Program
import BareC.Directive.Expansion
import BareC.Grammar.Unit

/-!
# The stages of a compiler

A frontend is four stages from source to code, in order, with types of its own between them. Its
stages report no errors: each encodes what went wrong in what it hands on, and the last emits
whatever it can.
-/

namespace BareC

/-- A compiler whose stages run on states `σ`, which hold at least the state of its host. -/
structure Frontend (σ : Type) where
  Stream : Type
  Tree : Type
  tokenize : Bytes → StateM σ Stream
  preprocess : Stream → StateM σ Stream
  parse : Stream → StateM σ Tree
  /-- The exact number of bytes that `generate` would emit, if the frontend can tell. -/
  codeLength : Tree → StateM σ (Option Nat)
  /-- Writes code over the front of a region. Returns the number of bytes and the region. -/
  generate : Tree → Array UInt8 → StateM σ (Nat × Array UInt8)

/-- The compiler of this library, which reads headers through a host. -/
def Frontend.standard {σ : Type} (host : Host σ) : Frontend σ where
  Stream := List Token
  Tree := Program
  tokenize source := pure (Token.ofSource source)
  preprocess tokens := Token.expandAll host tokens
  parse tokens := pure (Program.ofTokens tokens)
  codeLength program := pure (some program.codeLength)
  generate program region := pure (program.generate region)

end BareC
