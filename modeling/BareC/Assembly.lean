import BareC.Isa.Encode
import Std.Data.HashMap

/-!
# Assembly with labels

Code is first a list of items: finished words, marks that give the place behind them a label, and
jumps to labels. A mark takes no room and a jump is one word, so the place of every item is known
before any jump is, and linking is a single pass. A label that is marked twice stands for the later
place.
-/

namespace BareC

/-- A place in code. -/
inductive Label where
  /-- The beginning of a function. -/
  | entry (name : String)
  /-- A place inside a function. -/
  | inner (number : Nat)
  deriving DecidableEq, Hashable, Repr

/-- An item of assembly. -/
inductive AsmItem where
  | word (w : Word)
  /-- A `jal` to the label that leaves the return address in `rd`. -/
  | jump (rd : Word) (target : Label)
  | mark (l : Label)
  deriving DecidableEq, Repr

/-- The number of words that an item becomes. -/
def AsmItem.size : AsmItem → Nat
  | .word _ | .jump _ _ => 1
  | .mark _ => 0

/-- A piece of code. -/
abbrev Assembly := List AsmItem

namespace Assembly

/-- The number of words that a piece of code becomes. -/
def size (a : Assembly) : Nat :=
  a.foldr (fun item n => item.size + n) 0

/-- The places of the labels, counted in words, for code that begins at word `start`. -/
def places (a : Assembly) (start : Nat) (known : Std.HashMap Label Nat) : Std.HashMap Label Nat :=
  match a with
  | [] => known
  | .mark l :: a => places a start (known.insert l start)
  | _ :: a => places a (start + 1) known

/-- The offset in bytes from one word to another. -/
def offset (source target : Nat) : Word :=
  BitVec.ofInt 32 (((target : Int) - source) * 4)

/-- The word of an item at word `i`, if it is one. A jump to a label that is nowhere goes to
itself. -/
def wordAt? (places : Std.HashMap Label Nat) (i : Nat) : AsmItem → Option Word
  | .word w => some w
  | .jump rd target => some (Encode.jal rd (offset i (places[target]?.getD i)))
  | .mark _ => none

/-- The words of the code behind those `out` already, whose number is where it begins. -/
def emit (places : Std.HashMap Label Nat) (a : Assembly) (out : Array Word) : Array Word :=
  match a with
  | [] => out
  | item :: a =>
    match wordAt? places out.size item with
    | some w => emit places a (out.push w)
    | none => emit places a out

/-- The words of finished code. -/
def link (a : Assembly) : List Word :=
  (emit (a.places 0 ∅) a #[]).toList

end Assembly

end BareC
