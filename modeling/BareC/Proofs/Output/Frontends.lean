import BareC.Output.Toolchain
import BareC.Proofs.Directives.Likeness
import BareC.Proofs.Host.Alike

/-!
# What a frontend may be

A toolchain works with any frontend. Two things are asked of one. It writes code over the front of
the region it is given and leaves the rest alone, and which bytes it writes is up to the program and
the length of the region (`Frontend.WritesPrefix`). And it finds out about its host by calls only,
whatever it keeps in a state of its own, so what calls do not tell apart is the same to it
(`Frontend.Through`).

Of the compiler of this library both hold. All it asks for is headers.

What the code is, is not asked of a frontend. The one of this library shows that the conditions can
be met (`standard_writes`, `standard_through`); that its code means what the source means is a
matter of the semantics and is not asked here.
-/

namespace BareC

variable {σ τ : Type}

/-! ## Code at the front of a region -/

/-- A region with these bytes written over its front. -/
def overwritten (bytes : Bytes) (region : Array UInt8) : Array UInt8 :=
  bytes.toArray ++ region.extract bytes.length region.size

section Overwritten

variable {bytes : Bytes} {region : Array UInt8}

/-- Overwriting keeps the size. -/
theorem size_overwritten (fits : bytes.length ≤ region.size) :
    (overwritten bytes region).size = region.size := by
  rw [overwritten, Array.size_append, List.size_toArray, Array.size_extract]
  omega

/-- What was written over a region is in front. -/
theorem extract_overwritten (bytes : Bytes) (region : Array UInt8) :
    ((overwritten bytes region).extract 0 bytes.length).toList = bytes := by
  rw [overwritten, Array.toList_extract, List.extract_eq_take_drop, Array.toList_append]
  exact List.take_left' rfl

/-- Bytes that fill the region leave nothing of it. -/
theorem overwritten_of_length_eq (full : bytes.length = region.size) :
    overwritten bytes region = bytes.toArray := by
  simp [overwritten, full]

/-- What lies behind the bytes is as it was. -/
theorem getElem?_overwritten {i : Nat} (behind : bytes.length ≤ i) :
    (overwritten bytes region)[i]? = region[i]? := by
  rw [overwritten, Array.getElem?_append_right behind, Array.getElem?_extract, List.size_toArray,
    Nat.add_sub_cancel' behind]
  grind

end Overwritten

namespace CodeBuffer

/-- A fresh region with some code written over its front. -/
def ofCode (code : Bytes) (capacity : Nat) : CodeBuffer where
  region := overwritten code (Array.replicate capacity 0)
  length := code.length

variable {bytes : Bytes} {capacity : Nat}

/-- A buffer of some code has the capacity asked for. -/
theorem capacity_ofCode (fits : bytes.length ≤ capacity) :
    (ofCode bytes capacity).capacity = capacity := by
  rw [CodeBuffer.capacity, ofCode, size_overwritten (by rwa [Array.size_replicate]),
    Array.size_replicate]

/-- A buffer of some code holds it. -/
theorem code_ofCode (bytes : Bytes) (capacity : Nat) : (ofCode bytes capacity).code = bytes :=
  extract_overwritten bytes _

/-- Behind the code it is zero. -/
theorem region_ofCode_behind {i : Nat} (behind : bytes.length ≤ i) (inside : i < capacity) :
    (ofCode bytes capacity).region[i]? = some 0 := by
  rw [ofCode, getElem?_overwritten behind, Array.getElem?_replicate, if_pos inside]

end CodeBuffer

/-! ## What is asked of a frontend -/

namespace Frontend

/-- The stages agree with themselves in related states. -/
structure Respects (F : Frontend σ) (R : σ → σ → Prop) : Prop where
  tokenize (source : Bytes) : Agree R (F.tokenize source) (F.tokenize source)
  preprocess (tokens : F.Stream) : Agree R (F.preprocess tokens) (F.preprocess tokens)
  parse (tokens : F.Stream) : Agree R (F.parse tokens) (F.parse tokens)
  codeLength (tree : F.Tree) : Agree R (F.codeLength tree) (F.codeLength tree)
  generate (tree : F.Tree) (region : Array UInt8) :
    Agree R (F.generate tree region) (F.generate tree region)

/-- The frontend knows of the state of its host what calls tell it, and has a state of its own
beside. -/
def Through (F : Frontend (σ × τ)) (host : Host σ) (heeded : Prop) : Prop :=
  ∀ R, host.Respects heeded R → F.Respects fun s t => R s.1 t.1 ∧ s.2 = t.2

/-- The frontend writes these bytes of a program over the front of a region of some length, in which
they have room, and answers how many they are. -/
def Writes (F : Frontend σ) (bytes : F.Tree → Nat → Bytes) : Prop :=
  ∀ tree region s, (bytes tree region.size).length ≤ region.size ∧
    (F.generate tree region s).1 =
      ((bytes tree region.size).length, overwritten (bytes tree region.size) region)

/-- What the frontend writes over the front of a region is up to the program and the length of the
region. -/
def WritesPrefix (F : Frontend σ) : Prop :=
  ∃ bytes, F.Writes bytes

end Frontend

/-! ## The compiler of this library -/

/-- Where the same headers are read, the same is made of them. -/
theorem Token.expandAll_agree {host : Host σ} {heeded : Prop} {R : σ → σ → Prop}
    (h : host.Respects heeded R) (ts : List Token) :
    Agree R (Token.expandAll host ts) (Token.expandAll host ts) := by
  intro s t related
  have begins : Expansion.Like Eq R { host := s } { host := t } :=
    ⟨.refl (fun _ => rfl) _, rfl, rfl, related, .nil⟩
  have ends := Expansion.Like.run (Header.fetch_agree h) (fun _ => rfl) maxHeaderDepth
    (.refl (fun _ => rfl) ts) begins
  exact ⟨Tokens.like_eq_iff.mp ends.finish, ends.host⟩

namespace Frontend

variable {host : Host σ} {heeded : Prop}

/-- The frontend of the toolchain respects whatever its host does. -/
theorem standard_respects {R : σ → σ → Prop} (h : host.Respects heeded R) :
    (standard host).Respects R where
  tokenize _ := .pure _
  preprocess tokens := Token.expandAll_agree h tokens
  parse _ := .pure _
  codeLength _ := .pure _
  generate _ _ := .pure _

/-- The frontend of the toolchain reaches only what the host reaches. -/
theorem standard_through (host : Host σ) (heeded : Prop) (τ : Type) :
    (standard (host.beside τ)).Through host heeded :=
  fun _ h => standard_respects (h.beside τ)

/-- The frontend of the toolchain writes the code of its program, up to the room. -/
theorem standard_writes (host : Host σ) :
    (standard host).Writes fun program room => Program.code program |>.take room :=
  fun _ _ _ => ⟨List.length_take_le .., rfl⟩

end Frontend

end BareC
