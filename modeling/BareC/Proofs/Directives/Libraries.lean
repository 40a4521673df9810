import BareC.Host.Bare
import BareC.Proofs.Directives.Depths
import BareC.Proofs.Directives.Likeness
import BareC.Proofs.Host.Headers

/-!
# Headers however they are served

Where the headers are known beforehand, a pass can be told without a host: what an include names is
looked up, and its bytes are taken as they are (`expandWithin`). Every host that serves these
headers, in portions of whatever size, lets a pass go that way (`expandAll_of_offers`). So no two of
them can be told apart by the tokens that come out.

The proof compares a pass with a host and one without, step by step (`same_stepWithin`), and carries
beside the state that all that has been fetched was served by the library. It is an induction on the
depth, as the pass itself is.

A header has to be no longer than a header may be, since a host hands over more of a longer one or
less, as its portions fall. Nothing is said of files that are not there when the pass begins and
appear later.
-/

namespace BareC

namespace Expansion

/-! ## Passes without a host -/

section Within

variable (library : List (Bytes × Bytes))

/-- Passes over the header of a library that is named by the words of an include. -/
def includeWithin (deeper? : Option (List Token → Expansion Unit → Expansion Unit))
    (words : List Token) (line : LineNumber) (e : Expansion Unit) : Expansion Unit :=
  match Header.name words, deeper? with
  | .error f, _ => e.fault (.header f) line
  | .ok _, none => e.fault .tooDeep line
  | .ok name, some deeper =>
    match library.lookup (Bytes.ofText name) with
    | none => e.fault (.headerNotFound name) line
    | some contents => deeper (Token.ofSource contents) e

/-- Passes over one item. Only an include asks for headers. -/
def stepWithin (deeper? : Option (List Token → Expansion Unit → Expansion Unit))
    (e : Expansion Unit) : SourceItem → Expansion Unit
  | .directive (.includeHeader words) line =>
    if e.branches.skipping then { e with line }
      else includeWithin library deeper? words line { e with line }
  | item => step Host.bare none e item

/-- Passes over a source inside which headers of the library may be nested `depth` deep. -/
def runWithin : (depth : Nat) → List Token → Expansion Unit → Expansion Unit
  | 0, ts, e => (SourceItem.ofTokens ts).foldl (stepWithin library none) e
  | depth + 1, ts, e =>
    (SourceItem.ofTokens ts).foldl (stepWithin library (some (runWithin depth))) e

end Within

/-! ## Passes with a host go the same way -/

section Offers

variable {σ : Type} {host : Host σ} {library : List (Bytes × Bytes)} {s : σ} {e : Expansion σ}
  {e' : Expansion Unit}

/-- The states are the same, but for the host, which has fetched headers since the state `s`. -/
abbrev SameSince (host : Host σ) (s : σ) : Expansion σ → Expansion Unit → Prop :=
  Like Eq fun s' _ => host.Fetched s s'

/-- Where no header is included, no host is asked. -/
theorem same_step_of_ne {item : SourceItem}
    (other : ∀ words line, item ≠ .directive (.includeHeader words) line)
    (h : SameSince host s e e') (deeper? : Option (List Token → Expansion σ → Expansion σ)) :
    SameSince host s (step host deeper? e item) (step Host.bare none e' item) := by
  have unasked : step host deeper? e item = step host none e item :=
    step_congr fun words line same => absurd same (other words line)
  rw [unasked]
  exact h.step nofun .none (.refl (fun _ => rfl) item)

variable (offers : host.Offers library s)
    (fits : ∀ header ∈ library, header.2.length ≤ maxHeaderBytes)

section Step

variable {deeper? : Option (List Token → Expansion σ → Expansion σ)}
  {deeper?' : Option (List Token → Expansion Unit → Expansion Unit)}
  (inside : LikeInside Eq (fun s' _ => host.Fetched s s') deeper? deeper?')
include offers fits inside

/-- What is fetched for an include is what stands in the library. -/
theorem same_includeWithin (h : SameSince host s e e') (words : List Token) (line : LineNumber) :
    SameSince host s (e.includeHeader host deeper? words line)
      (includeWithin library deeper?' words line e') := by
  unfold includeWithin
  cases named : Header.name words with
  | error f =>
    rw [includeHeader_unnamed named]
    exact h.fault _ rfl
  | ok name =>
    cases inside with
    | none =>
      rw [includeHeader_tooDeep named]
      exact h.fault _ rfl
    | some inside =>
      have found := offers.fetch_eq_lookup fits h.host (Bytes.ofText name)
      have since := h.host.fetch (Bytes.ofText name)
      rcases fetched : Header.fetch host (Bytes.ofText name) e.host with ⟨contents?, s'⟩
      rw [fetched] at found since
      cases contents? with
      | none =>
        rw [includeHeader_missing named fetched]
        simp only [← found]
        exact (h.withHost since).fault _ rfl
      | some contents =>
        rw [includeHeader_found named fetched]
        simp only [← found]
        exact inside _ _ _ (h.withHost since)

/-- One step with a host and with the library it offers end alike. -/
theorem same_stepWithin (h : SameSince host s e e') (item : SourceItem) :
    SameSince host s (step host deeper? e item) (stepWithin library deeper?' e' item) := by
  cases item with
  | text | marker | endOfSource => exact same_step_of_ne (by rintro _ _ ⟨⟩) h deeper?
  | directive d line =>
    cases d with
    | includeHeader words =>
      have begun : SameSince host s { e with line } { e' with line } := { h with line := rfl }
      have skips : e.branches.skipping = e'.branches.skipping :=
        congrArg Branches.skipping h.branches
      simp only [step, direct, obey, SourceItem.line, stepWithin, skips]
      split
      next => exact begun
      next => exact same_includeWithin offers fits inside begun words line
    | null | ifDefined | ifHolds | elifHolds | otherwise | endIf | define | undefine
    | report | ignored
    | unknown => exact same_step_of_ne (by rintro _ _ ⟨⟩) h deeper?

/-- As `same_stepWithin`, for a pass. -/
theorem same_foldl_stepWithin (h : SameSince host s e e') (items : List SourceItem) :
    SameSince host s (items.foldl (step host deeper?) e)
      (items.foldl (stepWithin library deeper?') e') := by
  induction items generalizing e e' with
  | nil => exact h
  | cons item items ih => exact ih (same_stepWithin offers fits inside h item)

end Step

include offers fits

/-- As `same_stepWithin`, for the expansion at every depth, by induction on the depth. -/
theorem same_runWithin (depth : Nat) (h : SameSince host s e e') (ts : List Token) :
    SameSince host s (run host depth ts e) (runWithin library depth ts e') := by
  induction depth generalizing e e' ts with
  | zero => exact same_foldl_stepWithin offers fits .none h _
  | succ depth ih => exact same_foldl_stepWithin offers fits (.some fun ts _ _ h => ih h ts) h _

end Offers

end Expansion

namespace Token

/-- The tokens of a source whose headers are those of a library. -/
def expandWithin (library : List (Bytes × Bytes)) (ts : List Token) : List Token :=
  (Expansion.runWithin library maxHeaderDepth ts { host := () }).finish

/-- What a host makes of a program is a function of the headers it offers, and not of how it hands
them over. -/
theorem expandAll_eq_expandWithin {σ : Type} {host : Host σ}
    {library : List (Bytes × Bytes)} {s : σ} (offers : host.Offers library s)
    (fits : ∀ header ∈ library, header.2.length ≤ maxHeaderBytes) (ts : List Token) :
    (expandAll host ts s).1 = expandWithin library ts := by
  have begun : Expansion.SameSince host s { host := s } { host := () } :=
    ⟨.refl (fun _ => rfl) _, rfl, rfl, .refl, .nil⟩
  exact Tokens.like_eq_iff.mp (Expansion.same_runWithin offers fits maxHeaderDepth begun ts).finish

/-- Two hosts that serve the same headers give a source the same tokens, in whatever portions they
serve them: those it has if every header that is included is taken from the library as it is. And as
it is, byte for byte, it is fetched each time, whatever has been fetched before. -/
theorem expandAll_of_offers {σ τ : Type} {host : Host σ} {host' : Host τ}
    {library : List (Bytes × Bytes)} {s : σ} {t : τ} (offers : host.Offers library s)
    (offers' : host'.Offers library t) (fits : ∀ header ∈ library, header.2.length ≤ maxHeaderBytes)
    (ts : List Token) :
    (expandAll host ts s).1 = (expandAll host' ts t).1 ∧
      (expandAll host ts s).1 = expandWithin library ts ∧
      ∀ path s', host.Fetched s s' → (Header.fetch host path s').1 = library.lookup path := by
  have within := expandAll_eq_expandWithin offers fits ts
  have within' := expandAll_eq_expandWithin offers' fits ts
  exact ⟨within.trans within'.symm, within, fun path _ fetched =>
    offers.fetch_eq_lookup fits fetched path⟩

/-- Two headers, of which one includes the other. -/
def chained : List (Bytes × Bytes) :=
  [(Bytes.ofText "outer", Bytes.ofText "#include \"inner\"\nint x = N;"),
    (Bytes.ofText "inner", Bytes.ofText "#define N 7\n")]

/-- They are read a byte at a time. -/
def byteByByte : Headers :=
  ⟨chained, fun _ => 1, Int.ofNat⟩

/-- Each read brings more than the one before, from whatever header. -/
def moreAndMore : Headers :=
  ⟨chained, fun reads => reads + 1, Int.ofNat⟩

/-- Two hosts that hand over the same two headers in different portions, one of them including the
other, with a header that neither has. -/
theorem expandAll_of_offers_chained :
    byteByByte.host.Offers chained {} ∧ moreAndMore.host.Offers chained {} ∧
      (∀ header ∈ chained, header.2.length ≤ maxHeaderBytes) ∧
      let ts := ofSource (Bytes.ofText "#include \"outer\"\n#include <missing>\nN")
      (expandAll byteByByte.host ts {}).1 = (expandAll moreAndMore.host ts {}).1 ∧
        (expandAll byteByByte.host ts {}).1 = expandWithin chained ts ∧
        ∀ path s', byteByByte.host.Fetched {} s' →
          (Header.fetch byteByByte.host path s').1 = chained.lookup path := by
  have offers : byteByByte.host.Offers chained {} :=
    Headers.offers ⟨fun _ => Nat.zero_lt_one, fun _ => rfl⟩ (Int.le_of_lt (by decide))
  have offers' : moreAndMore.host.Offers chained {} :=
    Headers.offers ⟨Nat.zero_lt_succ, fun _ => rfl⟩ (Int.le_of_lt (by decide))
  have fits : ∀ header ∈ chained, header.2.length ≤ maxHeaderBytes := by decide +kernel
  exact ⟨offers, offers', fits, expandAll_of_offers offers offers' fits _⟩

end Token

end BareC
