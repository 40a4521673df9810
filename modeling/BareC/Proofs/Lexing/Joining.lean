import BareC.Proofs.Directives.Lines
import BareC.Proofs.Lexing.Decomposition
import Mathlib.Data.List.Count

/-!
# Joined sources

The end of a line brings the scanner back to where it began, but for the line. So if a source has no
fault and its last line is not joined to the next, the tokens of another one behind it are those
that it has alone, on later lines (`ofSource_join`). Faults of the second source are among them.

Lines are added as the scanner adds them, in words of 32 bits, so that no bound on either source is
asked for. A backslash at the end of the first source would join its last line to the next, and a
fault in it would leave the second source unread; both are excluded, and nothing is claimed in these
cases.
-/

namespace BareC

namespace Token

/-- The token on a line further down. -/
def lowered (lines : LineNumber) (t : Token) : Token :=
  { t with line := t.line + lines }

/-- A token that is like another some lines up is that token lowered by them. -/
theorem like_lowered_iff {lines : LineNumber} {t u : Token} :
    t.Like (fun m n => m + lines = n) u ↔ t.lowered lines = u := by
  constructor
  · rintro ⟨kind, text, value, startsLine, spaced, line⟩
    cases u
    simp_all [lowered]
  · rintro rfl
    exact ⟨rfl, rfl, rfl, rfl, rfl, rfl⟩

end Token

/-- As `like_lowered_iff`, for lists. -/
theorem Tokens.like_lowered_iff {lines : LineNumber} {ts us : List Token} :
    Like (fun m n => m + lines = n) ts us ↔ ts.map (Token.lowered lines) = us := by
  have same : Token.Like (fun m n => m + lines = n) = fun t u => t.lowered lines = u := by
    ext t u
    exact Token.like_lowered_iff
  rw [Like, same, ← List.forall₂_map_left_iff (R := Eq), List.forall₂_eq_eq_eq]

namespace Token

/-- Further down the same tokens are read. -/
theorem tokensFrom_lowered (line lines : LineNumber) (startsLine spaced : Bool) (s : List Char) :
    tokensFrom ⟨line + lines, startsLine, spaced⟩ s =
      (tokensFrom ⟨line, startsLine, spaced⟩ s).map (lowered lines) := by
  let L : LineNumber → LineNumber → Prop := fun m n => m + lines = n
  have counts : ∀ {m n : LineNumber} (more : LineNumber), L m n → L (m + more) (n + more) := by
    rintro m _ more rfl
    show m + more + lines = m + lines + more
    rw [UInt32.add_assoc, UInt32.add_comm more, UInt32.add_assoc]
  have positions : Position.Like L ⟨line, startsLine, spaced⟩ ⟨line + lines, startsLine, spaced⟩ :=
    ⟨rfl, rfl, rfl⟩
  exact (Tokens.like_lowered_iff.mp (like_tokensFrom counts positions s)).symm

/-! ## Bytes and characters -/

/-- A byte is the character of its number. -/
theorem toNat_charOfByte (b : UInt8) : (charOfByte b).toNat = b.toNat := by
  have small : b.toNat < 0xd800 := Nat.lt_trans b.toNat_lt (by decide)
  rw [charOfByte, Char.ofNat, dif_pos (.inl small)]
  rfl

/-- Bytes are told by their characters. -/
theorem charOfByte_injective : Function.Injective charOfByte := fun a b same =>
  UInt8.toNat_inj.mp (by rw [← toNat_charOfByte, same, toNat_charOfByte])

/-! ## At the end of a line -/

/-- If the first source has no fault and does not end with a backslash, the tokens of two sources
with the end of a line between them are those of the first, up to its end, and those of the second,
with its end or its fault, on as many lines further down as end in front of them. Line numbers have
32 bits and are added as such, so this holds of sources of any length. -/
theorem ofSource_join (a b : Bytes) (clean : hasMarker (ofSource a) = false)
    (unjoined : a.getLast? ≠ some 0x5c) :
    ∃ ts line, ofSource a = ts ++ [endOfSource line] ∧ (∀ t ∈ ts, t.kind ≠ .error ∧ t.kind ≠ .eof) ∧
      ofSource (a ++ 0x0a :: b) = ts ++ (ofSource b).map (lowered (.ofNat (1 + a.count 0x0a))) := by
  have newline : charOfByte 0x0a = '\n' := by decide
  have backslash : charOfByte 0x5c = '\\' := by decide
  obtain ⟨ts, q, toEnd⟩ := hasMarker_tokensFrom_eq_false_iff.mp clean
  have line : q.line = .ofNat (1 + a.count 0x0a) := by
    obtain ⟨cuts, gap, decomposes, -, line, -⟩ := toEnd.decomposes
    rw [line.eq_ofNat, ← List.append_nil (gapChars gap), ← decomposes.source_eq, ← newline,
      List.count_map_of_injective a charOfByte charOfByte_injective]
  have unjoined : (a.map charOfByte).getLast? ≠ some '\\' := by
    rw [List.getLast?_map, ← backslash]
    intro last
    obtain ⟨c, last, same⟩ := Option.map_eq_some_iff.mp last
    exact unjoined (charOfByte_injective same ▸ last)
  have behind : Reads {} ((a ++ 0x0a :: b).map charOfByte) ts ⟨q.line + 1, true, false⟩
    (b.map charOfByte) := by
    have toEndOfLine := toEnd.append_of_closed (b := '\n' :: b.map charOfByte) (.inr (.inr rfl))
      fun last => absurd last unjoined
    rw [List.map_append, List.map_cons, newline, ← List.append_nil ts]
    exact toEndOfLine.trans (.space rfl rfl rfl (.refl ..))
  refine ⟨ts, q.line, ?_, toEnd.not_marker, ?_⟩
  · rw [ofSource_eq_tokensFrom, toEnd.tokensFrom_eq, tokensFrom_nil]
  · rw [ofSource_eq_tokensFrom, behind.tokensFrom_eq, line, UInt32.add_comm _ 1, tokensFrom_lowered,
      ofSource_eq_tokensFrom]

/-- Lines that end in comments and at a joint, and a number at the end of all. -/
def withComments : Bytes :=
  Bytes.ofText "x /* 1\n2 */ '\\'' \\\n // 3\n07"

/-- A name that goes on where the line is joined, behind a blank, and a comment that is never
closed. -/
def withoutClosing : Bytes :=
  Bytes.ofText " y\\\nz /*\n\n"

/-- Joining a source of comments to another: its own tokens, and the other's lowered by the lines in
front. -/
theorem ofSource_join_comments :
    hasMarker (ofSource withComments) = false ∧ withComments.getLast? ≠ some 0x5c ∧
      ∃ ts line, ofSource withComments = ts ++ [endOfSource line] ∧
        (∀ t ∈ ts, t.kind ≠ .error ∧ t.kind ≠ .eof) ∧
        ofSource (withComments ++ 0x0a :: withoutClosing) =
          ts ++ (ofSource withoutClosing).map (lowered (.ofNat (1 + withComments.count 0x0a))) := by
  have clean : hasMarker (ofSource withComments) = false := by decide +kernel
  have unjoined : withComments.getLast? ≠ some 0x5c := by decide +kernel
  exact ⟨clean, unjoined, ofSource_join withComments withoutClosing clean unjoined⟩

end Token

end BareC
