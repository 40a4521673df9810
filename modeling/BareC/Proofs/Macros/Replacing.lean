import BareC.Proofs.Macros.Tracing

/-!
# Replacing one macro after another

The text-book reading of macros has no order: take any name of a macro in a text and put its body
there. Two such replacements in one text do not disturb each other (`Replaces.diamond`). So once
some way of replacing comes to an end, every way does, at the same text and after the same number of
replacements (`Replacements.rest`).

`Macros.expand` is one such way (`Expands.replacements`), in any table. Where no macro leads to
itself it comes to an end, and its result is the only one (`expand_complete`).

Texts are lists of spellings, since where a token stands is changed by a replacement and plays no
part in the next. Nothing is said here of macros with arguments, of joined or quoted tokens, or of a
macro that leads to itself: there `expand` leaves its name standing, and other ways of replacing may
have no end.
-/

namespace BareC

/-- What a token says, wherever it stands. -/
structure Spelling where
  kind : Token.Kind
  text : String
  value : Int
  deriving DecidableEq

def Token.spelling (t : Token) : Spelling where
  kind := t.kind
  text := t.text
  value := t.value

namespace Macros

variable {m : Macros}

/-- A placed body is spelled as it was written. -/
theorem map_spelling_place (t : Token) (body : List Token) :
    (place t body).map Token.spelling = body.map Token.spelling := by
  cases body with
  | nil => rfl
  | cons first others => simp [place, Token.spelling]

/-! ## One replacement -/

/-- The second text is the first with one name of a macro replaced by the body. -/
inductive Replaces (m : Macros) : List Spelling → List Spelling → Prop where
  | first {name : String} {value : Int} {body : List Token} {rest : List Spelling}
      (found : m.body? name = some body) :
      Replaces m (⟨.ident, name, value⟩ :: rest) (body.map Token.spelling ++ rest)
  | later {s : Spelling} {rest rest' : List Spelling} (replaces : Replaces m rest rest') :
      Replaces m (s :: rest) (s :: rest')

/-- Nothing is left to replace. -/
def Settled (m : Macros) (text : List Spelling) : Prop :=
  ∀ text', ¬ m.Replaces text text'

namespace Replaces

variable {a b c : List Spelling}

/-- A replacement may stand behind anything. -/
theorem append_left (before : List Spelling) (h : m.Replaces a b) :
    m.Replaces (before ++ a) (before ++ b) := by
  induction before with
  | nil => exact h
  | cons _ _ ih => exact .later ih

/-- A replacement may stand in front of anything. -/
theorem append_right (behind : List Spelling) (h : m.Replaces a b) :
    m.Replaces (a ++ behind) (b ++ behind) := by
  induction h with
  | first found =>
    rw [List.cons_append, List.append_assoc]
    exact .first found
  | later _ ih => exact .later ih

/-- Of two replacements in one text each can be made after the other, unless they are the same. -/
theorem diamond (h : m.Replaces a b) (h' : m.Replaces a c) :
    b = c ∨ ∃ d, m.Replaces b d ∧ m.Replaces c d := by
  induction h generalizing c with
  | first found =>
    cases h' with
    | first found' =>
      cases found.symm.trans found'
      exact .inl rfl
    | later behind => exact .inr ⟨_, behind.append_left _, .first found⟩
  | later behind ih =>
    cases h' with
    | first found => exact .inr ⟨_, .first found, behind.append_left _⟩
    | later behind' =>
      rcases ih behind' with rfl | ⟨d, left, right⟩
      · exact .inl rfl
      · exact .inr ⟨_, .later left, .later right⟩

end Replaces

/-- Tokens none of which is defined are settled. -/
theorem settled_of_forall {ts : List Token}
    (plain : ∀ t ∈ ts, t.kind = .ident → m.isDefined t.text = false) :
    m.Settled (ts.map Token.spelling) := by
  intro text' replaces
  induction ts generalizing text' with
  | nil => cases replaces
  | cons t ts ih =>
    obtain ⟨first, others⟩ := List.forall_mem_cons.mp plain
    generalize eq : (t :: ts).map Token.spelling = text at replaces
    cases replaces with
    | first found =>
      obtain ⟨spelling, -⟩ := List.cons.inj eq
      obtain ⟨kind, text, -⟩ := Spelling.mk.inj spelling
      have defined : m.isDefined t.text = true := by rw [text, isDefined, found, Option.isSome_some]
      exact Bool.false_ne_true ((first kind).symm.trans defined)
    | later replaces =>
      obtain ⟨-, rfl⟩ := List.cons.inj eq
      exact ih others _ replaces

/-! ## Many replacements -/

/-- The second text is the first after so many replacements. -/
inductive Replacements (m : Macros) : Nat → List Spelling → List Spelling → Prop where
  | none {a : List Spelling} : Replacements m 0 a a
  | one {n : Nat} {a b c : List Spelling} (replaces : m.Replaces a b)
      (others : Replacements m n b c) : Replacements m (n + 1) a c

namespace Replacements

variable {n k : Nat} {a b c : List Spelling}

/-- Replacements follow one another. -/
theorem trans (h : m.Replacements n a b) (h' : m.Replacements k b c) :
    m.Replacements (n + k) a c := by
  induction h with
  | none => rwa [Nat.zero_add]
  | one replaces _ ih =>
    rw [Nat.add_right_comm]
    exact .one replaces (ih h')

/-- As `Replaces.append_left`, for any number of them. -/
theorem append_left (before : List Spelling) (h : m.Replacements n a b) :
    m.Replacements n (before ++ a) (before ++ b) := by
  induction h with
  | none => exact .none
  | one replaces _ ih => exact .one (replaces.append_left before) ih

/-- As `Replaces.append_right`, for any number of them. -/
theorem append_right (behind : List Spelling) (h : m.Replacements n a b) :
    m.Replacements n (a ++ behind) (b ++ behind) := by
  induction h with
  | none => exact .none
  | one replaces _ ih => exact .one (replaces.append_right behind) ih

/-- On the way to a settled text every replacement is a step ahead, whichever it is. -/
theorem ahead (h : m.Replacements n a c) (settled : m.Settled c) (replaces : m.Replaces a b) :
    ∃ k, n = k + 1 ∧ m.Replacements k b c := by
  induction h generalizing b with
  | none => exact absurd replaces (settled b)
  | one replaces' others ih =>
    rcases replaces.diamond replaces' with rfl | ⟨d, after, after'⟩
    · exact ⟨_, rfl, others⟩
    · obtain ⟨k, rfl, toEnd⟩ := ih settled after'
      exact ⟨k + 1, rfl, .one after toEnd⟩

/-- What is left of the way to a settled text, whatever has been replaced before. -/
theorem rest (h : m.Replacements n a c) (settled : m.Settled c) (made : m.Replacements k a b) :
    k ≤ n ∧ m.Replacements (n - k) b c := by
  induction made generalizing n with
  | none => exact ⟨Nat.zero_le n, h⟩
  | one replaces _ ih =>
    obtain ⟨n, rfl, toEnd⟩ := h.ahead settled replaces
    obtain ⟨le, left⟩ := ih toEnd
    exact ⟨Nat.succ_le_succ le, by rwa [Nat.add_sub_add_right]⟩

/-- What is settled is not replaced. -/
theorem eq_of_settled (h : m.Replacements n a b) (settled : m.Settled a) : a = b := by
  cases h with
  | none => rfl
  | one replaces => exact absurd replaces (settled _)

end Replacements

/-- Expanding is a way of replacing. -/
theorem Expands.replacements {inside : List String} {ts : List Token} {out : List Traced}
    (h : m.Expands inside ts out) :
    ∃ n, m.Replacements n (ts.map Token.spelling) (out.map (·.token.spelling)) := by
  induction h with
  | nil => exact ⟨0, .none⟩
  | @kept _ t _ _ _ _ ih =>
    obtain ⟨n, rest⟩ := ih
    exact ⟨n, rest.append_left [t.spelling]⟩
  | @replaced _ t ts body made out name _ found _ _ ihWithin ih =>
    obtain ⟨k, within⟩ := ihWithin
    obtain ⟨n, rest⟩ := ih
    rw [map_spelling_place] at within
    have replaces :
        m.Replaces ((t :: ts).map Token.spelling)
          (body.map Token.spelling ++ ts.map Token.spelling) := by
      rw [List.map_cons, Token.spelling, name]
      exact .first found
    rw [List.map_append]
    exact ⟨k + n + 1, .one replaces ((within.append_right _).trans (rest.append_left _))⟩

/-! ## What `expand` comes to -/

/-- The expansion of a token, with the macros it goes through kept beside it, is what `expand`
computes, and a macro is left in it inside its own expansion only. All of it stands on the line of
the token, and nothing of it starts a line. It is reached by replacing one macro after another.
Where no macro leads to itself none is left, and however macros are replaced, this is the text where
it ends. -/
theorem expand_complete (m : Macros) (t : Token) :
    (∃ out, (∀ out', m.Expands [] [t] out' ↔ out' = out) ∧ out.map (·.token) = m.expand t ∧
      ∀ u ∈ out, u.token.kind = .ident → m.isDefined u.token.text = true →
      u.token.text ∈ u.inside) ∧
    (∀ u ∈ m.expand t, u.line = t.line ∧ u.startsLine = false) ∧
    ∃ n, m.Replacements n [t.spelling] ((m.expand t).map Token.spelling) ∧
      (m.Acyclic →
        (∀ u ∈ m.expand t, u.kind = .ident → m.isDefined u.text = false) ∧
        m.Settled ((m.expand t).map Token.spelling) ∧
        ∀ k text, m.Replacements k [t.spelling] text →
          k ≤ n ∧ m.Replacements (n - k) text ((m.expand t).map Token.spelling) ∧
          (m.Settled text → text = (m.expand t).map Token.spelling)) := by
  obtain ⟨out, expands, eq⟩ := exists_expands m [] [t]
  rw [without_nil, List.flatMap_singleton] at eq
  obtain ⟨n, toEnd⟩ := expands.replacements
  have spelled : out.map (·.token.spelling) = (m.expand t).map Token.spelling := by
    rw [← eq, List.map_map]
    rfl
  rw [spelled] at toEnd
  refine ⟨⟨out, fun out' => ⟨expands.unique, fun same => same ▸ expands⟩, eq, expands.mem_inside⟩,
    fun u mem => ⟨line_of_mem_expand mem, startsLine_of_mem_expand mem⟩, n, toEnd,
    fun acyclic => ?_⟩
  have plain := acyclic.isDefined_of_mem_expand t
  have settled := settled_of_forall plain
  refine ⟨plain, settled, fun k text made => ?_⟩
  obtain ⟨le, left⟩ := toEnd.rest settled made
  exact ⟨le, left, left.eq_of_settled⟩

/-- A macro whose body has another one in it twice. -/
def twofold : Macros :=
  [("TWO", [⟨.ident, "ONE", 0, 1, false, true⟩, ⟨.punct, "+", 0, 1, false, true⟩,
      ⟨.ident, "ONE", 0, 1, false, true⟩]),
    ("ONE", [⟨.num, "1", 1, 2, false, true⟩])]

/-- The table of the example does not come back to a name. -/
theorem acyclic_twofold : twofold.Acyclic :=
  acyclic_of_rank (fun name => if name = "TWO" then 1 else 0) (by decide)

/-- The longer name of the example expands through the shorter. -/
theorem expand_two :
    (twofold.expand ⟨.ident, "TWO", 0, 4, true, false⟩).map Token.spelling =
      [⟨.num, "1", 1⟩, ⟨.punct, "+", 0⟩, ⟨.num, "1", 1⟩] := by
  simp [expand, replacement?, body?, place, erase, twofold, List.lookup_cons, Token.spelling]

/-- Whichever of the two is replaced first, `TWO` ends as `1 + 1`. -/
theorem expand_complete_twofold :
    twofold.Acyclic ∧ ∀ k text, twofold.Replacements k [⟨.ident, "TWO", 0⟩] text →
      twofold.Settled text → text = [⟨.num, "1", 1⟩, ⟨.punct, "+", 0⟩, ⟨.num, "1", 1⟩] := by
  obtain ⟨-, -, n, -, ends⟩ := expand_complete twofold ⟨.ident, "TWO", 0, 4, true, false⟩
  refine ⟨acyclic_twofold, fun k text made settled => ?_⟩
  exact (((ends acyclic_twofold).2.2 k text made).2.2 settled).trans expand_two

end Macros

end BareC
