import BareC.Proofs.Grammar.Containment
import BareC.Proofs.Journal.Units

/-!
# What is assigned to

Every operand that stands in front of an assignment operator or beside an operator that steps a
variable is in the journal. If one of them is not a target, then the declaration has an error for
its item, and keeps it when the unit is linked. The targets are the variables in parentheses, and
those behind plus signs as well (`only_targets_are_assigned`): a plus sign hands on what it stands
in front of, as the other unary operators do not.

What is refused is the declaration as a whole, which leaves one diagnostic and no function. Whether
plus signs should make a target is not decided; it is shown that they do and that the other unary
operators do not.
-/

namespace BareC

namespace Program

open Grammar

/-- Linking leaves errors as they are. -/
theorem getElem?_link_of_error {p : Program} {n : Nat} {d : Diagnostic}
    (isError : p.items[n]? = some (.error d)) : p.link.items[n]? = some (.error d) := by
  apply link_induction (motive := fun q => q.items[n]? = some (.error d)) isError
  intro q same
  show (q.items.map (checkItem q.arities))[n]? = some (.error d)
  rw [List.getElem?_map, same]
  rfl

section Refused

variable {ts : List Token} {r : Reading} {j : Journal}

/-- The item of a declaration that is refused where it is read is an error of the unit. -/
theorem getElem?_of_refused (starts : Starts ts r j) (goesOn : r.cursor.atEnd = false)
    {d : Diagnostic} (refused : (r.record j).1.items = r.items.push (.error d)) :
    (ofTokens ts).items[r.items.size]? = some (.error d) := by
  apply getElem?_link_of_error
  obtain ⟨bound, enough, finish⟩ := (starts.next goesOn).exists_finish
  obtain ⟨more, items, -⟩ := Reading.accounts_finish bound (r.record j).1 enough
  have all : (read ts).items = r.items.toList ++ .error d :: more := by
    rw [read]
    dsimp only
    rw [← finish, items, refused, Array.toList_push, List.append_assoc]
    rfl
  rw [all, ← Array.length_toList, List.getElem?_append_right (Nat.le_refl _), Nat.sub_self]
  rfl

end Refused

/-- An operand that is a variable was read from a target. Every declaration of a unit puts on record
what is to be assigned to in it, and if any of that is not a target, the declaration is an error of
the unit. -/
theorem only_targets_are_assigned (ts : List Token) :
    (∀ vars nesting height slot c c', (unary vars nesting height).run c = .ok (.var slot, c') →
      ∃ taken, c.ahead = taken ++ c'.ahead ∧ Target true vars slot taken) ∧
    ∀ r j, Starts ts r j → r.cursor.atEnd = false →
      (r.record j).1 = r.step ∧ ∃ new, (r.record j).2.operands = new ++ j.operands ∧
        ∀ o ∈ new, (∀ slot, ¬Target true o.vars slot o.tokens) →
          ∃ d, (ofTokens ts).items[r.items.size]? = some (.error d) := by
  constructor
  · intro vars nesting height slot c c' run
    exact target_of_unary run
  · intro r j starts goesOn
    have recorded := starts.recorded
    obtain ⟨new, operands, refuses⟩ := recorded.operands
    refine ⟨recorded.step, new, operands, ?_⟩
    intro o mem notTarget
    obtain ⟨d, refused⟩ := refuses o mem fun ⟨slot, target⟩ => notTarget slot target
    exact ⟨d, getElem?_of_refused starts goesOn refused⟩

/-- A function that assigns to a variable with a plus sign in front of it. -/
def assigningToSigned : List Token :=
  Broken.function "f" [Broken.word "int", Broken.word "x", Broken.sign ";", Broken.sign "+",
    Broken.word "x", Broken.sign "=", Broken.word "x", Broken.sign ";"]

-- What it assigns to is on record.
example : (Reading.record { cursor := .ofTokens assigningToSigned } {}).2.operands.map (·.tokens) =
    [[Broken.sign "+", Broken.word "x"]] := by decide +kernel

/-- A plus sign makes no difference to what can be assigned to: not every operand that is a variable
is the name of one in parentheses, and a function that assigns to another one is not refused. -/
theorem not_only_names_are_assigned :
    (¬∀ vars nesting height slot c c', (unary vars nesting height).run c = .ok (.var slot, c') →
      ∃ taken, c.ahead = taken ++ c'.ahead ∧ Target false vars slot taken) ∧
    (ofTokens assigningToSigned).errors = [] ∧
    (ofTokens assigningToSigned).functions.length = 1 := by
  refine ⟨?_, by decide +kernel⟩
  intro always
  have run : (unary [("x", 0)] 1 1).run ⟨[Broken.sign "+", Broken.word "x", Broken.sign "="], 0⟩ =
      .ok (.var 0, ⟨[Broken.sign "="], 0⟩) := by rfl
  obtain ⟨taken, ahead, target⟩ := always _ _ _ _ _ _ run
  have taken_eq : [Broken.sign "+", Broken.word "x"] = taken := List.append_cancel_right ahead
  cases target with
  | name => cases taken_eq
  | parens opening =>
    obtain ⟨rfl, -⟩ := List.cons.inj taken_eq
    exact absurd opening (by decide)
  | plus signs => cases signs

end Program

end BareC
