import BareC.Proofs.Grammar.Markers
import BareC.Proofs.Journal.Statements

/-!
# Units with a journal

A unit is read to its end with one journal, which goes from each declaration to the next. Only where
a declaration has failed are the counters set back. `Starts` are the places where the next
declaration starts and what is in the journal there; the declarations are read as without a journal
(`recorded`).

So no declaration finds less room than another, however the one in front of it went. What could be
read of a declaration that has failed is not looked at; only its one item and its operands are.
-/

namespace BareC.Grammar

/-! ## Definitions -/

/-- The counters are set back to zero. -/
def Journal.reset (j : Journal) : Journal :=
  { j with nesting := 0, height := 0 }

/-- What stands behind a signature. -/
def Journaled.definition? (s : Signature) : Journaled (Option Function) := do
  if ← Parser.accept ";" then return none
  if !(← Parser.sees "\x7b") then Parser.fail .expectedBody
  let (body, scope) ← ScopedJournaled.functionBody.run s.scope
  return some { name := s.name, params := s.params, locals := scope.slots, body, line := s.line }

/-- A definition follows the parser's. -/
theorem Journaled.follows_definition? (s : Signature) :
    Follows true maxNesting maxHeight (definition? s) (Grammar.definition? s) := by
  apply Follows.lift_bind
  intro prototype
  apply Follows.ite (fun _ => .pure none)
  intro _
  apply Follows.lift_bind
  intro opening
  apply Follows.ite (fun _ => .fail_bind)
  intro _
  apply Follows.bind (ScopedJournaled.follows_functionBody s.scope)
  intro r
  exact .pure _

namespace Reading

/-- Reads a marker or a declaration. What stands in front of a body has nothing to count. -/
def record (r : Reading) (j : Journal) : Reading × Journal :=
  let t := r.cursor.next
  if t.kind = .error then
    ({ r with
      cursor := r.cursor.advance
      items := r.items.push (.error ⟨.marker t.text, t.line⟩) }, j)
  else
    match (header r.declared).run r.cursor with
    | .error f => (r.refuse f, j.reset)
    | .ok (s, cursor) =>
      let r := { r with declared := (s.name, s.params) :: r.declared }
      match Journaled.definition? s cursor j with
      | (.error f, j) => (r.refuse f, j.reset)
      | (.ok (none, cursor), j) => ({ r with cursor }, j)
      | (.ok (some f, cursor), j) => ({ r with cursor, items := r.items.push (.function f) }, j)

/-- What becomes of a unit and its journal where the next declaration is read: the unit is read as
without a journal, the counters come back to zero and have kept to their limits, and if anything is
to be assigned to that cannot be, then the declaration is refused. -/
structure Recorded (r : Reading) (j : Journal) (r' : Reading) (j' : Journal) : Prop where
  step : r' = r.step
  nesting : j'.nesting = 0
  height : j'.height = 0
  within : j.Within → j'.Within
  operands : ∃ new, j'.operands = new ++ j.operands ∧
    ∀ o ∈ new, ¬o.IsTarget → ∃ d, r'.items = r.items.push (.error d)

section Recorded

variable {r : Reading} {j : Journal}

/-- Where nothing is read that counts. -/
theorem recorded_of_same {r' : Reading} {j' : Journal} (step : r' = r.step)
    (nesting : j'.nesting = 0) (height : j'.height = 0) (within : j.Within → j'.Within)
    (operands : j'.operands = j.operands) :
    r.Recorded j r' j' :=
  ⟨step, nesting, height, within, [], operands, List.forall_mem_nil _⟩

/-- Behind a signature there is a body or a semicolon, or the declaration is refused. -/
theorem recorded_of_header (notMarker : r.cursor.next.kind ≠ .error) {s : Signature} {c : Cursor}
    (read : (header r.declared).run r.cursor = .ok (s, c)) (nesting : j.nesting = 0)
    (height : j.height = 0) :
    r.Recorded j (r.record j).1 (r.record j).2 := by
  have read' :
      (do let s ← signature; agreeing r.declared s; return s : Parser Signature).run r.cursor =
    .ok (s, c) := read
  have deep : j.nesting + maxNesting = maxNesting := by rw [nesting, Nat.zero_add]
  have tall : j.height + maxHeight = maxHeight := by rw [height, Nat.zero_add]
  obtain ⟨j', run, extends_, kept⟩ := Journaled.follows_definition? s c j deep tall
  obtain ⟨new, operands, targets⟩ := extends_.operands
  have nesting' : j'.nesting = 0 := extends_.nesting.trans nesting
  have height' : j'.height = 0 := (kept rfl).trans height
  cases body : (definition? s).run c with
  | error f =>
    rw [body] at run
    have same : r.record j = (r.step, j'.reset) := by
      simp only [record, step, declaration, if_neg notMarker, read, read', run, body]
    have refused : r.step.items = r.items.push (.error f.diagnostic) := by
      simp only [step, declaration, if_neg notMarker, read', body, refuse]
    rw [same]
    refine ⟨rfl, rfl, rfl, fun within => ?_, new, operands, fun _ _ _ => ⟨f.diagnostic, refused⟩⟩
    have inside := extends_.within within
    exact ⟨inside.deepest, inside.tallest⟩
  | ok found =>
    -- A body that has been read has nothing but targets to assign to.
    have targets : ∀ o ∈ new, o.IsTarget := targets ⟨found, body⟩
    have same : r.record j = (r.step, j') := by
      obtain ⟨_ | f, cursor⟩ := found <;> rw [body] at run <;>
        simp only [record, step, declaration, if_neg notMarker, read, read', run, body]
    rw [same]
    exact ⟨rfl, nesting', height', extends_.within, new, operands,
      fun o mem notTarget => absurd (targets o mem) notTarget⟩

variable (r) in
/-- A step of the reading, recorded from an empty journal, is the step. -/
theorem recorded (nesting : j.nesting = 0) (height : j.height = 0) :
    r.Recorded j (r.record j).1 (r.record j).2 := by
  by_cases marker : r.cursor.next.kind = .error
  · have same : r.record j = (r.step, j) := by
      rw [record, step, if_pos marker, if_pos marker]
    rw [same]
    exact recorded_of_same rfl nesting height id rfl
  cases read : (header r.declared).run r.cursor with
  | error f =>
    have read' :
        (do let s ← signature; agreeing r.declared s; return s : Parser Signature).run r.cursor =
      .error f := read
    have same : r.record j = (r.step, j.reset) := by
      simp only [record, step, declaration, if_neg marker, read, read']
    rw [same]
    exact recorded_of_same rfl rfl rfl (fun within => ⟨within.deepest, within.tallest⟩) rfl
  | ok found => exact recorded_of_header marker read nesting height

end Recorded

end Reading

/-! ## Whole units -/

/-- The places in a unit where the next declaration starts, or the unit ends, with the journal
there. -/
inductive Starts (ts : List Token) : Reading → Journal → Prop
  | first : Starts ts { cursor := .ofTokens ts } {}
  | next {r : Reading} {j : Journal} : Starts ts r j → r.cursor.atEnd = false →
    Starts ts (r.record j).1 (r.record j).2

namespace Starts

variable {ts : List Token} {r : Reading} {j : Journal}

/-- Wherever a declaration starts, the counters are at zero, and have never been above their limits.
-/
theorem counters (starts : Starts ts r j) : j.nesting = 0 ∧ j.height = 0 ∧ j.Within := by
  induction starts with
  | first => exact ⟨rfl, rfl, Nat.zero_le _, Nat.zero_le _⟩
  | @next r _ _ _ ih =>
    obtain ⟨nesting, height, within⟩ := ih
    have recorded := r.recorded nesting height
    exact ⟨recorded.nesting, recorded.height, recorded.within within⟩

/-- Every function of a source is read from an empty journal, so every step of its reading is
recorded. -/
theorem recorded (starts : Starts ts r j) : r.Recorded j (r.record j).1 (r.record j).2 := by
  obtain ⟨nesting, height, -⟩ := starts.counters
  exact Reading.recorded r nesting height

/-- What is read of the unit is read from there on. -/
theorem exists_finish (starts : Starts ts r j) :
    ∃ bound : List Token, r.cursor.ahead.length ≤ bound.length ∧
    Reading.finish bound r = Reading.finish
      (Cursor.ofTokens ts).ahead { cursor := .ofTokens ts } := by
  induction starts with
  | first => exact ⟨_, Nat.le_refl _, rfl⟩
  | @next r j starts goesOn ih =>
    obtain ⟨bound, enough, finish⟩ := ih
    have shorter := Reading.step_shorter goesOn
    have some : 0 < bound.length := by omega
    obtain ⟨t, bound, rfl⟩ := List.exists_cons_of_length_pos some
    rw [starts.recorded.step]
    refine ⟨bound, ?_, ?_⟩
    · rw [List.length_cons] at enough
      omega
    · rw [← finish, Reading.finish, goesOn]
      rfl

end Starts

end BareC.Grammar
