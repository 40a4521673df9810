import BareC.Directive.Macros

/-!
# Tokens out of macros

What comes of a token when the macros in it are replaced are tokens of bodies, moved to its place,
or the token itself. They are of kinds that were there before (`OfKinds.expand`), and none of them
starts a line (`startsLine_of_mem_expand`).

Kinds are any property of kinds here, so that the absence of markers and the absence of the end of a
source are two uses of one induction, on the table that gets smaller (`OfKinds.expand`). What the
tokens are spelled like is not looked at; that is the subject of `Macros/Replacing`, where the order
of replacement matters.
-/

namespace BareC.Macros

variable {P : Token.Kind → Prop} {m : Macros}

/-- The bodies have tokens of such kinds only. -/
def OfKinds (P : Token.Kind → Prop) (m : Macros) : Prop :=
  ∀ entry ∈ m, ∀ t ∈ entry.2, P t.kind

/-- A token of a placed body is of the kind of a token of the body, and it does not start a line. -/
theorem of_mem_place {t u : Token} {body : List Token} (mem : u ∈ place t body) :
    (∃ v ∈ body, u.kind = v.kind) ∧ u.startsLine = false := by
  cases body with
  | nil => cases mem
  | cons first others =>
    rcases List.mem_cons.mp mem with rfl | mem
    · exact ⟨⟨first, List.mem_cons_self, rfl⟩, rfl⟩
    · obtain ⟨v, inBody, rfl⟩ := List.mem_map.mp mem
      exact ⟨⟨v, List.mem_cons_of_mem _ inBody, rfl⟩, rfl⟩

namespace OfKinds

/-- Taking a name out of the table leaves bodies of the kinds it had. -/
theorem erase (h : m.OfKinds P) (name : String) : (m.erase name).OfKinds P :=
  fun entry mem => h entry (List.mem_filter.mp mem).1

/-- A definition whose body is of the kinds keeps the table's bodies of them. -/
theorem define (h : m.OfKinds P) (name : String) {body : List Token}
    (kinds : ∀ t ∈ body, P t.kind) : (m.define name body).OfKinds P :=
  List.forall_mem_cons.mpr ⟨kinds, h.erase name⟩

/-- The body the table has for a name is of the table's kinds. -/
theorem body? (h : m.OfKinds P) {name : String} {body : List Token}
    (found : m.body? name = some body) : ∀ t ∈ body, P t.kind := by
  induction m with
  | nil => cases found
  | cons entry m ih =>
    obtain ⟨first, others⟩ := List.forall_mem_cons.mp h
    rw [Macros.body?, List.lookup_cons] at found
    split at found
    next =>
      cases found
      exact first
    next => exact ih others found

/-- What a token is replaced by, if it is replaced, is of the table's kinds. -/
theorem replacement? (h : m.OfKinds P) {t : Token} {body : List Token}
    (found : m.replacement? t = some body) : ∀ u ∈ body, P u.kind := by
  rw [Macros.replacement?] at found
  split at found
  next => exact h.body? found
  next => cases found

/-- A token of the kinds expands to tokens of the kinds. -/
theorem expand {m : Macros} (h : m.OfKinds P) {t : Token} (kind : P t.kind) :
    ∀ u ∈ m.expand t, P u.kind := by
  rw [Macros.expand]
  split
  next body replaced =>
    have shorter := length_erase_lt_of_replacement? replaced
    intro u mem
    obtain ⟨v, placed, inside⟩ := List.mem_flatMap.mp mem
    obtain ⟨⟨w, inBody, same⟩, -⟩ := of_mem_place placed
    have kindInside : P v.kind := same ▸ h.replacement? replaced w inBody
    exact (h.erase t.text).expand kindInside u inside
  next => exact List.forall_mem_singleton.mpr kind
termination_by m.length

end OfKinds

/-- No token that comes out of an expansion starts a line, so none of them can open a directive. -/
theorem startsLine_of_mem_expand {m : Macros} {t u : Token} (mem : u ∈ m.expand t) :
    u.startsLine = false := by
  rw [expand] at mem
  split at mem
  next body replaced =>
    have shorter := length_erase_lt_of_replacement? replaced
    obtain ⟨v, -, inside⟩ := List.mem_flatMap.mp mem
    exact startsLine_of_mem_expand inside
  next =>
    rw [List.mem_singleton.mp mem]
termination_by m.length

/-- No macro that is there from the start ends the source. -/
theorem predefined_endless : predefined.OfKinds (· ≠ .eof) := by
  intro entry mem t inBody
  obtain ⟨⟨name, text⟩, -, rfl⟩ := List.mem_map.mp mem
  exact bne_iff_ne.mp (List.mem_filter.mp inBody).2

end BareC.Macros
