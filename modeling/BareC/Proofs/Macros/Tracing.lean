import Mathlib.Logic.Relation
import BareC.Proofs.Directives.Bodies

/-!
# What a token was produced inside of

`Macros.expand` hands a shrinking table down to the bodies. Here the expansion is told the other way
round: the table stays as it is, and the names inside whose expansion a token stands are kept beside
it. Every list of tokens has one such expansion, and it is the one that `expand` computes
(`exists_expands`, `Expands.unique`).

The names that are kept say where a macro can be left standing: only inside its own expansion
(`Expands.mem_inside`). Each of them leads to what was produced inside of it, from body to body
(`Expands.leads`), so that where no macro leads to itself none is left.

The expansion is told as a relation so that it can be taken apart by cases on what became of a
token. It is total and has one result, so nothing is lost by that. What the origins of a token are
good for is seen in `Replacing`; the program itself does not keep them.
-/

namespace BareC.Macros

variable {m : Macros} {inside : List String} {ts : List Token}

/-! ## Expansion with the names it is inside of -/

/-- A token of a result, with the macros that it was produced inside of, innermost first. -/
structure Traced where
  inside : List String
  token : Token

/-- Inside these macros the token is left as it is: where it is a name, it is one of theirs or that
of no macro. -/
def Kept (m : Macros) (inside : List String) (t : Token) : Prop :=
  t.kind = .ident → t.text ∉ inside → m.isDefined t.text = false

/-- What comes of tokens that stand inside the expansions of some macros. -/
inductive Expands (m : Macros) : (inside : List String) → List Token → List Traced → Prop where
  | nil {inside : List String} : Expands m inside [] []
  | kept {inside : List String} {t : Token} {ts : List Token} {out : List Traced}
      (kept : m.Kept inside t) (rest : Expands m inside ts out) :
      Expands m inside (t :: ts) (⟨inside, { t with startsLine := false }⟩ :: out)
  | replaced {inside : List String} {t : Token} {ts body : List Token} {made out : List Traced}
      (name : t.kind = .ident) (outside : t.text ∉ inside) (found : m.body? t.text = some body)
      (within : Expands m (t.text :: inside) (place t body) made) (rest : Expands m inside ts out) :
      Expands m inside (t :: ts) (made ++ out)

namespace Expands

variable {out : List Traced}

/-- Nothing about an expansion is left open. -/
theorem unique (h : m.Expands inside ts out) {out' : List Traced} (h' : m.Expands inside ts out') :
    out' = out := by
  induction h generalizing out' with
  | nil =>
    cases h'
    rfl
  | kept kept _ ih =>
    cases h' with
    | kept _ rest => rw [ih rest]
    | replaced name outside found => exact absurd (kept name outside) (by simp [isDefined, found])
  | replaced name outside found _ _ ihWithin ih =>
    cases h' with
    | kept kept => exact absurd (kept name outside) (by simp [isDefined, found])
    | replaced _ _ found' within rest =>
      cases found.symm.trans found'
      rw [ihWithin within, ih rest]

/-- A macro is left standing inside its own expansion only. -/
theorem mem_inside (h : m.Expands inside ts out) :
    ∀ u ∈ out, u.token.kind = .ident → m.isDefined u.token.text = true →
    u.token.text ∈ u.inside := by
  induction h with
  | nil => exact List.forall_mem_nil _
  | kept kept _ ih =>
    refine List.forall_mem_cons.mpr ⟨fun name defined =>
      Decidable.byContradiction fun outside => ?_, ih⟩
    exact Bool.false_ne_true ((kept name outside).symm.trans defined)
  | replaced _ _ _ _ _ ihWithin ih => exact List.forall_mem_append.mpr ⟨ihWithin, ih⟩

end Expands

/-! ## The same as handing down a smaller table -/

/-- The table without the names. -/
def without (m : Macros) (names : List String) : Macros :=
  m.filter (·.1 ∉ names)

/-- A table without no names is the table. -/
@[simp] theorem without_nil (m : Macros) : m.without [] = m := by
  simp [without]

/-- Taking out one name more. -/
theorem erase_without (m : Macros) (names : List String) (name : String) :
    (m.without names).erase name = m.without (name :: names) := by
  rw [erase, without, without, List.filter_filter]
  refine List.filter_congr fun entry _ => ?_
  by_cases same : entry.1 = name <;> simp [same]

/-- The bodies of a table without some names. -/
theorem body?_without (m : Macros) (names : List String) (name : String) :
    (m.without names).body? name = if name ∈ names then none else m.body? name := by
  induction m with
  | nil => simp [without, body?]
  | cons entry m ih =>
    obtain ⟨first, body⟩ := entry
    by_cases gone : first ∈ names
    · rw [without, List.filter_cons_of_neg (by simpa using gone), ← without, ih]
      by_cases same : name = first
      · simp [same, gone]
      · simp [body?, List.lookup_cons, beq_false_of_ne same]
    · rw [without, List.filter_cons_of_pos (by simpa using gone), ← without]
      by_cases same : name = first
      · simp [body?, same, gone]
      · simpa [body?, List.lookup_cons, beq_false_of_ne same] using ih

/-- A token is replaced inside some expansions where its name is defined and is none of theirs. -/
theorem replacement?_without_eq_some_iff {t : Token} {body : List Token} :
    (m.without inside).replacement? t = some body ↔
      t.kind = .ident ∧ t.text ∉ inside ∧ m.body? t.text = some body := by
  simp [replacement?, body?_without]

/-- A token that is not replaced inside some expansions is kept there. -/
theorem replacement?_without_eq_none_iff {t : Token} :
    (m.without inside).replacement? t = none ↔ m.Kept inside t := by
  simp [replacement?, body?_without, Kept, isDefined]

/-- The expansion goes to an end, with what `expand` computes from the table without the names. -/
theorem exists_expands (m : Macros) (inside : List String) (ts : List Token) :
    ∃ out, m.Expands inside ts out ∧ out.map (·.token) = ts.flatMap (m.without inside).expand := by
  cases ts with
  | nil => exact ⟨[], .nil, rfl⟩
  | cons t ts =>
    obtain ⟨out, rest, eqOut⟩ := exists_expands m inside ts
    rw [List.flatMap_cons, expand, ← eqOut]
    split
    next body replaced =>
      obtain ⟨name, outside, found⟩ := replacement?_without_eq_some_iff.mp replaced
      -- the table without one name more is shorter, however long the body is
      have shorter : (m.without (t.text :: inside)).length < (m.without inside).length :=
        erase_without m inside t.text ▸ length_erase_lt_of_replacement? replaced
      rw [erase_without]
      obtain ⟨made, within, eqMade⟩ := exists_expands m (t.text :: inside) (place t body)
      exact ⟨made ++ out, .replaced name outside found within rest, by rw [List.map_append, eqMade]⟩
    next kept => exact ⟨_, .kept (replacement?_without_eq_none_iff.mp kept) rest, rfl⟩
termination_by ((m.without inside).length, ts.length)

/-! ## Where the tokens stand -/

/-- What is placed is a token of the body, moved. -/
theorem exists_of_mem_place {t u : Token} {body : List Token} (mem : u ∈ place t body) :
    ∃ v ∈ body, u = { v with line := t.line, startsLine := false, spaced := u.spaced } := by
  cases body with
  | nil => cases mem
  | cons first others =>
    rcases List.mem_cons.mp mem with rfl | mem
    · exact ⟨first, List.mem_cons_self, rfl⟩
    · obtain ⟨v, inBody, rfl⟩ := List.mem_map.mp mem
      exact ⟨v, List.mem_cons_of_mem _ inBody, rfl⟩

/-- An expansion stands on the line of what it replaces. -/
theorem line_of_mem_expand {m : Macros} {t u : Token} (mem : u ∈ m.expand t) : u.line = t.line := by
  rw [expand] at mem
  split at mem
  next body replaced =>
    have shorter := length_erase_lt_of_replacement? replaced
    obtain ⟨v, placed, within⟩ := List.mem_flatMap.mp mem
    obtain ⟨w, -, moved⟩ := exists_of_mem_place placed
    rw [line_of_mem_expand within, moved]
  next => rw [List.mem_singleton.mp mem]
termination_by m.length

/-! ## Macros that lead to one another -/

/-- The name stands in the body of the macro `outer`. -/
def Refers (m : Macros) (outer name : String) : Prop :=
  ∃ body, m.body? outer = some body ∧ ∃ t ∈ body, t.kind = .ident ∧ t.text = name

/-- From body to body, no name leads back to itself. -/
def Acyclic (m : Macros) : Prop :=
  ∀ name, ¬ Relation.TransGen m.Refers name name

/-- Where each body has names of lower rank only, no name leads back to itself. -/
theorem acyclic_of_rank (rank : String → Nat)
    (falls : ∀ entry ∈ m, ∀ t ∈ entry.2, t.kind = .ident → rank t.text < rank entry.1) :
    m.Acyclic := by
  have descends {a b : String} (leads : Relation.TransGen m.Refers a b) : rank b < rank a := by
    have refers {a b : String} (h : m.Refers a b) : rank b < rank a := by
      obtain ⟨body, found, t, mem, name, rfl⟩ := h
      obtain ⟨before, behind, rfl, -⟩ := List.lookup_eq_some_iff.mp found
      exact falls (a, body) (by simp) t mem name
    induction leads with
    | single h => exact refers h
    | tail _ h ih => exact Nat.lt_trans (refers h) ih
  exact fun name leads => Nat.lt_irrefl _ (descends leads)

/-- The macros lead to the names that are produced inside of them, as they do to the names that are
expanded there. -/
theorem Expands.leads {out : List Traced} (h : m.Expands inside ts out)
    (before : ∀ t ∈ ts, t.kind = .ident → ∀ outer ∈ inside,
      Relation.TransGen m.Refers outer t.text) :
    ∀ u ∈ out, u.token.kind = .ident →
    ∀ outer ∈ u.inside, Relation.TransGen m.Refers outer u.token.text := by
  induction h with
  | nil => exact List.forall_mem_nil _
  | kept _ _ ih =>
    obtain ⟨first, others⟩ := List.forall_mem_cons.mp before
    exact List.forall_mem_cons.mpr ⟨first, ih others⟩
  | @replaced inside t _ body _ _ name _ found _ _ ihWithin ih =>
    obtain ⟨first, others⟩ := List.forall_mem_cons.mp before
    refine List.forall_mem_append.mpr ⟨ihWithin fun u placed isName => ?_, ih others⟩
    obtain ⟨v, inBody, moved⟩ := exists_of_mem_place placed
    rw [moved] at isName ⊢
    have refers : m.Refers t.text v.text := ⟨body, found, v, inBody, isName, rfl⟩
    exact List.forall_mem_cons.mpr ⟨.single refers, fun outer mem =>
      (first name outer mem).tail refers⟩

/-- Where no macro leads to itself, none is left standing. -/
theorem Acyclic.isDefined_of_mem_expand (acyclic : m.Acyclic) (t : Token) :
    ∀ u ∈ m.expand t, u.kind = .ident → m.isDefined u.text = false := by
  obtain ⟨out, expands, eq⟩ := exists_expands m [] [t]
  rw [without_nil, List.flatMap_singleton] at eq
  rw [← eq]
  refine List.forall_mem_map.mpr fun u mem name => Bool.eq_false_iff.mpr fun defined => ?_
  have itself := expands.mem_inside u mem name defined
  have leads := expands.leads (fun _ _ _ => List.forall_mem_nil _) u mem name
  exact acyclic u.token.text (leads u.token.text itself)

end BareC.Macros
