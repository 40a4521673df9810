import BareC.Proofs.Grammar.Slots
import BareC.Proofs.Linking.Places
import Mathlib.Order.Bounds.Basic
import Mathlib.Data.List.Forall2

/-!
# What linking leaves

A set of functions can stand by itself if every call in one of them names another of them with the
right number of parameters. Linking leaves the greatest such set, provided that the definitions of
one name agree on their parameters: no call without a target is left, and nothing is taken away that
could have stayed. Being the greatest, the set depends neither on the order of the items nor on that
of the rounds.

That the set is the greatest is shown from the two ends: what a set that can stand by itself holds
is never taken away by a round, and what is left when the rounds are over can stand by itself. Where
the definitions of one name disagree on their parameters, the one that a call is held against
depends on their order, and nothing is claimed.
-/

namespace BareC

namespace Program

/-! ## Targets -/

/-- All definitions of one name have the same number of parameters. -/
def SameArity (p : Program) : Prop :=
  ∀ f ∈ p.functions, ∀ g ∈ p.functions, f.name = g.name → f.params = g.params

instance (p : Program) : Decidable p.SameArity :=
  inferInstanceAs (Decidable
    (∀ f ∈ p.functions, ∀ g ∈ p.functions, f.name = g.name → f.params = g.params))

/-- What is read always agrees: a declaration with another number of parameters is refused. -/
theorem sameArity_read (ts : List Token) : (read ts).SameArity := by
  obtain ⟨declared, sound⟩ := sound_read Grammar.expressionProperty_within fun _ _ => trivial
  intro f hf g hg same
  have found := (sound f hf).2
  rw [same, (sound g hg).2] at found
  exact (Option.some.inj found).symm

/-- A round of the check keeps functions of one name at one arity. -/
theorem SameArity.checkCalls {p : Program} (h : p.SameArity) : p.checkCalls.SameArity :=
  fun f hf g hg => h f (mem_functions_checkCalls.mp hf).1 g (mem_functions_checkCalls.mp hg).1

/-- A name has an arity where a function defines it. -/
theorem mem_arities {p : Program} {name : String} {n : Nat} :
    (name, n) ∈ p.arities ↔ ∃ f ∈ p.functions, f.name = name ∧ f.params = n := by
  simp only [arities, List.mem_reverse, List.mem_map, Prod.mk.injEq]

/-- A call is resolved if and only if some function has its name and as many parameters. -/
theorem SameArity.fault?_eq_none {p : Program} (h : p.SameArity) {name : String} {n : Nat} :
    p.arities.fault? (name, n) = none ↔ ∃ g ∈ p.functions, g.name = name ∧ g.params = n := by
  rw [Arities.fault?]
  cases found : p.arities.lookup name with
  | none =>
    constructor
    · nofun
    · rintro ⟨g, mem, rfl, -⟩
      have absent := List.lookup_eq_none_iff.mp found _ (mem_arities.mpr ⟨g, mem, rfl, rfl⟩)
      exact absurd rfl (bne_iff_ne.mp absent)
  | some params =>
    obtain ⟨before, behind, eq, -⟩ := List.lookup_eq_some_iff.mp found
    have mem : (name, params) ∈ p.arities := by
      rw [eq]
      exact List.mem_append_right _ List.mem_cons_self
    obtain ⟨f, hf, rfl, rfl⟩ := mem_arities.mp mem
    simp only [ite_eq_left_iff, reduceCtorEq, imp_false, not_not]
    constructor
    · intro eq
      exact ⟨f, hf, rfl, eq⟩
    · rintro ⟨g, hg, name, rfl⟩
      exact h f hf g hg name.symm

/-! ## The greatest set -/

/-- The functions of `S` can be linked among themselves. -/
def Linkable (p : Program) (S : Set Function) : Prop :=
  ∀ f ∈ S, f ∈ p.functions ∧
    ∀ name args, f.Calls name args → ∃ g ∈ S, g.name = name ∧ g.params = args.length

/-- A round loses no function of a set that can be linked. -/
theorem Linkable.checkCalls {p : Program} (same : p.SameArity) {S : Set Function}
    (h : p.Linkable S) : p.checkCalls.Linkable S := by
  intro f hf
  obtain ⟨mem, targets⟩ := h f hf
  refine ⟨mem_functions_checkCalls.mpr ⟨mem, fun call hcall => ?_⟩, targets⟩
  obtain ⟨args, eq, calls⟩ := Function.mem_calls.mp hcall
  obtain ⟨g, hg, name, params⟩ := targets call.1 args calls
  exact same.fault?_eq_none.mpr ⟨g, (h g hg).1, name, params.trans eq⟩

/-- As `SameArity.checkCalls`, for all rounds. -/
theorem SameArity.link {p : Program} (same : p.SameArity) : p.link.SameArity :=
  link_induction same fun _ => SameArity.checkCalls

/-- The functions that are left are the greatest set of functions whose calls resolve within it. -/
theorem isGreatest_functions_link {p : Program} (same : p.SameArity) :
    IsGreatest {S | p.Linkable S} {f | f ∈ p.link.functions} := by
  constructor
  · intro f hf
    refine ⟨mem_functions_of_link hf, fun name args calls => ?_⟩
    have kept : f ∈ p.link.checkCalls.functions := (checkCalls_link p).symm ▸ hf
    have resolved :=
      (mem_functions_checkCalls.mp kept).2 _ (Function.mem_calls.mpr ⟨args, rfl, calls⟩)
    exact same.link.fault?_eq_none.mp resolved
  · intro S linkable f hf
    -- Before every round the set can be linked, and so the round takes none of it.
    have stays : p.link.SameArity ∧ p.link.Linkable S :=
      link_induction (motive := fun q => q.SameArity ∧ q.Linkable S) ⟨same, linkable⟩
        fun q ⟨same, linkable⟩ => ⟨same.checkCalls, linkable.checkCalls same⟩
    exact (stays.2 f hf).1

/-- Whether functions can be linked does not depend on the order of the items. -/
theorem linkable_congr {p q : Program} (h : q.items.Perm p.items) {S : Set Function} :
    q.Linkable S ↔ p.Linkable S := by
  simp only [Linkable, mem_functions, h.mem_iff]

/-! ## Items -/

/-- What is left of an item if only the functions of `S` stay. -/
inductive Left (S : Set Function) : (before after : Item) → Prop
  | error (d) : Left S (.error d) (.error d)
  | stays {f} : f ∈ S → Left S (.function f) (.function f)
  | demoted {f} (fault) : f ∉ S → Left S (.function f) (.error ⟨fault, f.line⟩)

/-- One more round leaves only the functions that it resolves. -/
theorem Left.checkItem {q : Program} {i j : Item} (h : Left {f | f ∈ q.functions} i j) :
    Left {f | f ∈ q.checkCalls.functions} i (Program.checkItem q.arities j) := by
  cases h with
  | error d => exact .error d
  | demoted fault gone => exact .demoted fault fun mem => gone (mem_functions_checkCalls.mp mem).1
  | @stays f mem =>
    obtain ⟨resolves, stays⟩ | ⟨fails, fault, gone⟩ := checkItem_function q.arities f
    · rw [stays]
      exact .stays (mem_functions_checkCalls.mpr ⟨mem, resolves⟩)
    · rw [gone]
      exact .demoted fault fun mem => fails (mem_functions_checkCalls.mp mem).2

/-- Linking leaves every error, and of every function the function or an error on its line. -/
theorem left_link (p : Program) :
    List.Forall₂ (Left {f | f ∈ p.link.functions}) p.items p.link.items := by
  refine link_induction
    (motive := fun q => List.Forall₂ (Left {f | f ∈ q.functions}) p.items q.items) ?_ ?_
  · refine List.forall₂_same.mpr fun item mem => ?_
    cases item with
    | error d => exact .error d
    | function f => exact .stays (mem_functions.mpr mem)
  · exact fun q h => List.forall₂_map_right_iff.mpr (h.imp fun _ _ => Left.checkItem)

/-- Linking leaves the greatest set of functions that can be linked among themselves: every item
stays in its place, the functions of the set and the diagnostics as they are and every other
function as a diagnostic. With the items in another order the same functions are left. -/
theorem link_leaves_greatest {p : Program} (same : p.SameArity) :
    ∃ S : Set Function, IsGreatest {S | p.Linkable S} S ∧
      (∀ f, f ∈ p.link.functions ↔ f ∈ S) ∧
      List.Forall₂ (Left S) p.items p.link.items ∧
      ∀ q : Program, q.items.Perm p.items → ∀ f, f ∈ q.link.functions ↔ f ∈ S := by
  refine ⟨_, isGreatest_functions_link same, fun f => Iff.rfl, left_link p, fun q perm f => ?_⟩
  have same' : q.SameArity := by
    simpa only [SameArity, mem_functions, perm.mem_iff] using same
  have greatest : IsGreatest {S | p.Linkable S} {f | f ∈ q.link.functions} := by
    simpa only [linkable_congr perm] using isGreatest_functions_link same'
  exact Set.ext_iff.mp (greatest.unique (isGreatest_functions_link same)) f

/-- A caller of a caller of something that is not there, and two functions that call each other. -/
def cascade : Program :=
  ⟨[.function
      { name := "outer", params := 0, locals := 0, line := 1
        body := [.expr (.call "inner" [.num 1])] },
    .function
      { name := "inner", params := 1, locals := 1, line := 2
        body := [.ret (some (.call "gone" []))] },
    .error ⟨.expectedType, 3⟩,
    .function
      { name := "even", params := 1, locals := 1, line := 4
        body := [.ret (some (.call "odd" [.binary .sub (.var 0) (.num 1)]))] },
    .function
      { name := "odd", params := 1, locals := 1, line := 5
        body := [.ret (some (.call "even" [.binary .sub (.var 0) (.num 1)]))] }]⟩

/-- A chain of calls in which the last does not resolve, so that every round takes one function. -/
theorem cascade_leaves_greatest : cascade.SameArity ∧
    ∃ S : Set Function, IsGreatest {S | cascade.Linkable S} S ∧
      (∀ f, f ∈ cascade.link.functions ↔ f ∈ S) ∧
      List.Forall₂ (Left S) cascade.items cascade.link.items ∧
      ∀ q : Program, q.items.Perm cascade.items → ∀ f, f ∈ q.link.functions ↔ f ∈ S :=
  have same : cascade.SameArity := by decide
  ⟨same, link_leaves_greatest same⟩

end Program

end BareC
