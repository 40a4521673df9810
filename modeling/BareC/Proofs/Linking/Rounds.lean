import BareC.Syntax.Calls
import Mathlib.Logic.Function.Iterate

/-!
# Rounds of linking

Linking repeats one round: every function that calls something without a target becomes a
diagnostic. This module says what a round does to an item and to the list of functions, and how the
rounds add up. What holds of a unit and is kept by a round holds of the linked unit, and a round
leaves the linked unit as it is.

The number of functions goes down in every round that changes anything, and linking goes on as long
as it does, so the last round changes nothing (`checked_eq_self`). Which functions are left is not
characterised here; `Greatest` does that.
-/

namespace BareC

/-! ## Items of a unit -/

namespace Item

@[simp]
theorem function?_function (f : Function) : (Item.function f).function? = some f := rfl

@[simp]
theorem function?_error (d : Diagnostic) : (Item.error d).function? = none := rfl

theorem function?_eq_some {item : Item} {f : Function} :
    item.function? = some f ↔ item = .function f := by
  cases item with
  | function g => simp
  | error d => simp

@[simp]
theorem error?_function (f : Function) : (Item.function f).error? = none := rfl

@[simp]
theorem error?_error (d : Diagnostic) : (Item.error d).error? = some d := rfl

theorem error?_eq_some {item : Item} {d : Diagnostic} :
    item.error? = some d ↔ item = .error d := by
  cases item with
  | function f => simp
  | error e => simp

end Item

namespace Program

/-- A function of a program is one of its items. -/
theorem mem_functions {p : Program} {f : Function} : f ∈ p.functions ↔ .function f ∈ p.items := by
  simp only [functions, List.mem_filterMap, Item.function?_eq_some, exists_eq_right]

/-! ## One round -/

/-- Every call of the function has a target. -/
def Resolves (a : Arities) (f : Function) : Prop :=
  ∀ call ∈ f.calls, a.fault? call = none

/-- A function stays if its calls are resolved, and is a diagnostic on its line otherwise. -/
theorem checkItem_function (a : Arities) (f : Function) :
    (Resolves a f ∧ checkItem a (.function f) = .function f) ∨
      ¬Resolves a f ∧ ∃ fault, checkItem a (.function f) = .error ⟨fault, f.line⟩ := by
  rw [checkItem, Resolves, ← List.findSome?_eq_none_iff]
  cases found : f.calls.findSome? a.fault? with
  | none => exact .inl ⟨rfl, rfl⟩
  | some fault => exact .inr ⟨nofun, fault, rfl⟩

/-- A function is left by a round if its calls resolve. -/
theorem checkItem_eq_function {a : Arities} {item : Item} {f : Function} :
    checkItem a item = .function f ↔ item = .function f ∧ Resolves a f := by
  cases item with
  | error d => simp [checkItem]
  | function g =>
    obtain ⟨resolves, stays⟩ | ⟨fails, fault, gone⟩ := checkItem_function a g
    · rw [stays]
      constructor
      · rintro ⟨⟩
        exact ⟨rfl, resolves⟩
      · exact And.left
    · rw [gone]
      constructor
      · nofun
      · rintro ⟨⟨⟩, resolves⟩
        exact absurd resolves fails

/-- The functions left by a round are those whose calls resolve among all of them. -/
theorem mem_functions_checkCalls {p : Program} {f : Function} :
    f ∈ p.checkCalls.functions ↔ f ∈ p.functions ∧ Resolves p.arities f := by
  rw [mem_functions, mem_functions, checkCalls, List.mem_map]
  simp only [checkItem_eq_function]
  constructor
  · rintro ⟨item, mem, rfl, resolves⟩
    exact ⟨mem, resolves⟩
  · rintro ⟨mem, resolves⟩
    exact ⟨_, mem, rfl, resolves⟩

section Length

variable (a : Arities)

/-- A round adds no function. -/
private theorem length_checked_le (items : List Item) :
    ((items.map (checkItem a)).filterMap Item.function?).length ≤
      (items.filterMap Item.function?).length := by
  induction items with
  | nil => exact Nat.le_refl _
  | cons item items ih =>
    cases item with
    | error d => exact ih
    | function f =>
      obtain ⟨-, stays⟩ | ⟨-, fault, gone⟩ := checkItem_function a f
      · rw [List.map_cons, stays]
        exact Nat.succ_le_succ ih
      · rw [List.map_cons, gone]
        exact Nat.le_succ_of_le ih

/-- A round that takes no function changes nothing. -/
private theorem checked_eq_self {items : List Item} (h : (items.filterMap Item.function?).length ≤
    ((items.map (checkItem a)).filterMap Item.function?).length) :
    items.map (checkItem a) = items := by
  induction items with
  | nil => rfl
  | cons item items ih =>
    cases item with
    | error d => exact congrArg (.error d :: ·) (ih h)
    | function f =>
      obtain ⟨-, stays⟩ | ⟨-, fault, gone⟩ := checkItem_function a f
      · rw [List.map_cons, stays] at h ⊢
        exact congrArg (.function f :: ·) (ih (Nat.le_of_succ_le_succ h))
      · rw [List.map_cons, gone] at h
        exact absurd (length_checked_le a items) (Nat.not_le_of_lt h)

end Length

/-- A round in which no function is lost changes nothing. -/
theorem checkCalls_eq_self {p : Program} (h : p.functions.length ≤ p.checkCalls.functions.length) :
    p.checkCalls = p :=
  congrArg Program.mk (checked_eq_self p.arities h)

/-! ## All rounds -/

/-- What holds of a unit and is kept by every round holds when it is linked. -/
theorem link_induction {motive : Program → Prop} {p : Program} (start : motive p)
    (round : ∀ q, motive q → motive q.checkCalls) : motive p.link := by
  fun_induction link p with
  | case1 p q fewer ih => exact ih (round p start)
  | case2 p q same => exact start

/-- Linking ends with a unit that one more round leaves as it is. -/
theorem checkCalls_link (p : Program) : p.link.checkCalls = p.link := by
  fun_induction link p with
  | case1 p q fewer ih => exact ih
  | case2 p q same => exact checkCalls_eq_self (Nat.le_of_not_lt same)

/-- If a round leaves a unit as it is, then so does linking. -/
theorem link_eq_of_checkCalls_eq {p : Program} (h : p.checkCalls = p) : p.link = p := by
  rw [link]
  simp only [h, Nat.lt_irrefl, if_false]

/-- Linking keeps the number of items. -/
theorem length_items_link (p : Program) : p.link.items.length = p.items.length :=
  link_induction (motive := fun q => q.items.length = p.items.length) rfl
    fun _ same => (List.length_map _).trans same

/-- A function that linking leaves was there before. -/
theorem mem_functions_of_link {p : Program} {f : Function} (h : f ∈ p.link.functions) :
    f ∈ p.functions :=
  link_induction (motive := fun q => ∀ f ∈ q.functions, f ∈ p.functions) (fun _ mem => mem)
    (fun _ ih f mem => ih f (mem_functions_checkCalls.mp mem).1) f h

/-- Linking is any number of rounds, once there are enough. -/
theorem link_eq_iterate (p : Program) : ∃ n, ∀ k, n ≤ k → checkCalls^[k] p = p.link := by
  fun_induction link p with
  | case1 p q fewer ih =>
    obtain ⟨n, rounds⟩ := ih
    refine ⟨n + 1, fun k le => ?_⟩
    obtain ⟨k, rfl⟩ : ∃ j, k = j + 1 := ⟨k - 1, by omega⟩
    exact rounds k (Nat.le_of_succ_le_succ le)
  | case2 p q same =>
    refine ⟨0, fun k _ => ?_⟩
    exact Function.iterate_fixed (checkCalls_eq_self (Nat.le_of_not_lt same)) k

end Program

end BareC
