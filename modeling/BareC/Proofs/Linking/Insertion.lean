import BareC.Proofs.Linking.Rounds

/-!
# Items that nobody needs

Two units are compared that are alike but for one item, which is not a function that is called in
the rest. Linking does the same to both of them: round by round, each call of the rest has the same
target, or none, in the one as in the other. What becomes of the item itself makes no difference to
the rest.

`Without` is the relation between the two units, with the place of the item in it, and a round keeps
it. The item may be a function that is called by itself, or a diagnostic; and the other items may be
anything, also functions that do not survive.
-/

namespace BareC

namespace Program

/-- No function among the items calls anything of this name. -/
def Uncalled (name : String) (items : List Item) : Prop :=
  ∀ f, .function f ∈ items → ∀ call ∈ f.calls, call.1 ≠ name

/-- The second unit is the first one without its item in place `n`, which nobody calls. -/
inductive Without (n : Nat) (item : Item) : (p q : Program) → Prop
  | intro {front behind} : front.length = n →
    (∀ f, item = .function f → Uncalled f.name (front ++ behind)) →
      Without n item ⟨front ++ item :: behind⟩ ⟨front ++ behind⟩

/-! ## One round -/

/-- An item of another name does not change the arity that is found. -/
theorem lookup_arities_insert {front behind : List Item} {item : Item} {name : String}
    (other : ∀ f, item = .function f → name ≠ f.name) :
    (arities ⟨front ++ item :: behind⟩).lookup name = (arities ⟨front ++ behind⟩).lookup name := by
  cases item with
  | error d => simp [arities, functions, List.filterMap_cons]
  | function f =>
    have ne : (name == f.name) = false := beq_eq_false_iff_ne.mpr (other f rfl)
    simp [arities, functions, List.lookup_append, List.lookup_cons, ne]

/-- A round looks at the targets of calls and at nothing else. -/
theorem checkItem_congr {a a' : Arities} {item : Item}
    (h : ∀ f, item = .function f → ∀ call ∈ f.calls, a.lookup call.1 = a'.lookup call.1) :
    checkItem a item = checkItem a' item := by
  cases item with
  | error d => rfl
  | function f =>
    have same : f.calls.findSome? a.fault? = f.calls.findSome? a'.fault? := by
      have lookup := h f rfl
      generalize f.calls = calls at lookup
      induction calls with
      | nil => rfl
      | cons call calls ih =>
        obtain ⟨first, others⟩ := List.forall_mem_cons.mp lookup
        rw [List.findSome?_cons, List.findSome?_cons, ih others, Arities.fault?,
          Arities.fault?, first]
    rw [checkItem, checkItem, same]

namespace Without

variable {n : Nat} {item : Item} {p q : Program}

/-- A round of the check keeps two programs that differ in an item so. -/
theorem checkCalls (h : Without n item p q) :
    Without n (checkItem p.arities item) p.checkCalls q.checkCalls := by
  obtain @⟨front, behind, length, uncalled⟩ := h
  have same : ∀ i ∈ front ++ behind,
      checkItem (arities ⟨front ++ item :: behind⟩) i =
        checkItem (arities ⟨front ++ behind⟩) i := by
    rintro i mem
    refine checkItem_congr fun g eq call hcall => lookup_arities_insert fun f isFunction => ?_
    exact uncalled f isFunction g (eq ▸ mem) call hcall
  obtain ⟨sameFront, sameBehind⟩ := List.forall_mem_append.mp same
  simp only [Program.checkCalls, List.map_append, List.map_cons]
  rw [← List.map_congr_left sameFront, ← List.map_congr_left sameBehind]
  refine .intro (by rw [List.length_map, length]) fun f eq g mem => ?_
  rw [← List.map_append] at mem
  obtain ⟨i, mem, eq'⟩ := List.mem_map.mp mem
  rw [(checkItem_eq_function.mp eq').1] at mem
  exact uncalled f (checkItem_eq_function.mp eq).1 g mem

/-! ## All rounds -/

/-- As `Without.checkCalls`, for all rounds. -/
theorem link (h : Without n item p q) : ∃ item', Without n item' p.link q.link := by
  obtain ⟨i, roundsP⟩ := link_eq_iterate p
  obtain ⟨j, roundsQ⟩ := link_eq_iterate q
  have rounds :
      ∀ k, ∃ item', Without n item' (Program.checkCalls^[k] p) (Program.checkCalls^[k] q) := by
    intro k
    induction k with
    | zero => exact ⟨item, h⟩
    | succ k ih =>
      obtain ⟨item', h⟩ := ih
      rw [Function.iterate_succ_apply', Function.iterate_succ_apply']
      exact ⟨_, h.checkCalls⟩
  -- The units may need different numbers of rounds, and more than are needed change nothing.
  have enough := rounds (max i j)
  rw [roundsP _ (Nat.le_max_left i j), roundsQ _ (Nat.le_max_right i j)] at enough
  exact enough

/-- Where the item stands, and what is around it. -/
theorem items (h : Without n item p q) : ∃ front behind, front.length = n ∧
    p.items = front ++ item :: behind ∧ q.items = front ++ behind := by
  obtain @⟨front, behind, length, -⟩ := h
  exact ⟨front, behind, length, rfl, rfl⟩

/-- The item that only the first program has stands in its place there. -/
theorem getElem? (h : Without n item p q) : p.items[n]? = some item := by
  obtain ⟨front, behind, rfl, items, -⟩ := h.items
  simp [items]

/-- A diagnostic is no function. -/
theorem functions_eq {d : Diagnostic}
    (h : Without n (.error d) p q) : p.functions = q.functions := by
  obtain @⟨front, behind, -, -⟩ := h
  simp [functions, List.filterMap_cons]

end Without

end Program

end BareC
