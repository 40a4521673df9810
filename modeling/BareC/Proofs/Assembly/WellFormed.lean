import BareC.Proofs.Assembly.Ranges
import BareC.Proofs.Linking.Greatest
import BareC.Token.Scan

/-!
# Functions are fit for the generator

What the parser lets through needs no check behind it. The slots, the declarations, the jumps and
the calls of a function are as the generator takes them to be, and so nothing that the generator
puts into an instruction is lost in it.

The clauses are those of `Function.WellFormed`, and they follow from what reading a unit promises
(`Function.Sound`), which linking does not take away: it only takes functions. So they hold of the
functions of any token list, also of one that has errors elsewhere.

They are promises about the tree and about its drafts. That the code does what the tree means is not
one of them, and neither is that there is room for it: both are asked for by name where they are
needed.
-/

namespace BareC

/-- What the generator takes for granted. -/
structure Function.WellFormed (f : Function) : Prop where
  params_le : f.params ≤ 8
  params_le_locals : f.params ≤ f.locals
  locals_le : f.locals ≤ 500
  var : ∀ slot, f.Has (.var slot) → slot < f.locals
  assign : ∀ slot value, f.Has (.assign slot value) → slot < f.locals
  call : ∀ name args, f.Calls name args → args.length ≤ 8
  /-- A declared slot is neither outside of the frame nor one of a parameter. -/
  decl : ∀ slot ∈ declaredByStmts f.body, f.params ≤ slot ∧ slot < f.locals
  /-- No slot is declared twice. -/
  once : (declaredByStmts f.body).Nodup
  /-- Every jump stands in the body of a loop. -/
  jumps : jumpsOutOfStmts f.body = false

/-! ## Every place of a tree -/

/-- Every part of an expression keeps inside the frame if the whole of it does. -/
theorem Expr.In.within {slots : Nat} {x e : Expr} (h : x.In e) (he : e.Within slots) :
    x.Within slots := by
  induction h with
  | self => exact he
  | assign _ ih => exact ih he.2
  | unary _ ih => exact ih he
  | binaryLeft _ ih | andLeft _ ih | orLeft _ ih => exact ih he.1
  | binaryRight _ ih | andRight _ ih | orRight _ ih => exact ih he.2
  | argument mem _ ih => exact ih (argsWithin_iff.mp he.2 _ mem)

namespace Function

variable {f : Function}

/-- Every expression that stands anywhere in a sound function keeps inside its frame. -/
theorem Has.within (sound : f.Sound fun slots => Expr.Within slots) {x : Expr} (h : f.Has x) :
    x.Within f.locals := by
  obtain ⟨s, mem, has⟩ := h
  obtain ⟨e, inside, h⟩ := has.exists_mem_exprs
  exact h.within (sound.exprs e (subset_exprsOfStmts mem inside))

/-- What the parser promises of a function is all that the generator takes for granted. -/
theorem Sound.wellFormed (sound : f.Sound fun slots => Expr.Within slots) : f.WellFormed where
  params_le := sound.params_le
  params_le_locals := sound.params_le_locals
  locals_le := sound.locals_le
  var _ h := h.within sound
  assign _ _ h := (h.within sound).1
  call _ _ h := (Has.within sound h).1
  decl slot mem := by
    rw [sound.slots] at mem
    exact ⟨(List.mem_range'_1.mp mem).1, sound.declared slot (sound.slots ▸ mem)⟩
  once := sound.slots ▸ List.nodup_range'
  jumps := sound.jumps

end Function

namespace Program

/-- Every function of a unit is well formed, whatever the unit was read from. Its code is the
encoding of drafts all of whose immediates and registers fit, and what passes its parameters and the
arguments of its calls are the eight registers for that. -/
theorem wellFormed_of_mem_functions {ts : List Token} {f : Function}
    (h : f ∈ (ofTokens ts).functions) :
    f.WellFormed ∧
      (∀ known n, ((f.code known).run n).1 = ((f.draft known).run n).1.map Draft.item ∧
        ∀ d ∈ ((f.draft known).run n).1, d.Fits) ∧
      ∀ i, (i < f.params ∨ ∃ name args, f.Calls name args ∧ i < args.length) →
        Assembly.argument i ∈ Assembly.argumentRegisters := by
  have sound := within_of_mem_functions h
  refine ⟨sound.wellFormed, fun known n => ⟨rfl, Function.drafts_fit sound known n⟩, ?_⟩
  · have passes {i} (less : i < Grammar.maxParameters) :
        Assembly.argument i ∈ Assembly.argumentRegisters :=
      List.mem_map_of_mem (List.mem_range.mpr less)
    rintro i (less | ⟨name, args, calls, less⟩)
    · exact passes (Nat.lt_of_lt_of_le less sound.params_le)
    · exact passes (Nat.lt_of_lt_of_le less (calls.within sound).1)

/-- A unit with a parameter, a variable, a loop with a jump out of it and a call. -/
def countingDown : List Token :=
  Token.ofSource "
    int down(int n) \x7b
      int old = n;
      while (1) \x7b if (n == 0) break; n = down(n - 1); \x7d
      return old;
    \x7d".toUTF8.toList

/-- The function that counts down is well formed, and its drafts fit. -/
theorem wellFormed_countingDown : ∃ f ∈ (ofTokens countingDown).functions,
    f.WellFormed ∧
      (∀ known n, ((f.code known).run n).1 = ((f.draft known).run n).1.map Draft.item ∧
        ∀ d ∈ ((f.draft known).run n).1, d.Fits) ∧
      ∀ i, (i < f.params ∨ ∃ name args, f.Calls name args ∧ i < args.length) →
        Assembly.argument i ∈ Assembly.argumentRegisters := by
  have read : ((ofTokens countingDown).function? "down").isSome := by decide +kernel
  obtain ⟨f, found⟩ := Option.isSome_iff_exists.mp read
  have mem : f ∈ (ofTokens countingDown).functions := List.mem_of_find?_eq_some found
  exact ⟨f, mem, wellFormed_of_mem_functions mem⟩

end Program

end BareC
