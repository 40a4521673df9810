import BareC.Proofs.Grammar.Slots
import BareC.Proofs.Semantics.Statements

/-!
# Code of functions

A function does what calls of it do: it opens its frame, its body runs, and it returns to where it
was called from with everything above the stack pointer as it was. That the functions it calls do so
too is an induction on the fuel of the evaluator, each call being given less than its caller.

The induction on the fuel is what makes recursion of the source possible without any order on its
functions. A call of a name that is defined twice is a call of the last definition, and the
evaluator is told the same. Calls that do not return have no evaluation and are not covered.
-/

namespace BareC

open Assembly

namespace Linked

variable {η : Type} {C : Linked η} {F : Frame} {slots : Nat → Option Word} {i j n fuel : Nat}
  {m : Machine η} {exits : Exits} {flow : Flow}

/-- At the end of its body a function has its result in `a0`: what was returned, or zero. -/
theorem arrives_result {v : Word} {slots : Nat → Option Word}
    (leads : C.Leads F { ret := .inner n } j flow slots m) (result : flow.result? = some v)
    (placed : C.whole.Placed j (loadConst a0 0 ++ [.mark (.inner n)])) :
    ∃ m', C.Arrives F 0 m (j + (loadConst a0 0).size) 0 slots m' ∧ m'.regs[Reg.a0] = v := by
  rw [placed_append, placed_mark] at placed
  obtain ⟨load, ret, -⟩ := placed
  cases flow with
  | next =>
    cases result
    obtain ⟨m₁, first, -⟩ := leads j rfl
    obtain ⟨m₂, second, value⟩ :=
      Machine.path_loadConst (h := C.handler) first.frame first.at_ 0 load
    exact ⟨m₂, first.next second.reaches (Nat.le_refl _), value⟩
  | returned u =>
    cases result
    obtain ⟨m₁, arrives, value⟩ := leads _ ret
    exact ⟨m₁, arrives, value _ rfl⟩
  | broke => cases result
  | continued => cases result

/-- The slots of a function at the beginning of its body. -/
theorem argument_slots {args : List Word} {params : Nat} (few : params ≤ Grammar.maxParameters)
    (length : args.length = params) {regs : Registers}
    (passed : ∀ k (hk : k < Grammar.maxParameters) w, args[k]? = some w →
      regs[Machine.argumentReg k hk] = w) :
    (fun s => if hs : s < params then
      some regs[Machine.argumentReg s (Nat.lt_of_lt_of_le hs few)] else none) = (args[·]?) := by
  funext s
  by_cases hs : s < params
  · have eq : args[s]? = some args[s] := List.getElem?_eq_getElem (length ▸ hs)
    rw [dif_pos hs, passed s (Nat.lt_of_lt_of_le hs few) _ eq, eq]
  · rw [dif_neg hs, List.getElem?_eq_none (by omega)]

/-- A function that is called with its arguments in their registers and enough stack returns its
value, and has left alone all that is above the stack pointer. -/
theorem returns {f : Function} (sound : f.Sound fun slots => Expr.Within slots) {args : List Word}
    {v : Word} {bytes stack r : Nat} (eval : f.eval C.call fuel args = some (v, bytes))
    (placed : C.whole.Placed i (f.codeFrom C.known n)) (at_ : m.At i)
    (carries : m.Carries C.whole.link) (sp : m.regs[Reg.sp] = BitVec.ofNat 32 stack)
    (ra : m.regs[Reg.ra] = BitVec.ofNat 32 (4 * r))
    (passed : ∀ k (hk : k < Grammar.maxParameters) w, args[k]? = some w →
      m.regs[Machine.argumentReg k hk] = w)
    (room : 4 * C.whole.link.length + bytes ≤ stack) (stack_le : stack ≤ C.top)
    (top_le : C.top ≤ m.memory.size) (size_lt : m.memory.size < 2 ^ 31) :
    ∃ m', Machine.Reaches C.handler m m' ∧ m'.At r ∧ m'.Carries C.whole.link ∧
      m'.regs[Reg.sp] = BitVec.ofNat 32 stack ∧ m'.regs[Reg.s0] = m.regs[Reg.s0] ∧
      m'.regs[Reg.a0] = v ∧ m.memory.SameOn (stack ≤ ·) m'.memory := by
  have length : args.length = f.params := by
    unfold Function.eval at eval
    split at eval
    next => cases eval
    next length => exact Decidable.not_not.mp length
  rw [Function.eval, if_neg (Decidable.not_not.mpr length)] at eval
  obtain ⟨⟨flow, a⟩, exec, rest⟩ := Option.bind_eq_some_iff.mp eval
  obtain ⟨u, result, eq⟩ := Option.bind_eq_some_iff.mp rest
  cases eq
  let F : Frame := ⟨stack - 8, f.locals⟩
  have eight : F.base + 8 = stack := by simp only [F]; omega
  have room₁ : 4 * C.whole.link.length + frameSize F.locals + a.deepest ≤ F.base := by
    simp only [F]; omega
  have room₂ := Nat.le_trans (Nat.le_add_right ..) room₁
  rw [Function.codeFrom, prologue_eq, epilogue_eq] at placed
  simp only [placed_append, size_append, ← Nat.add_assoc] at placed
  obtain ⟨⟨⟨⟨⟨⟨placedSave, placedOpen⟩, placedStore⟩, placedBody⟩, placedLoad⟩, ret, -⟩,
    placedClose, placedReturn, -⟩ := placed
  -- The frame is opened and the arguments are in their slots.
  obtain ⟨m₁, way₁, at₁, carries₁, sp₁, s0₁, others₁, saved_ra, saved_s0, same₁⟩ :=
    Machine.path_saveFrame (h := C.handler) carries at_ placedSave (eight ▸ sp)
      (Nat.le_trans (Nat.le_add_right ..) room₂) (eight ▸ stack_le) top_le size_lt
  have base_le : F.base ≤ C.top := by omega
  obtain ⟨m₂, way₂, at₂, frame₂, others₂, memory₂⟩ := Machine.path_openFrame (h := C.handler)
    carries₁ at₁ (F := F) placedOpen sp₁ s0₁ room₂ base_le (same₁.size ▸ top_le)
    (same₁.size ▸ size_lt) sound.locals_le
  obtain ⟨m₃, arrives₃, -⟩ := Machine.path_storeParams (h := C.handler) f.params sound.params_le
    sound.params_le_locals frame₂ at₂ placedStore
  have passed₂ : ∀ k (hk : k < Grammar.maxParameters) w, args[k]? = some w →
      m₂.regs[Machine.argumentReg k hk] = w := by
    intro k hk w hw
    have ne_sp := Machine.ne_argumentReg (r := Reg.sp) (by decide) hk
    have ne_s0 := Machine.ne_argumentReg (r := Reg.s0) (by decide) hk
    rw [others₂ _ (Ne.symm ne_sp), others₁ _ (Ne.symm ne_sp) (Ne.symm ne_s0)]
    exact passed k hk w hw
  rw [argument_slots sound.params_le length passed₂] at arrives₃
  -- The body runs, and the result is loaded.
  have leads := executesAll f.body sound.exprs sound.declared placedBody exec arrives₃.frame
    arrives₃.at_ room₁
  obtain ⟨m₄, arrives₄, value₄⟩ := arrives_result leads result
    (placed_append.mpr ⟨placedLoad, ret, trivial⟩)
  have inside := arrives₃.reaches.next arrives₄ (Nat.le_refl _)
  -- The frame is closed by what was saved above it.
  obtain ⟨m₅, way₅, at₅, carries₅, sp₅, ra₅, s0₅, value₅, memory₅⟩ :=
    Machine.path_closeFrame (h := C.handler) arrives₄.frame arrives₄.at_ placedClose
      (eight ▸ stack_le)
  have above : m₁.memory.SameOn (F.base ≤ ·) m₄.memory := by
    rw [← memory₂]
    exact inside.kept.mono fun a ha => .inl ha
  have ra₅' : m₅.regs[Reg.ra] = BitVec.ofNat 32 (4 * r) := by
    rw [ra₅, above.wordAt fun a low _ => Nat.le_trans (Nat.le_add_right ..) low, saved_ra, ra]
  have jump := carries₅.does_jalr (h := C.handler) at₅ placedReturn
  refine ⟨_, way₁.reaches.trans (way₂.reaches.trans (inside.way.trans
    (way₅.reaches.trans (.one jump.step)))), ?_, carries₅.linked, ?_, ?_, ?_, ?_⟩
  · show m₅.regs[Reg.ra] &&& ~~~1 = _
    rw [ra₅', Machine.four_mul_even]
  · exact (Registers.getElem_write_of_ne (by decide)).trans (eight ▸ sp₅)
  · refine (Registers.getElem_write_of_ne (by decide)).trans ?_
    rw [s0₅, above.wordAt fun a low _ => low, saved_s0]
  · exact (Registers.getElem_write_of_ne (by decide)).trans (value₅.trans value₄)
  · have same := above.mono fun a (ha : stack ≤ a) => Nat.le_trans (Nat.sub_le ..) ha
    rw [← memory₅] at same
    exact (eight ▸ same₁).trans same

end Linked

namespace Program

/-- The code of a unit does what calls of its functions do. -/
theorem runsCalls {p : Program} (sound : ∀ f ∈ p.functions, f.Sound fun slots => Expr.Within slots)
    (compact : p.assembly.Compact) {η : Type} (h : TrapHandler η) (top fuel : Nat) :
    RunsCalls h p.assembly top (p.functions.map (·.name)) (p.eval fuel) := by
  induction fuel with
  | zero =>
    intro name args v bytes called
    cases called
  | succ fuel ih =>
    intro name args v bytes called
    simp only [eval, Option.bind_eq_bind, Option.bind_eq_some_iff] at called
    obtain ⟨f, last, called⟩ := called
    obtain ⟨rfl, fs, gs, functions, -⟩ := functions_eq_of_lastDefinition? last
    have mem : f ∈ p.functions := functions ▸ List.mem_append_right fs List.mem_cons_self
    obtain ⟨entry, n, place, placed⟩ := placed_lastDefinition last
    let C : Linked η := ⟨h, p.assembly, top, p.functions.map (·.name), p.eval fuel, compact, ih⟩
    refine ⟨List.mem_map_of_mem mem, entry, place, ?_⟩
    intro m stack r at_ carries sp ra passed room stack_le top_le size_lt
    exact Linked.returns (C := C) (sound f mem) called placed at_ carries sp ra passed room stack_le
      top_le size_lt

end Program

end BareC
