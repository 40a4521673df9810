import BareC.Proofs.Grammar.Units

/-!
# Slots stay inside frames

No expression of a unit names a slot that its function does not have, and no call has more arguments
than there are registers to pass them in. The generator relies on both without checking either.

The property is that of `Grammar/Expressions` with a bound on the slots, and it grows with the
bound, as it has to for statements in which later declarations follow. The bound on arguments is the
limit of the parser, which is the number of registers for them.

Nothing is said about slots that are declared and never named, nor about the order in which a slot
is written and read.
-/

namespace BareC

mutual

/-- The expression uses slots below `slots` only, and its calls pass their arguments in registers.
-/
def Expr.Within (slots : Nat) : Expr → Prop
  | .num _ => True
  | .var slot => slot < slots
  | .assign slot value => slot < slots ∧ value.Within slots
  | .unary _ operand => operand.Within slots
  | .binary _ left right | .logicalAnd left right | .logicalOr left right =>
    left.Within slots ∧ right.Within slots
  | .call _ args => args.length ≤ Grammar.maxParameters ∧ ArgsWithin slots args

def ArgsWithin (slots : Nat) : List Expr → Prop
  | [] => True
  | e :: es => e.Within slots ∧ ArgsWithin slots es

end

/-- Arguments are within the slots where each of them is. -/
theorem argsWithin_iff {slots : Nat} {args : List Expr} :
    ArgsWithin slots args ↔ ∀ e ∈ args, e.Within slots := by
  induction args with
  | nil => simp [ArgsWithin]
  | cons e es ih => simp [ArgsWithin, ih]

mutual

/-- An expression within some slots is within more of them. -/
theorem Expr.within_mono {slots slots' : Nat} (h : slots ≤ slots') :
    (e : Expr) → e.Within slots → e.Within slots'
  | .num _, _ => trivial
  | .var _, hs => Nat.lt_of_lt_of_le hs h
  | .assign _ value, ⟨hs, hv⟩ => ⟨Nat.lt_of_lt_of_le hs h, value.within_mono h hv⟩
  | .unary _ operand, ho => operand.within_mono h ho
  | .binary _ left right, ⟨hl, hr⟩ => ⟨left.within_mono h hl, right.within_mono h hr⟩
  | .logicalAnd left right, ⟨hl, hr⟩ => ⟨left.within_mono h hl, right.within_mono h hr⟩
  | .logicalOr left right, ⟨hl, hr⟩ => ⟨left.within_mono h hl, right.within_mono h hr⟩
  | .call _ args, ⟨few, ha⟩ => ⟨few, argsWithin_mono h args ha⟩

/-- As `Expr.within_mono`, for arguments. -/
theorem argsWithin_mono {slots slots' : Nat} (h : slots ≤ slots') :
    (es : List Expr) → ArgsWithin slots es → ArgsWithin slots' es
  | [], _ => trivial
  | e :: es, ⟨he, hes⟩ => ⟨e.within_mono h he, argsWithin_mono h es hes⟩

end

namespace Grammar

/-- A slot that is found was declared under that name. -/
theorem mem_of_lookup {vars : Variables} {name : String} {slot : Nat}
    (h : vars.lookup name = some slot) : (name, slot) ∈ vars := by
  obtain ⟨a, b, eq, -⟩ := List.lookup_eq_some_iff.mp h
  simp [eq]

variable {Ahead : Token → Prop} {slots : Nat}

/-- Slots below a bound are a property of the grammar: a production reads only variables in scope.
-/
theorem grammarProperty_within {vars : Variables} (below : ∀ v ∈ vars, v.2 < slots) :
    GrammarProperty Ahead vars (fun _ _ => Expr.Within slots) (fun _ _ => Expr.Within slots) where
  operand nesting height :=
    { inner := fun e ⟨_, _, _, _, he⟩ => he
      num := fun _ => trivial
      var := fun _ _ found => below _ (mem_of_lookup found)
      call := fun _ _ _ _ few ha => ⟨few, argsWithin_iff.mpr fun e mem =>
        let ⟨_, _, _, _, he⟩ := ha e mem
        he⟩
      unary := fun _ _ ⟨_, _, _, _, he⟩ => he
      stepped := fun _ _ ⟨_, _, _, _, hs⟩ => ⟨hs, hs, trivial⟩
      stepAfter := fun _ _ _ hs => ⟨⟨hs, hs, trivial⟩, trivial⟩ }
  weaken _ _ _ he := he
  binary _ _ _ height ho :=
    reads_binary (fun _ _ hl hr => ⟨⟨hl, hr⟩, ⟨hl, hr⟩, fun _ => ⟨hl, hr⟩⟩) ho
      (fun _ mem => mem) height
  assign := by
    rintro _ _ stored mem slot e hs ⟨_, _, _, _, he⟩
    have all : ∀ stored ∈ assignments, (stored.2 slot e).Within slots := by
      simp only [Expr.Within] at hs
      simp [assignments, Expr.Within, hs, he]
    exact ⟨hs, all stored mem⟩

/-- Every expression of a program stays within the slots of its scope. -/
theorem expressionProperty_within : ExpressionProperty Ahead fun slots => Expr.Within slots where
  mono := ⟨fun h he => Expr.within_mono h _ he⟩
  expression _ _ nesting height below _ _ :=
    (grammarProperty_within below).reads_expression nesting height

end Grammar

/-- Every function of a unit keeps inside its frame. -/
theorem Program.within_of_mem_functions {ts : List Token} {f : Function}
    (h : f ∈ (ofTokens ts).functions) : f.Sound fun slots => Expr.Within slots :=
  sound_of_mem_functions Grammar.expressionProperty_within h

end BareC
