import BareC.Proofs.Grammar.Units

/-!
# How tall expressions get

The limit on the height of expressions counts the operators of a chain for the operands behind them,
not for the tree that they build. When a chain ends the height that it used up is given back, so the
ten levels of operators can each add a whole limit's worth of nodes above one operand, and a level
of nesting inside that operand can do it again. What the limits allow is therefore much more than
`maxHeight`: it is `tallest` of the nesting and the height that are left.

Both bounds, `tallestOperand` and `tallest`, are computed along the grammar, and the proof is that
they are a `GrammarProperty`: each production adds what it adds. That the limit itself is no bound
is shown by a unit in `Printing/Heights`, and there also how close to the bound a tree can come; no
claim is made that it is reached.
-/

namespace BareC

mutual

/-- The number of nodes on the longest path from the root. -/
def Expr.height : Expr → Nat
  | .num _ | .var _ => 1
  | .assign _ e | .unary _ e => e.height + 1
  | .binary _ l r | .logicalAnd l r | .logicalOr l r => max l.height r.height + 1
  | .call _ args => heightOfArgs args + 1

/-- The height of the tallest argument. -/
def heightOfArgs : List Expr → Nat
  | [] => 0
  | e :: es => max e.height (heightOfArgs es)

end

/-- The arguments are as tall as the tallest of them. -/
theorem heightOfArgs_le {args : List Expr} {n : Nat} :
    heightOfArgs args ≤ n ↔ ∀ e ∈ args, e.height ≤ n := by
  induction args with
  | nil => simp [heightOfArgs]
  | cons e es ih => simp only [heightOfArgs, Nat.max_le, ih, List.mem_cons, forall_eq_or_imp]

namespace Grammar

/-- The height of the tallest operand of a chain, for the nesting and the height that are left. A
variable that is stepped has four nodes on its longest path. Inside a call there can be a whole
expression again. -/
def tallestOperand : (nesting height : Nat) → Nat
  | nesting + 1, height + 1 => tallestOperand nesting height + levels.length * height + 1
  | _, _ => 4

/-- The height of the tallest expression: on each level the operand can be the first of a chain that
uses up all of the height. -/
def tallest (nesting height : Nat) : Nat :=
  tallestOperand nesting height + levels.length * height

/-- The bound on operands is at least what the least of them need. -/
theorem four_le_tallestOperand (nesting height : Nat) : 4 ≤ tallestOperand nesting height := by
  fun_induction tallestOperand nesting height with
  | case1 nesting height ih => omega
  | case2 => exact Nat.le_refl 4

/-- The bound on operands grows with the depth and the height left. -/
theorem tallestOperand_mono {nesting nesting' height height' : Nat} (hn : nesting' ≤ nesting)
    (hh : height' ≤ height) : tallestOperand nesting' height' ≤ tallestOperand nesting height := by
  induction nesting' generalizing nesting height height' with
  | zero => exact four_le_tallestOperand _ _
  | succ n ih =>
    cases height' with
    | zero => exact four_le_tallestOperand _ _
    | succ h =>
      obtain ⟨m, rfl⟩ : ∃ m, nesting = m + 1 := ⟨nesting - 1, by omega⟩
      obtain ⟨k, rfl⟩ : ∃ k, height = k + 1 := ⟨height - 1, by omega⟩
      have below := ih (Nat.le_of_succ_le_succ hn) (Nat.le_of_succ_le_succ hh)
      have chains := Nat.mul_le_mul_left levels.length (Nat.le_of_succ_le_succ hh)
      rw [tallestOperand, tallestOperand]
      omega

/-- As `tallestOperand_mono`, for expressions. -/
theorem tallest_mono {nesting nesting' height height' : Nat} (hn : nesting' ≤ nesting)
    (hh : height' ≤ height) : tallest nesting' height' ≤ tallest nesting height :=
  Nat.add_le_add (tallestOperand_mono hn hh) (Nat.mul_le_mul_left _ hh)

/-- A chain adds no more nodes above its first operand than there is height left. -/
theorem reads_binary_height {Ahead : Token → Prop} {body : Bool} {operand : Limited Expr} {n : Nat}
    {ls : List Level} {height : Nat}
    (ho : ∀ height', height' ≤ height →
      (operand height').Reads Ahead body true (fun _ => True) fun e => e.height ≤ n)
    (hls : ∀ level ∈ ls, level ∈ levels) :
    ∀ height', height' ≤ height →
      (binary operand ls height').Reads Ahead body true (fun _ => True)
        fun e => e.height ≤ n + ls.length * height := by
  induction ls with
  | nil =>
    intro height' le
    rw [List.length_nil, Nat.zero_mul, Nat.add_zero]
    exact ho height' le
  | cons level ls ih =>
    rw [List.forall_mem_cons] at hls
    intro height' le
    refine .bindTaken (ih hls.2 height' le) fun left hl => ?_
    have less : ∀ h, h < height' → (binary operand ls h).Reads Ahead body true (fun _ => True)
        fun e => e.height ≤ n + ls.length * height :=
      fun h lt => ih hls.2 h (Nat.le_trans (Nat.le_of_lt lt) le)
    -- What a chain has put above its first operand is what it has used up of the height.
    refine reads_chain
      (fun left e => left ≤ height' ∧ e.height + left ≤ n + ls.length * height + height')
      (free_of_mem_levels level hls.1) ?_ ?_ less ⟨Nat.le_refl _, by omega⟩
    · rintro left e ⟨-, he⟩
      rw [List.length_cons, Nat.succ_mul]
      omega
    · rintro op mem left l r ⟨hleft, hl⟩ hr
      rcases levels_cases level hls.1 op mem with eq | eq | ⟨o, eq⟩
      all_goals
        rw [eq, Expr.height]
        omega

/-- Both bounds are a property of the grammar: what each production adds to the height. -/
theorem grammarProperty_height {Ahead : Token → Prop} (vars : Variables) :
    GrammarProperty Ahead vars (fun nesting height e => e.height ≤ tallestOperand nesting height)
      (fun nesting height e => e.height ≤ tallest nesting height) where
  operand nesting height :=
    have small {e : Expr} (h : e.height ≤ 4) : e.height ≤ tallestOperand nesting height :=
      Nat.le_trans h (four_le_tallestOperand nesting height)
    { inner := by
        rintro e ⟨n, h, rfl, rfl, he⟩
        simp only [tallest] at he
        rw [tallestOperand]
        omega
      num := fun _ => small (by simp only [Expr.height]; omega)
      var := fun _ _ _ => small (by simp only [Expr.height]; omega)
      call := by
        intro t args _ _ _ ha
        have small := four_le_tallestOperand nesting height
        have all : heightOfArgs args ≤ tallestOperand nesting height - 1 := by
          refine heightOfArgs_le.mpr fun e mem => ?_
          obtain ⟨n, h, rfl, rfl, he⟩ := ha e mem
          simp only [tallest] at he
          rw [tallestOperand]
          omega
        rw [Expr.height]
        omega
      unary := by
        rintro op e ⟨n, h, rfl, rfl, he⟩
        simp only [tallest] at he
        rw [tallestOperand, Expr.height]
        omega
      stepped := fun _ _ _ => small (by simp only [stepped, Expr.height]; omega)
      stepAfter := fun _ _ _ _ => small (by simp only [stepped, Expr.height]; omega) }
  weaken nesting height e he := Nat.le_trans he (Nat.le_add_right _ _)
  binary _ operand nesting height ho :=
    reads_binary_height
      (fun height' le => (ho height').mono fun e he =>
        Nat.le_trans he (tallestOperand_mono (Nat.le_refl _) le))
      (fun _ mem => mem) height (Nat.le_refl _)
  assign := by
    rintro _ _ stored mem slot e - ⟨n, h, rfl, rfl, he⟩
    have all : ∀ stored ∈ assignments, (stored.2 slot e).height ≤ max 1 e.height + 1 := by
      simp only [assignments, List.map_cons, List.map_nil, List.forall_mem_cons, List.not_mem_nil,
        false_implies, implies_true, Expr.height, Nat.le_refl, and_true]
      omega
    have value := all stored mem
    have room : levels.length * (h + 1) = levels.length * h + levels.length := Nat.mul_succ ..
    have some : 0 < levels.length := by decide
    have small := four_le_tallestOperand n h
    simp only [tallest] at he ⊢
    rw [Expr.height, tallestOperand, room]
    omega

/-- An expression of a program is at most as tall as the bound at full depth and height. -/
theorem expressionProperty_height {Ahead : Token → Prop} :
    ExpressionProperty Ahead fun _ e => e.height ≤ tallest (maxNesting - 1) (maxHeight - 1) where
  mono := ⟨fun _ he => he⟩
  expression vars _ nesting height _ hn hh := by
    refine ((grammarProperty_height vars).reads_expression nesting height).mono fun e he => ?_
    exact Nat.le_trans he (tallest_mono (by omega) (by omega))

/-- In a statement of a body a level of nesting and of height is used up. -/
theorem tallest_max : tallest (maxNesting - 1) (maxHeight - 1) = 634627 := by
  decide +kernel

end Grammar

namespace Program

/-- No expression of a unit is taller than the grammar lets it get. -/
theorem height_le_of_mem_exprs {ts : List Token} {f : Function} (hf : f ∈ (ofTokens ts).functions)
    {e : Expr} (he : e ∈ exprsOfStmts f.body) : e.height ≤ 634627 := by
  have le := (sound_of_mem_functions Grammar.expressionProperty_height hf).exprs e he
  rw [Grammar.tallest_max] at le
  exact le

end Program

end BareC
