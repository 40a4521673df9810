import BareC.Proofs.Grammar.Height
import BareC.Proofs.Linking.Places
import BareC.Proofs.Printing.RoundTrip

/-!
# Chains on top of each other

A chain of operators may be as long as the limit on heights allows. Its first operand may be a chain
of a tighter operator, and the height that one has used up is not missing from the other: the tree
is as tall as both chains together, and it is read without any complaint. So the limit does not
bound the height of trees. What bounds it is that there are so many levels of operators, each with a
chain to itself, and so many levels of nesting. A tower of chains in calls in chains comes up to
three nodes of that bound.

Two things are shown of the bound: trees that are taller than the limit are read, and towers come
close to what `Grammar/Height` allows. That the bound is reached is not claimed, and neither is
which of the two, the counter or the tree, the limit was meant for. The comment at the limit speaks
of the tree.
-/

namespace BareC

/-! ## Every place of a tree -/

/-- No argument is taller than the tallest. -/
theorem Expr.height_le_heightOfArgs {args : List Expr} {e : Expr} (h : e ∈ args) :
    e.height ≤ heightOfArgs args :=
  heightOfArgs_le.mp (Nat.le_refl _) e h

/-- No part is taller than the whole. -/
theorem Expr.In.height_le {x e : Expr} (h : x.In e) : x.height ≤ e.height := by
  induction h with
  | self => exact Nat.le_refl _
  | assign _ ih | unary _ ih => exact Nat.le_succ_of_le ih
  | binaryLeft _ ih | andLeft _ ih | orLeft _ ih =>
    exact Nat.le_succ_of_le (Nat.le_trans ih (Nat.le_max_left _ _))
  | binaryRight _ ih | andRight _ ih | orRight _ ih =>
    exact Nat.le_succ_of_le (Nat.le_trans ih (Nat.le_max_right _ _))
  | argument mem _ ih => exact Nat.le_succ_of_le (Nat.le_trans ih (height_le_heightOfArgs mem))

/-! ## Chains -/

namespace Named

/-- An operand with so many operators behind it, all of the same kind, and a number behind each. -/
def Expr.chain (op : Operator) (first : Expr) : Nat → Expr
  | 0 => first
  | n + 1 => .binary op (first.chain op n) (.num 1)

namespace Expr

variable (op : Operator) (first : Expr) (n : Nat)

/-- In the tree every operator of a chain is a node above those in front of it. -/
theorem height_resolve_chain (vars : Grammar.Variables) :
    ((first.chain op n).resolve vars).height = (first.resolve vars).height + n := by
  have node : ∀ l : BareC.Expr, (op.node l (.num 1)).height = l.height + 1 := by
    intro l
    have some : 1 ≤ l.height := by cases l <;> simp only [BareC.Expr.height] <;> omega
    cases op <;> exact congrArg (· + 1) (Nat.max_eq_left some)
  induction n with
  | zero => rfl
  | succ n ih =>
    rw [chain, resolve, resolve, node, ih]
    rfl

/-- A chain is well formed where its first operand is. -/
theorem wellFormed_chain (arities : Arities) (vars : Grammar.Variables) :
    (first.chain op n).wellFormed arities vars = first.wellFormed arities vars := by
  induction n with
  | zero => rfl
  | succ n ih => rw [chain, wellFormed, ih, wellFormed, Bool.and_true]

/-- A chain has the links it was made with. -/
theorem links_chain (start : first.links op.level = 0) : (first.chain op n).links op.level = n := by
  induction n with
  | zero => exact start
  | succ n ih => rw [chain, links, if_pos rfl, ih]

/-- A chain does not continue one of looser operators. -/
theorem links_chain_of_lt {level : Nat} (looser : level < op.level)
    (start : first.links level = 0) : (first.chain op n).links level = 0 := by
  cases n with
  | zero => exact start
  | succ n => rw [chain, links, if_neg (Nat.ne_of_gt looser)]

/-- What it costs to read an expression where one of this level or a looser one is wanted. -/
def Costs (level nesting height : Nat) (e : Expr) : Prop :=
  ∀ level' ≤ level, e.nesting level' ≤ nesting ∧ e.height level' ≤ height

variable {op first}

/-- A chain costs no more nesting than its first operand, and no more height than is left for it. -/
theorem Costs.chain {nesting height : Nat} (h : first.Costs op.level nesting height)
    (start : first.links op.level = 0) {n : Nat} (le : n ≤ height) :
    (first.chain op n).Costs op.level nesting height := by
  induction n with
  | zero => exact h
  | succ n ih =>
    intro level looser
    obtain ⟨inside, tall⟩ := ih (Nat.le_of_succ_le le) op.level (Nat.le_refl _)
    have none : parensCost (op.level < level) = 0 := by
      rw [decide_eq_false (Nat.not_lt_of_le looser)]
      rfl
    rw [Expr.chain, Expr.nesting, Expr.height, none, links_chain op first n start]
    exact ⟨Nat.max_le.mpr ⟨inside, Nat.zero_le _⟩, Nat.max_le.mpr ⟨tall, le⟩⟩

/-! ## Ladders -/

/-- A chain of each of the operators, looser ones around tighter ones. -/
def ladder (first : Expr) (n : Nat) : List Operator → Expr
  | [] => first
  | op :: ops => (first.ladder n ops).chain op n

/-- An operand costs the same wherever it stands, and no chain goes on in it. -/
structure Operand (nesting height : Nat) (e : Expr) : Prop where
  costs : ∀ level, e.Costs level nesting height
  links : ∀ level, e.links level = 0

section Ladder

variable {nesting n : Nat} {ops : List Operator}

/-- A ladder has no links on the looser levels. -/
theorem Operand.links_ladder (h : first.Operand nesting n) {level : Nat}
    (tighter : ∀ op ∈ ops, level < op.level) : (first.ladder n ops).links level = 0 := by
  induction ops with
  | nil => exact h.links level
  | cons op ops ih =>
    obtain ⟨here, tighter⟩ := List.forall_mem_cons.mp tighter
    exact links_chain_of_lt op _ n here (ih tighter)

/-- The chains of a ladder each have the whole height to themselves. -/
theorem Operand.costs_ladder (h : first.Operand nesting n)
    (tighter : ops.Pairwise (·.level < ·.level)) {level : Nat}
    (looser : ∀ op ∈ ops, level ≤ op.level) :
    (first.ladder n ops).Costs level nesting n := by
  induction ops generalizing level with
  | nil => exact h.costs level
  | cons op ops ih =>
    obtain ⟨here, tighter⟩ := List.pairwise_cons.mp tighter
    have inside := ih tighter fun op' mem => Nat.le_of_lt (here op' mem)
    intro level' le
    exact inside.chain (h.links_ladder here) (Nat.le_refl n) level'
      (Nat.le_trans le (looser op List.mem_cons_self))

/-- A ladder is as tall as its chains together: each level restores the height when its own ends. -/
theorem height_resolve_ladder (vars : Grammar.Variables) (first : Expr) (n : Nat)
    (ops : List Operator) :
    ((first.ladder n ops).resolve vars).height = (first.resolve vars).height + ops.length * n := by
  induction ops with
  | nil => rw [ladder, List.length_nil, Nat.zero_mul, Nat.add_zero]
  | cons op ops ih =>
    rw [ladder, height_resolve_chain, ih, List.length_cons, Nat.succ_mul, Nat.add_assoc]

/-- A ladder is well formed where its first operand is. -/
theorem wellFormed_ladder (arities : Arities) (vars : Grammar.Variables) (first : Expr) (n : Nat)
    (ops : List Operator) :
    (first.ladder n ops).wellFormed arities vars = first.wellFormed arities vars := by
  induction ops with
  | nil => rfl
  | cons op ops ih => rw [ladder, wellFormed_chain, ih]

end Ladder

/-- A number is an operand. -/
theorem operand_num (v : Word) (nesting height : Nat) : (num v).Operand nesting height :=
  ⟨fun _ _ _ => ⟨Nat.zero_le _, Nat.zero_le _⟩, fun _ => rfl⟩

/-- A call is an operand, one level above its argument. -/
theorem operand_call {callee : Name} {e : Expr} {nesting height : Nat}
    (h : e.Costs 0 nesting height) : (call callee [e]).Operand (nesting + 1) (height + 1) := by
  obtain ⟨inside, tall⟩ := h 0 (Nat.le_refl 0)
  refine ⟨fun _ _ _ => ?_, fun _ => rfl⟩
  exact ⟨Nat.max_le.mpr ⟨Nat.succ_le_succ inside, Nat.zero_le _⟩,
    Nat.max_le.mpr ⟨Nat.succ_le_succ tall, Nat.zero_le _⟩⟩

/-! ## Towers -/

/-- One operator of each level, the loosest first. -/
def oneOfEach : List Operator :=
  [.logicalOr, .logicalAnd, .strict .bitOr, .strict .bitXor, .strict .bitAnd, .strict .eq,
    .strict .lt, .strict .shl, .strict .add, .strict .mul]

/-- A ladder of all levels whose innermost operand is a call with a tower for its argument. -/
def tower (callee : Name) : (nesting height : Nat) → Expr
  | nesting + 1, height + 1 =>
    (call callee [tower callee nesting height]).ladder (height + 1) oneOfEach
  | _, height => (num 1).ladder height oneOfEach

variable (callee : Name) (nesting height : Nat)

/-- What a tower costs. -/
theorem costs_tower : (tower callee nesting height).Costs 0 nesting height := by
  have all : oneOfEach.Pairwise (·.level < ·.level) := by decide
  have zero : ∀ op ∈ oneOfEach, 0 ≤ op.level := fun _ _ => Nat.zero_le _
  fun_induction tower callee nesting height with
  | case1 nesting height ih => exact (operand_call ih).costs_ladder all zero
  | case2 nesting height => exact (operand_num 1 nesting height).costs_ladder all zero

/-- A tower is well formed where its function is known. -/
theorem wellFormed_tower {arities : Arities} (found : arities.lookup callee.text = some 1)
    (vars : Grammar.Variables) : (tower callee nesting height).wellFormed arities vars = true := by
  fun_induction tower callee nesting height with
  | case1 nesting height ih =>
    rw [wellFormed_ladder, wellFormed, wellFormedArgs, wellFormedArgs, ih, found]
    rfl
  | case2 => rw [wellFormed_ladder, wellFormed]

/-- A tower is as tall as the grammar allows, but for what an operand has over a number. -/
theorem height_tower (vars : Grammar.Variables) :
    ((tower callee nesting height).resolve vars).height + 3 = Grammar.tallest nesting height := by
  have each : oneOfEach.length = Grammar.levels.length := rfl
  fun_induction tower callee nesting height with
  | case1 nesting height ih =>
    rw [Grammar.tallest] at ih
    rw [height_resolve_ladder, each, Grammar.tallest, Grammar.tallestOperand, ← ih, resolve,
      resolveArgs, resolveArgs, BareC.Expr.height, BareC.heightOfArgs, BareC.heightOfArgs,
      Nat.max_zero, Nat.succ_eq_add_one]
    omega
  | case2 nesting height flat =>
    have operand : Grammar.tallestOperand nesting height = 4 := by
      cases nesting with
      | zero => rfl
      | succ nesting =>
        cases height with
        | zero => rfl
        | succ height => exact (flat nesting height rfl rfl).elim
    rw [height_resolve_ladder, each, Grammar.tallest, operand, resolve, BareC.Expr.height]
    omega

end Expr

/-- A function of one parameter that returns the value of an expression. -/
def returning (e : Expr) : Function :=
  { name := ⟨"f", by decide⟩, params := [⟨"n", by decide⟩], body := [.ret (some e)], line := 1 }

end Named

namespace Program

/-- A printed program that fits is read back. -/
theorem ofTokens_of_fits {fs : List Named.Function} (wf : Named.WellFormed fs)
    (fits : ∀ f ∈ fs, f.Fits) (line : LineNumber) :
    ofTokens (Named.tokensOfUnit fs line) = ⟨fs.map fun f => .function f.resolve⟩ := by
  have eq : read (Named.tokensOfUnit fs line) = ⟨fs.map fun f => .function f.resolve⟩ :=
    congrArg Program.mk ((read_tokensOfUnit wf line).1 fits)
  rw [ofTokens, eq, link_tokensOfUnit wf]

/-- An expression that costs no more than there is can be returned. -/
theorem exists_has_returning {e : Named.Expr}
    (wf : e.wellFormed [("f", 1)] (Named.returning e).scope.vars = true)
    (costs : e.Costs 0 (Grammar.maxNesting - 1) (Grammar.maxHeight - 1)) :
    ∃ f ∈ (ofTokens (Named.tokensOfUnit [Named.returning e] 1)).functions,
      f.Has (e.resolve (Named.returning e).scope.vars) := by
  have wf : Named.WellFormed [Named.returning e] := by
    refine ⟨by simp, List.forall_mem_singleton.mpr ?_⟩
    exact Bool.and_eq_true_iff.mpr ⟨wf, rfl⟩
  obtain ⟨nesting, height⟩ := costs 0 (Nat.le_refl 0)
  have fits : (Named.returning e).Fits := by
    have few : 1 ≤ Grammar.maxParameters ∧ 1 ≤ Grammar.maxSlots := by decide
    refine ⟨few.1, few.2, ?_, ?_⟩ <;>
      simp only [Named.returning, Named.costOfStmts, Named.Stmt.cost, Named.costOfExpr?]
    · exact Nat.max_le.mpr ⟨Nat.succ_le_succ nesting, Nat.zero_le _⟩
    · exact Nat.max_le.mpr ⟨Nat.succ_le_succ height, Nat.zero_le _⟩
  rw [ofTokens_of_fits wf (List.forall_mem_singleton.mpr fits)]
  exact ⟨_, List.mem_singleton_self _, _, List.mem_singleton_self _, .ret .self⟩

/-- No expression of a unit, at whatever place, is taller than the levels of the grammar allow. -/
theorem height_le_of_has {ts : List Token} {f : Function} (hf : f ∈ (ofTokens ts).functions)
    {e : Expr} (he : f.Has e) : e.height ≤ 634627 := by
  obtain ⟨s, mem, has⟩ := he
  obtain ⟨whole, inside, place⟩ := has.exists_mem_exprs
  exact Nat.le_trans place.height_le (height_le_of_mem_exprs hf (subset_exprsOfStmts mem inside))

/-- The bound cannot be lowered by more than three. -/
theorem exists_has_tower : ∃ ts, ∃ f ∈ (ofTokens ts).functions, ∃ e,
    f.Has e ∧ e.height = 634624 := by
  let e := Named.Expr.tower ⟨"f", by decide⟩ (Grammar.maxNesting - 1) (Grammar.maxHeight - 1)
  obtain ⟨f, mem, has⟩ := exists_has_returning (e := e) (Named.Expr.wellFormed_tower _ _ _ rfl _)
    (Named.Expr.costs_tower _ _ _)
  refine ⟨_, f, mem, _, has, ?_⟩
  have height := Named.Expr.height_tower ⟨"f", by decide⟩ (Grammar.maxNesting - 1)
    (Grammar.maxHeight - 1) (Named.returning e).scope.vars
  rw [Grammar.tallest_max] at height
  exact Nat.add_right_cancel height

/-- Six hundred multiplications and, outside of them, as many additions. -/
def twoChains : List Token :=
  Named.tokensOfUnit [Named.returning ((Named.Expr.num 1).ladder 600 [.strict .add, .strict .mul])]
    1

/-- Two chains on two levels: an expression taller than the limit on one. -/
theorem exists_has_twoChains :
    ∃ f ∈ (ofTokens twoChains).functions, ∃ e, f.Has e ∧ e.height = 1201 := by
  have tighter : [Named.Operator.strict .add, .strict .mul].Pairwise (·.level < ·.level) := by
    decide
  have costs := (Named.Expr.operand_num 1 (Grammar.maxNesting - 1) 600).costs_ladder tighter
    fun _ _ => Nat.zero_le _
  obtain ⟨f, mem, has⟩ := exists_has_returning (Named.Expr.wellFormed_ladder _ _ _ _ _)
    fun level le => (costs level le).imp_right fun tall => Nat.le_trans tall (by decide)
  exact ⟨f, mem, _, has, Named.Expr.height_resolve_ladder _ _ _ _⟩

/-- The limit on heights does not bound the height of what is read. -/
theorem exists_taller_twoChains : ∃ f ∈ (ofTokens twoChains).functions,
    ∃ e, f.Has e ∧ Grammar.maxHeight < e.height := by
  obtain ⟨f, mem, e, has, height⟩ := exists_has_twoChains
  refine ⟨f, mem, e, has, ?_⟩
  rw [height]
  decide

/-- The two chains are within the bound on all expressions. -/
theorem height_le_twoChains : ∃ f ∈ (ofTokens twoChains).functions,
    ∃ e, f.Has e ∧ e.height ≤ 634627 := by
  obtain ⟨f, mem, e, has, -⟩ := exists_has_twoChains
  exact ⟨f, mem, e, has, height_le_of_has mem has⟩

end Program

end BareC
