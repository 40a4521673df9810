import BareC.Proofs.Printing.Cursor

/-!
# Reading printed expressions

An expression is printed where one of some level or tighter is wanted, and the parser of that level
reads it back. The token behind it must not continue an expression of the level. The tree of a chain
of operators leans to the left and its parser is a loop, so of the left operand it is shown that
reading it leaves the parser inside the loop, with the operators of the operand taken off the
height.

The proof follows the tree that is printed, with the level as a parameter: an operand of a looser
level stands in parentheses and costs a level of nesting, and everything else is on the way from one
level to the next (`readsAt_of_opensAt`, `opensAt_of_readsAt`). Expressions with parentheses that
they do not need are not printed, and neither are increments or combined assignments, so nothing is
shown of reading those.
-/

namespace BareC.Grammar

open Named (sign word literal unaryLevel separated)

/-! ## What can stand behind an expression -/

/-- The operators that continue an expression of this level or tighter. -/
def continuations (level : Nat) : List String :=
  "(" :: (steps.map (·.1) ++ ((if level = 0 then assignments.map (·.1) else []) ++
    (levels.drop (level - 1)).flatten.map (·.1)))

/-- A token at which an expression of this level ends. -/
structure Stops (level : Nat) (t : Token) : Prop where
  kind : t.kind = .punct
  text : t.text ∉ continuations level

theorem eq_of_is {t : Token} {s : String} (h : t.is s = true) : t.text = s := by
  rw [Token.is, Bool.and_eq_true, beq_iff_eq] at h
  exact h.2

/-- A token that no entry spells is found nowhere. -/
theorem find?_eq_none {α : Type} {t : Token} {table : List (String × α)}
    (h : t.text ∉ table.map (·.1)) : (table.find? fun entry => t.is entry.1) = none := by
  refine List.find?_eq_none.mpr fun entry mem found => h ?_
  rw [eq_of_is found]
  exact List.mem_map_of_mem mem

namespace Stops

variable {level : Nat} {t : Token}

/-- What stops an expression opens no arguments. -/
theorem call (h : Stops level t) : t.is "(" = false := by
  refine Bool.eq_false_iff.mpr fun found => h.text ?_
  rw [eq_of_is found]
  exact List.mem_cons_self

/-- What stops an expression is no step operator. -/
theorem step (h : Stops level t) : (steps.find? fun entry => t.is entry.1) = none :=
  find?_eq_none fun mem =>
    h.text (List.mem_cons_of_mem _ (List.mem_append_left _ mem))

/-- What stops a whole expression is no assignment. -/
theorem assignment (h : Stops 0 t) : (assignments.find? fun entry => t.is entry.1) = none :=
  find?_eq_none fun mem =>
    h.text (List.mem_cons_of_mem _ (List.mem_append_right _ (List.mem_append_left _ mem)))

/-- What stops a level stops the tighter ones. -/
theorem tighten {level' : Nat} (h : Stops level t) (le : level ≤ level') : Stops level' t := by
  refine ⟨h.kind, fun mem => h.text ?_⟩
  rw [continuations, List.mem_cons, List.mem_append, List.mem_append] at mem ⊢
  obtain mem | mem | mem | mem := mem
  · exact .inl mem
  · exact .inr (.inl mem)
  · split at mem
    next zero => rw [if_pos (by omega)]; exact .inr (.inr (.inl mem))
    next => exact absurd mem List.not_mem_nil
  · refine .inr (.inr (.inr ?_))
    obtain ⟨entry, found, eq⟩ := List.mem_map.mp mem
    obtain ⟨l, inside, found⟩ := List.mem_flatten.mp found
    have fewer := List.drop_suffix_drop_left levels (show level - 1 ≤ level' - 1 by omega)
    rw [← eq]
    exact List.mem_map_of_mem (List.mem_flatten.mpr ⟨l, fewer.subset inside, found⟩)

/-- Behind an expression of level zero there is a parenthesis, a comma or a semicolon. -/
theorem closing {line : LineNumber} {s : String} (h : s ∈ [")", ",", ";"]) :
    Stops 0 (sign line s) := by
  refine ⟨rfl, ?_⟩
  show s ∉ continuations 0
  revert s
  decide

end Stops

/-! ## What an expression begins with -/

/-- What an expression cannot begin with. -/
def notFirst : List String :=
  ["\x7b", "\x7d", ")", ";"] ++ (typeWords ++ (controlWords ++ unsupportedWords))

/-- A token that an expression can begin with. -/
structure Begins (t : Token) : Prop where
  notEnd : t.kind ≠ .eof
  notMarker : t.kind ≠ .error
  text : ∀ s ∈ notFirst, t.is s = false

/-- A sign that can stand first begins an expression. -/
theorem begins_sign {line : LineNumber} {s : String} (h : s ∉ notFirst) : Begins (sign line s) where
  notEnd := Token.Kind.noConfusion
  notMarker := Token.Kind.noConfusion
  text s' mem := by
    refine Bool.eq_false_iff.mpr fun eq => h ?_
    rw [show s = s' from eq_of_beq eq]
    exact mem

/-- A name begins an expression. -/
theorem begins_name (line : LineNumber) (name : Named.Name) : Begins (word line name.text) where
  notEnd := Token.Kind.noConfusion
  notMarker := Token.Kind.noConfusion
  text s mem := by
    have none : ∀ s ∈ notFirst, Named.isNameText s = false := by decide
    exact is_name line name (none s mem)

/-- Parentheses keep a first token that begins an expression. -/
theorem exists_first_inParens {line : LineNumber} {required : Bool} {ts : List Token}
    (h : ∃ t rest, ts = t :: rest ∧ Begins t) :
    ∃ t rest, Named.inParens line required ts = t :: rest ∧ Begins t := by
  cases required with
  | true => exact ⟨_, _, rfl, begins_sign (by decide)⟩
  | false => exact h

/-- The first token of a printed expression begins one. -/
theorem exists_first (line : LineNumber) :
    ∀ (e : Named.Expr) (level : Nat), ∃ t rest, e.tokens line level = t :: rest ∧ Begins t
  | .num v, _ => ⟨_, _, rfl, Token.Kind.noConfusion, Token.Kind.noConfusion, fun _ _ => rfl⟩
  | .var name, _ => ⟨_, _, rfl, begins_name line name⟩
  | .assign name e, _ => exists_first_inParens ⟨_, _, rfl, begins_name line name⟩
  | .unary op e, _ => ⟨_, _, rfl, begins_sign (by cases op <;> decide)⟩
  | .binary op l r, level => by
    obtain ⟨t, rest, eq, begins⟩ := exists_first line l op.level
    have tokens : l.tokens line op.level ++ sign line op.spelling :: r.tokens line (op.level + 1) =
        t :: (rest ++ sign line op.spelling :: r.tokens line (op.level + 1)) := by
      rw [eq, List.cons_append]
    exact exists_first_inParens ⟨t, _, tokens, begins⟩
  | .call name args, _ => ⟨_, _, rfl, begins_name line name⟩

/-! ## Operators -/

/-- The operators of a level, counted from the loosest. -/
def levelAt (k : Nat) : Level :=
  levels.getD k []

/-- The levels from one on are that one and the rest. -/
theorem drop_levels {k : Nat} (h : k < levels.length) :
    levels.drop k = levelAt k :: levels.drop (k + 1) := by
  rw [levelAt, List.getD_eq_getElem?_getD, List.getElem?_eq_getElem h]
  exact List.drop_eq_getElem_cons h

/-- No operator of a level continues an expression that is tighter. -/
theorem stops_operator (op : Named.Operator) (line : LineNumber) :
    Stops (op.level + 1) (sign line op.spelling) := by
  refine ⟨rfl, ?_⟩
  show op.spelling ∉ continuations (op.level + 1)
  cases op with
  | strict op => cases op <;> decide
  | _ => decide

/-- An operator is found on its level. -/
theorem find?_operator (op : Named.Operator) (line : LineNumber) :
    ((levelAt (op.level - 1)).find? fun entry => (sign line op.spelling).is entry.1) =
      some (op.spelling, op.node) := by
  cases op with
  | strict op => cases op <;> rfl
  | _ => rfl

/-- A unary operator is found in its table. -/
theorem find?_unary (op : UnaryOp) (line : LineNumber) :
    (unaryOps.find? fun entry => (sign line (Named.unarySpelling op)).is entry.1) =
      some (Named.unarySpelling op, op) := by
  cases op <;> rfl

/-! ## The parsers by level -/

/-- What is read one level of nesting below. -/
def below (p : Nat → Limited Expr) : Nat → Limited Expr
  | 0 => .tooDeep .expression
  | nesting + 1 => p nesting

/-- Unary expressions in terms of what is one level deeper. -/
theorem unary_eq (vars : Variables) (nesting : Nat) :
    unary vars nesting =
      unaryOver vars (below (unary vars) nesting) (below (expression vars) nesting) := by
  cases nesting <;> rw [unary] <;> rfl

/-- As `unary_eq`, for expressions. -/
theorem expression_eq (vars : Variables) (nesting : Nat) :
    expression vars nesting = assignOver (unary vars nesting)
      (below (expression vars) nesting) := by
  cases nesting with
  | zero => rw [expression, unary]; rfl
  | succ nesting => rw [expression, unary_eq vars (nesting + 1)]; rfl

/-- What is nested takes what fits one level deeper. -/
theorem takes_nested {p : Nat → Limited Expr} {c c' : Cursor} {n h : Nat} {e : Expr}
    (inner : ∀ nesting height, (p nesting height).Takes c (n ≤ nesting ∧ h ≤ height) e c')
    (nesting height : Nat) :
    ((below p nesting).nested .expression height).Takes c
      (n + 1 ≤ nesting ∧ h + 1 ≤ height) e c' := by
  cases height with
  | zero => exact Parser.Takes.fail (by omega)
  | succ height =>
    cases nesting with
    | zero => exact Parser.Takes.fail (by omega)
    | succ nesting => exact (inner nesting height).congr (by omega)

/-- The parser of the expressions of a level. -/
def parserAt (vars : Variables) (nesting : Nat) : (level : Nat) → Limited Expr
  | 0 => expression vars nesting
  | k + 1 => binary (unary vars nesting) (levels.drop k)

/-- The parser of a level is the next one's with a chain behind it. -/
theorem parserAt_succ {vars : Variables} {nesting k : Nat} (h : k < levels.length) (height : Nat) :
    parserAt vars nesting (k + 1) height = (do
      chain (levelAt k) (parserAt vars nesting (k + 2)) height
        (← parserAt vars nesting (k + 2) height)) := by
  rw [parserAt, drop_levels h]
  rfl

section Reading

variable (line : LineNumber) (vars : Variables)

/-- What is printed at a level is read back by its parser. -/
def ReadsAt (level : Nat) (e : Named.Expr) : Prop :=
  ∀ nesting height c, Stops level c.next →
    (parserAt vars nesting level height).Takes (c.before (e.tokens line level))
      (e.nesting level ≤ nesting ∧ e.height level ≤ height) (e.resolve vars) c

/-- Reading an expression at a level leads into the loop of the level, whatever that does then. -/
def OpensAt (k : Nat) (e : Named.Expr) : Prop :=
  ∀ nesting height c fits a c', Stops (k + 2) c.next →
    (chain (levelAt k) (parserAt vars nesting (k + 2)) (height - e.links (k + 1))
      (e.resolve vars)).Takes c fits a c' →
    (parserAt vars nesting (k + 1) height).Takes (c.before (e.tokens line (k + 1)))
      ((e.nesting (k + 1) ≤ nesting ∧ e.height (k + 1) ≤ height) ∧ fits) a c'

variable {line vars} {e : Named.Expr} {k : Nat}

/-- At the end of a chain its parser returns what was read. -/
theorem takes_chain_of_stops {operand : Limited Expr} {height : Nat} {left : Expr} {c : Cursor}
    (h : k < levels.length) (stops : Stops (k + 1) c.next) :
    (chain (levelAt k) operand height left).Takes c True left c := by
  have none : ((levelAt k).find? fun entry => c.next.is entry.1) = none := by
    refine find?_eq_none fun mem => stops.text ?_
    rw [continuations, show k + 1 - 1 = k from rfl, drop_levels h, List.flatten_cons,
      List.map_append]
    exact List.mem_cons_of_mem _ (List.mem_append_right _
      (List.mem_append_right _ (List.mem_append_left _ mem)))
  rw [chain]
  exact .step (run_acceptOne_of_none none) .pure

/-- What opens a level is read on it, as no further operator of the level stands behind. -/
theorem readsAt_of_opensAt (h : k < levels.length) (opens : OpensAt line vars k e) :
    ReadsAt line vars (k + 1) e := by
  intro nesting height c stops
  exact (opens nesting height c _ _ c (stops.tighten (Nat.le_succ _))
    (takes_chain_of_stops h stops)).congr (iff_of_eq (and_true _)).symm

/-- The expression is no chain of operators of this level. -/
def NotAt (level : Nat) : Named.Expr → Prop
  | .binary op _ _ => op.level ≠ level
  | _ => True

/-- Such an expression is printed as it is at the next level. -/
theorem NotAt.same (h : NotAt (k + 1) e) (line : LineNumber) :
    e.tokens line (k + 1) = e.tokens line (k + 2) ∧ e.nesting (k + 1) = e.nesting (k + 2) ∧
      e.height (k + 1) = e.height (k + 2) ∧ e.links (k + 1) = 0 := by
  cases e with
  | binary op l r =>
    have other : op.level ≠ k + 1 := h
    have looser : decide (op.level < k + 1) = decide (op.level < k + 2) := by
      rw [decide_eq_decide]
      omega
    simp only [Named.Expr.tokens, Named.Expr.nesting, Named.Expr.height, Named.Expr.links, looser,
      if_neg other, and_self]
  | assign name e =>
    simp only [Named.Expr.tokens, Named.Expr.nesting, Named.Expr.height, Named.Expr.links,
      Nat.zero_lt_succ, and_self]
  | _ =>
    simp only [Named.Expr.tokens, Named.Expr.nesting, Named.Expr.height, Named.Expr.links, and_self]

/-- What is read on the next level opens this one. -/
theorem opensAt_of_readsAt (h : k < levels.length) (other : NotAt (k + 1) e)
    (reads : ReadsAt line vars (k + 2) e) : OpensAt line vars k e := by
  intro nesting height c fits a c' stops rest
  obtain ⟨tokens, nestingEq, heightEq, links⟩ := other.same line
  rw [links, Nat.sub_zero] at rest
  rw [tokens, nestingEq, heightEq, parserAt_succ h]
  exact .bind (reads nesting height c stops) rest

/-- The loop of a level goes on with the operator behind the left operand. -/
theorem opensAt_binary {op : Named.Operator} {l r : Named.Expr} (level : op.level = k + 1)
    (left : OpensAt line vars k l) (right : ReadsAt line vars (k + 2) r) :
    OpensAt line vars k (.binary op l r) := by
  intro nesting height c fits a c' stops rest
  have links : (Named.Expr.binary op l r).links (k + 1) = l.links (k + 1) + 1 := by
    rw [Named.Expr.links, if_pos level]
  have tokens : (Named.Expr.binary op l r).tokens line (k + 1) =
      l.tokens line (k + 1) ++ sign line op.spelling :: r.tokens line (k + 2) := by
    simp only [Named.Expr.tokens, level, Nat.lt_irrefl, decide_false, Named.inParens,
      Bool.false_eq_true, if_false]
  have costs : (Named.Expr.binary op l r).nesting (k + 1) =
        max (l.nesting (k + 1)) (r.nesting (k + 2)) ∧
      (Named.Expr.binary op l r).height (k + 1) =
        max (l.height (k + 1)) (l.links (k + 1) + 1 + r.height (k + 2)) := by
    simp only [Named.Expr.nesting, Named.Expr.height, level, Nat.lt_irrefl, decide_false,
      Named.parensCost, Bool.false_eq_true, if_false, Nat.add_zero, and_self]
  have accepted := find?_operator op line
  have behind := stops_operator op line
  have plain : (sign line op.spelling).Plain := by
    refine plain_sign ?_
    cases op with
    | strict op => cases op <;> decide
    | _ => decide
  rw [level] at accepted behind
  rw [links] at rest
  rw [tokens, costs.1, costs.2, Cursor.before_append]
  have inside : (chain (levelAt k) (parserAt vars nesting (k + 2)) (height - l.links (k + 1))
      (l.resolve vars)).Takes (c.before (sign line op.spelling :: r.tokens line (k + 2)))
      ((r.nesting (k + 2) ≤ nesting ∧ l.links (k + 1) + 1 + r.height (k + 2) ≤ height) ∧ fits)
      a c' := by
    rw [chain]
    refine .step (run_acceptOne accepted plain) ?_
    cases room : height - l.links (k + 1) with
    | zero => exact .fail (by omega)
    | succ left =>
      rw [show height - (l.links (k + 1) + 1) = left by omega] at rest
      exact (Parser.Takes.bind (right nesting left c stops) rest).congr
        (and_congr_left' (and_congr_right' (by omega)))
  refine (left nesting height (c.before (sign line op.spelling :: r.tokens line (k + 2)))
    _ a c' behind inside).congr ?_
  simp only [Nat.max_le, and_assoc, and_left_comm]

/-- From the level of an operand down to any level at which the expression is no chain. -/
theorem readsAt_of_tighter {low high : Nat} (h : high ≤ levels.length)
    (other : ∀ level, low < level → level ≤ high → NotAt level e)
    (reads : ReadsAt line vars (high + 1) e) {level : Nat} (least : low < level)
    (le : level ≤ high + 1) : ReadsAt line vars level e := by
  obtain ⟨steps, eq⟩ := Nat.exists_eq_add_of_le le
  induction steps generalizing level with
  | zero =>
    rw [show level = high + 1 from eq.symm]
    exact reads
  | succ steps ih =>
    obtain ⟨k, rfl⟩ : ∃ k, level = k + 1 := ⟨level - 1, by omega⟩
    have tighter : ReadsAt line vars (k + 2) e := ih (by omega) (by omega) (by omega)
    exact readsAt_of_opensAt (by omega)
      (opensAt_of_readsAt (by omega) (other (k + 1) least (by omega)) tighter)

/-- An expression without an assignment is one of level zero. -/
theorem readsAt_zero (tokens : e.tokens line 0 = e.tokens line 1)
    (costs : e.nesting 0 = e.nesting 1 ∧ e.height 0 = e.height 1) (reads : ReadsAt line vars 1 e) :
    ReadsAt line vars 0 e := by
  intro nesting height c stops
  rw [parserAt, expression_eq, tokens, costs.1, costs.2]
  refine .followed (reads nesting height c (stops.tighten (Nat.zero_le 1))) (.step run_seesOne ?_)
  rw [stops.assignment]
  exact .pure

/-- An operand that begins with none of the unary operators. -/
theorem takes_unary_of_primary {t : Token} {ts : List Token} {nesting height : Nat} {c : Cursor}
    {fits : Prop} {a : Expr} (plus : t.is "+" = false)
    (unary : (unaryOps.find? fun entry => t.is entry.1) = none)
    (step : (steps.find? fun entry => t.is entry.1) = none) (stops : Stops unaryLevel c.next)
    (h : (primary vars (below (expression vars) nesting) height).Takes
      (c.before (t :: ts)) fits a c) :
    (Grammar.unary vars nesting height).Takes (c.before (t :: ts)) fits a c := by
  rw [unary_eq]
  refine .step (run_accept_of_not plus) (.neg Bool.false_ne_true ?_)
  refine .step (run_acceptOne_of_none unary) (.step (run_acceptOne_of_none step) ?_)
  refine .followed h (.step run_seesOne ?_)
  rw [stops.step]
  exact .pure

/-- An expression in parentheses. -/
theorem readsAt_parens
    (tokens : e.tokens line unaryLevel = Named.inParens line true (e.tokens line 0))
    (costs : e.nesting unaryLevel = e.nesting 0 + 1 ∧ e.height unaryLevel = e.height 0 + 1)
    (reads : ReadsAt line vars 0 e) : ReadsAt line vars unaryLevel e := by
  intro nesting height c stops
  rw [tokens, costs.1, costs.2]
  have opening : (sign line "(").Plain := plain_sign (by decide)
  have closing : (sign line ")").Plain := plain_sign (by decide)
  have inside := takes_nested (fun nesting height =>
    reads nesting height (c.before [sign line ")"]) (.closing (by decide))) nesting height
  refine takes_unary_of_primary rfl rfl rfl stops ?_
  refine .step (run_accept rfl opening) (.pos rfl ?_)
  rw [Cursor.before_append]
  refine .followed inside ?_
  exact .step (run_expect rfl closing) .pure

/-- A declared name resolves to its slot. -/
theorem resolve_var {name : Named.Name} (declared : Named.isDeclared vars name = true) :
    (Named.Expr.var name).resolve vars = .var (Named.slotOf vars name) ∧
      vars.lookup name.text = some (Named.slotOf vars name) := by
  obtain ⟨slot, found⟩ := Option.isSome_iff_exists.mp declared
  rw [Named.Expr.resolve, Named.slotOf, found]
  exact ⟨rfl, rfl⟩

/-- A declared name is read back. -/
theorem readsAt_var {name : Named.Name} (declared : Named.isDeclared vars name = true) :
    ReadsAt line vars unaryLevel (.var name) := by
  intro nesting height c stops
  obtain ⟨value, found⟩ := resolve_var declared
  have notNum : (word line name.text).kind ≠ .num := Token.Kind.noConfusion
  have notStr : (word line name.text).kind ≠ .str := Token.Kind.noConfusion
  rw [value]
  refine takes_unary_of_primary (is_name line name (by decide))
    (find?_name line name (by decide)) (find?_name line name (by decide)) stops ?_
  refine .step (run_accept_of_not (is_name line name (by decide)))
    (.neg Bool.false_ne_true (.step run_peek (.neg notNum (.neg notStr (.pos ?_ ?_)))))
  · exact isName_name line name
  · refine .step (run_advance (plain_name line name)) (.step (run_accept_of_not stops.call)
      (.neg Bool.false_ne_true ?_))
    rw [Cursor.next_before, show vars.lookup (word line name.text).text = _ from found]
    exact Parser.Takes.pure.congr (iff_true_intro ⟨Nat.zero_le _, Nat.zero_le _⟩)

/-- The arguments of a call, each of which takes a token. -/
theorem takes_moreArguments {argument : Parser Expr} {fits : Named.Expr → Prop} {c : Cursor}
    {es : List Named.Expr}
    (reads : ∀ x ∈ e :: es, ∀ c, Stops 0 c.next →
      argument.Takes (c.before (x.tokens line 0)) (fits x) (x.resolve vars) c)
    {bound : List Token} (room : es.length < bound.length) (read : List Expr) :
    (moreArguments argument bound read).Takes
      (c.before (separated line ")" (Named.tokensOfArgs line (e :: es))))
      (∀ x ∈ e :: es, fits x) (read.reverse ++ Named.resolveArgs vars (e :: es)) c := by
  induction es generalizing e bound read with
  | nil =>
    have closing : (sign line ")").Plain := plain_sign (by decide)
    have first := reads e List.mem_cons_self (c.before [sign line ")"])
      (.closing (by decide))
    cases bound with
    | nil => exact absurd room (Nat.not_lt_zero _)
    | cons t bound =>
      rw [Named.tokensOfArgs, Named.tokensOfArgs, separated, Cursor.before_append]
      refine Parser.Takes.congr (.followed first ?_) List.forall_mem_singleton
      refine .step (run_accept_of_not rfl) (.neg Bool.false_ne_true
        (.step (run_expect rfl closing) ?_))
      rw [List.reverse_cons]
      exact .pure
  | cons x es ih =>
    have comma : (sign line ",").Plain := plain_sign (by decide)
    have first := reads e List.mem_cons_self
      (c.before (sign line "," :: separated line ")" (Named.tokensOfArgs line (x :: es))))
      (.closing (by decide))
    cases bound with
    | nil => exact absurd room (Nat.not_lt_zero _)
    | cons t bound =>
      have rest := ih (fun y mem => reads y (List.mem_cons_of_mem _ mem))
        (Nat.lt_of_succ_lt_succ room) (e.resolve vars :: read)
      rw [List.reverse_cons, List.append_assoc] at rest
      rw [Named.tokensOfArgs, Named.tokensOfArgs, separated, Cursor.before_append]
      refine Parser.Takes.congr (.bind first ?_) List.forall_mem_cons
      exact .step (run_accept rfl comma) (.pos rfl rest)

/-- A list with its separators is no shorter than the list. -/
theorem length_separated (line : LineNumber) (closing : String) (tss : List (List Token)) :
    tss.length ≤ (separated line closing tss).length := by
  fun_induction separated line closing tss with
  | case1 => exact Nat.zero_le _
  | case2 ts => simp
  | case3 ts us tss ih =>
    simp only [List.length_cons, List.length_append] at ih ⊢
    omega

/-- Arguments are printed one by one. -/
theorem length_tokensOfArgs (line : LineNumber) (es : List Named.Expr) :
    (Named.tokensOfArgs line es).length = es.length := by
  induction es with
  | nil => rfl
  | cons e es ih => rw [Named.tokensOfArgs, List.length_cons, List.length_cons, ih]

variable (line vars) in
/-- A list of arguments is read back, if each of them is. -/
theorem takes_arguments {argument : Parser Expr} {fits : Named.Expr → Prop} {c : Cursor}
    {args : List Named.Expr}
    (reads : ∀ x ∈ args, ∀ c, Stops 0 c.next →
      argument.Takes (c.before (x.tokens line 0)) (fits x) (x.resolve vars) c) :
    (arguments argument).Takes (c.before (separated line ")" (Named.tokensOfArgs line args)))
      (∀ x ∈ args, fits x) (Named.resolveArgs vars args) c := by
  cases args with
  | nil =>
    have closing : (sign line ")").Plain := plain_sign (by decide)
    refine .step (run_accept rfl closing) (.pos rfl ?_)
    exact Parser.Takes.pure.congr (iff_true_intro (by simp))
  | cons e es =>
    have first : (c.before (separated line ")" (Named.tokensOfArgs line (e :: es)))).next.is ")" =
        false := by
      obtain ⟨t, rest, eq, begins⟩ := exists_first line e 0
      cases es with
      | nil =>
        rw [Named.tokensOfArgs, Named.tokensOfArgs, separated, eq]
        exact begins.text ")" (by decide)
      | cons x es =>
        rw [Named.tokensOfArgs, Named.tokensOfArgs, separated, eq]
        exact begins.text ")" (by decide)
    have room : es.length <
        (c.before (separated line ")" (Named.tokensOfArgs line (e :: es)))).ahead.length := by
      have args := length_tokensOfArgs line (e :: es)
      have longer := length_separated line ")" (Named.tokensOfArgs line (e :: es))
      rw [Cursor.before, List.length_append]
      rw [List.length_cons] at args
      omega
    refine .step (run_accept_of_not first) (.neg Bool.false_ne_true (.step run_get ?_))
    exact takes_moreArguments reads room []

/-- Arguments nest as the deepest of them. -/
theorem nestingOfArgs_le {args : List Named.Expr} {n : Nat} :
    Named.nestingOfArgs args ≤ n ↔ ∀ x ∈ args, x.nesting 0 + 1 ≤ n := by
  induction args with
  | nil => simp [Named.nestingOfArgs]
  | cons e es ih => simp only [Named.nestingOfArgs, Nat.max_le, ih, List.forall_mem_cons]

/-- Arguments are as tall as the tallest of them. -/
theorem heightOfArgs_le {args : List Named.Expr} {n : Nat} :
    Named.heightOfArgs args ≤ n ↔ ∀ x ∈ args, x.height 0 + 1 ≤ n := by
  induction args with
  | nil => simp [Named.heightOfArgs]
  | cons e es ih => simp only [Named.heightOfArgs, Nat.max_le, ih, List.forall_mem_cons]

/-- Arguments resolve one by one. -/
theorem length_resolveArgs (args : List Named.Expr) :
    (Named.resolveArgs vars args).length = args.length := by
  induction args with
  | nil => rfl
  | cons e es ih => rw [Named.resolveArgs, List.length_cons, List.length_cons, ih]

/-- A call is read back. -/
theorem readsAt_call {name : Named.Name} {args : List Named.Expr}
    (few : args.length ≤ maxParameters) (reads : ∀ x ∈ args, ReadsAt line vars 0 x) :
    ReadsAt line vars unaryLevel (.call name args) := by
  intro nesting height c stops
  have notNum : (word line name.text).kind ≠ .num := Token.Kind.noConfusion
  have notStr : (word line name.text).kind ≠ .str := Token.Kind.noConfusion
  have opening : (sign line "(").Plain := plain_sign (by decide)
  refine takes_unary_of_primary (is_name line name (by decide))
    (find?_name line name (by decide)) (find?_name line name (by decide)) stops ?_
  refine .step (run_accept_of_not (is_name line name (by decide)))
    (.neg Bool.false_ne_true (.step run_peek (.neg notNum (.neg notStr (.pos ?_ ?_)))))
  · exact isName_name line name
  · refine .step (run_advance (plain_name line name)) (.step (run_accept rfl opening)
      (.pos rfl ?_))
    have inside := takes_arguments line vars (c := c) fun x mem c stops =>
      takes_nested (fun nesting height => reads x mem nesting height c stops) nesting height
    refine Parser.Takes.congr (.followed inside (.neg ?_ .pure)) ?_
    · rw [length_resolveArgs]
      exact Nat.not_lt.mpr few
    · rw [Named.Expr.nesting, Named.Expr.height, nestingOfArgs_le, heightOfArgs_le, ← forall_and]
      exact forall_congr' fun x => imp_and.symm

/-- A number is read as the word of its value. -/
theorem takes_primary_of_num {t : Token} (number : t.kind = .num) (deeper : Limited Expr)
    (height : Nat) (c : Cursor) :
    (primary vars deeper height).Takes (c.before [t]) True (.num (BitVec.ofInt 32 t.value)) c := by
  have notSpelled : ∀ s, t.is s = false := fun s => by simp [Token.is, number]
  have plain : t.Plain := ⟨by simp [number], notSpelled _, notSpelled _⟩
  refine .step (run_accept_of_not (notSpelled _))
    (.neg Bool.false_ne_true (.step run_peek (.pos number ?_)))
  exact .step (run_advance plain) .pure

/-- A number is read back. -/
theorem readsAt_num (v : Word) : ReadsAt line vars unaryLevel (.num v) := by
  intro nesting height c stops
  have value : BitVec.ofInt 32 (literal line v).value = v := by
    show BitVec.ofInt 32 (v.toNat : Int) = v
    rw [BitVec.ofInt_natCast, BitVec.ofNat_toNat, BitVec.setWidth_eq]
  have reads :
      (primary vars (below (expression vars) nesting) height).Takes (c.before [literal line v]) True
      (.num (BitVec.ofInt 32 (literal line v).value)) c := takes_primary_of_num rfl _ height c
  rw [value] at reads
  refine takes_unary_of_primary rfl rfl rfl stops ?_
  exact reads.congr (iff_true_intro ⟨Nat.zero_le _, Nat.zero_le _⟩)

/-- A unary expression is read back. -/
theorem readsAt_unary {op : UnaryOp} (reads : ReadsAt line vars unaryLevel e) :
    ReadsAt line vars unaryLevel (.unary op e) := by
  intro nesting height c stops
  have plus : (sign line (Named.unarySpelling op)).is "+" = false := by cases op <;> rfl
  have plain : (sign line (Named.unarySpelling op)).Plain :=
    plain_sign (by cases op <;> decide)
  show (unary vars nesting height).Takes _ _ _ _
  rw [unary_eq]
  refine .step (run_accept_of_not plus) (.neg Bool.false_ne_true ?_)
  refine .step (run_acceptOne (find?_unary op line) plain) ?_
  have inside := takes_nested (p := unary vars)
    (fun nesting height => reads nesting height c stops) nesting height
  refine .followed inside ?_
  exact .pure

/-- An expression can be read at every level, and leads into the loop of every level. -/
structure Readable (line : LineNumber) (vars : Variables) (e : Named.Expr) : Prop where
  reads : ∀ level ≤ unaryLevel, ReadsAt line vars level e
  opens : ∀ k < levels.length, OpensAt line vars k e

/-- An operand is its own chain at all levels. -/
theorem readable_of_operand (other : ∀ level, NotAt level e)
    (tokens : e.tokens line 0 = e.tokens line 1)
    (costs : e.nesting 0 = e.nesting 1 ∧ e.height 0 = e.height 1)
    (reads : ReadsAt line vars unaryLevel e) : Readable line vars e := by
  have above : ∀ level, 0 < level → level ≤ unaryLevel → ReadsAt line vars level e :=
    fun level least le =>
      readsAt_of_tighter (Nat.le_refl _) (fun level _ _ => other level) reads least le
  refine ⟨fun level le => ?_, fun k h => ?_⟩
  · cases level with
    | zero => exact readsAt_zero tokens costs (above 1 Nat.zero_lt_one (by decide))
    | succ k => exact above (k + 1) (Nat.zero_lt_succ k) le
  · exact opensAt_of_readsAt h (other (k + 1))
      (above (k + 2) (Nat.zero_lt_succ _) (Nat.succ_le_succ h))

/-- A variable is read back on every level. -/
theorem readable_var {name : Named.Name} (declared : Named.isDeclared vars name = true) :
    Readable line vars (.var name) :=
  readable_of_operand (fun _ => trivial) rfl ⟨rfl, rfl⟩ (readsAt_var declared)

/-- The left side of an assignment is read as an operand before the sign is seen. -/
theorem readsAt_assign {name : Named.Name} (declared : Named.isDeclared vars name = true)
    (reads : ReadsAt line vars 0 e) : ReadsAt line vars 0 (.assign name e) := by
  intro nesting height c stops
  have equals : (sign line "=").Plain := plain_sign (by decide)
  have behind : Stops 1 (sign line "=") := by
    refine ⟨rfl, ?_⟩
    show "=" ∉ continuations 1
    decide
  have operand : Readable line vars (.var name) := readable_var declared
  have left := operand.reads 1 (by decide) nesting height
    (c.before (sign line "=" :: e.tokens line 0)) behind
  have right := takes_nested (fun nesting height => reads nesting height c stops) nesting height
  have found : (assignments.find? fun entry => (sign line "=").is entry.1) =
      some ("=", fun _ e => e) := rfl
  rw [parserAt, expression_eq]
  refine .step (left.ok ⟨Nat.zero_le _, Nat.zero_le _⟩) (.step run_seesOne ?_)
  rw [Cursor.next_before, found, (resolve_var declared).1]
  refine .step (b := Named.slotOf vars name) rfl (.step (run_advance equals) ?_)
  exact .followed right .pure

/-- An assignment is read back on every level, in parentheses where it must be. -/
theorem readable_assign {name : Named.Name} (declared : Named.isDeclared vars name = true)
    (value : Readable line vars e) : Readable line vars (.assign name e) := by
  have bare := readsAt_assign declared (value.reads 0 (Nat.zero_le _))
  have other : ∀ level, NotAt level (.assign name e) := fun _ => trivial
  have above : ∀ level, 0 < level → level ≤ unaryLevel →
      ReadsAt line vars level (.assign name e) := fun _ least le =>
    readsAt_of_tighter (Nat.le_refl _) (fun level _ _ => other level)
      (readsAt_parens rfl ⟨rfl, rfl⟩ bare) least le
  refine ⟨fun level le => ?_, fun k h => ?_⟩
  · cases level with
    | zero => exact bare
    | succ k => exact above (k + 1) (Nat.zero_lt_succ k) le
  · exact opensAt_of_readsAt h trivial (above (k + 2) (Nat.zero_lt_succ _) (Nat.succ_le_succ h))

/-- The level of an operator is one of the levels. -/
theorem level_bounds (op : Named.Operator) : ∃ k, op.level = k + 1 ∧ k < levels.length := by
  refine ⟨op.level - 1, ?_⟩
  cases op with
  | strict op => cases op <;> decide
  | _ => decide

/-- An operator is read bare at its own level and at looser ones, and in parentheses at tighter
ones. -/
theorem readable_binary {op : Named.Operator} {l r : Named.Expr} (left : Readable line vars l)
    (right : Readable line vars r) : Readable line vars (.binary op l r) := by
  obtain ⟨k, level, h⟩ := level_bounds op
  have own : OpensAt line vars k (.binary op l r) :=
    opensAt_binary level (left.opens k h) (right.reads (k + 2) (Nat.succ_le_succ h))
  have looser : ∀ level, 0 < level → level ≤ k + 1 → ReadsAt line vars level (.binary op l r) :=
    fun _ least le => readsAt_of_tighter (Nat.le_of_lt h)
      (fun other _ lt => by show op.level ≠ other; omega) (readsAt_of_opensAt h own) least le
  have bare : ReadsAt line vars 0 (.binary op l r) := by
    refine readsAt_zero ?_ ?_ (looser 1 Nat.zero_lt_one (by omega))
    all_goals
      simp only [Named.Expr.tokens, Named.Expr.nesting, Named.Expr.height, level, Nat.not_lt_zero,
        Nat.lt_one_iff, Nat.succ_ne_zero, decide_false, and_self]
  have parens : ReadsAt line vars unaryLevel (.binary op l r) := by
    have required : op.level < unaryLevel := by
      rw [level]
      exact Nat.succ_lt_succ h
    refine readsAt_parens ?_ ?_ bare
    all_goals
      simp only [Named.Expr.tokens, Named.Expr.nesting, Named.Expr.height, Named.inParens,
        Named.parensCost, required, Nat.not_lt_zero, decide_true, decide_false, if_true,
        Bool.false_eq_true, if_false, Nat.add_zero, and_self]
  have tighter : ∀ level, k + 1 < level → level ≤ unaryLevel →
      ReadsAt line vars level (.binary op l r) := fun _ least le =>
    readsAt_of_tighter (Nat.le_refl _) (fun other lt _ => by show op.level ≠ other; omega) parens
      least le
  have all : ∀ level, 0 < level → level ≤ unaryLevel →
    ReadsAt line vars level (.binary op l r) := by
    intro level least le
    by_cases loose : level ≤ k + 1
    · exact looser level least loose
    · exact tighter level (Nat.lt_of_not_le loose) le
  refine ⟨fun level le => ?_, fun j hj => ?_⟩
  · cases level with
    | zero => exact bare
    | succ j => exact all (j + 1) (Nat.zero_lt_succ j) le
  · by_cases same : j = k
    · rw [same]
      exact own
    · refine opensAt_of_readsAt hj ?_ (all (j + 2) (Nat.zero_lt_succ _) (Nat.succ_le_succ hj))
      show op.level ≠ j + 1
      omega

mutual

/-- What is printed of a well-formed expression can be read. -/
theorem readable (arities : Arities) :
    ∀ e : Named.Expr, e.wellFormed arities vars = true → Readable line vars e
  | .num v, _ => readable_of_operand (fun _ => trivial) rfl ⟨rfl, rfl⟩ (readsAt_num v)
  | .var _, wf => readable_var wf
  | .assign _ e, wf => by
    obtain ⟨declared, value⟩ := Bool.and_eq_true_iff.mp wf
    exact readable_assign declared (readable arities e value)
  | .unary op e, wf => by
    have operand := (readable arities e wf).reads unaryLevel (Nat.le_refl _)
    exact readable_of_operand (fun _ => trivial) rfl ⟨rfl, rfl⟩ (readsAt_unary operand)
  | .binary _ l r, wf => by
    obtain ⟨left, right⟩ := Bool.and_eq_true_iff.mp wf
    exact readable_binary (readable arities l left) (readable arities r right)
  | .call _ args, wf => by
    obtain ⟨call, inside⟩ := Bool.and_eq_true_iff.mp wf
    have few : args.length ≤ maxParameters := of_decide_eq_true (Bool.and_eq_true_iff.mp call).2
    have reads := readable_args arities args inside
    exact readable_of_operand (fun _ => trivial) rfl ⟨rfl, rfl⟩
      (readsAt_call few fun x mem => (reads x mem).reads 0 (Nat.zero_le _))

/-- Arguments that are well formed are read back. -/
theorem readable_args (arities : Arities) :
    ∀ es : List Named.Expr, Named.wellFormedArgs arities vars es = true →
      ∀ x ∈ es, Readable line vars x
  | [], _ => nofun
  | e :: es, wf => by
    obtain ⟨first, others⟩ := Bool.and_eq_true_iff.mp wf
    exact List.forall_mem_cons.mpr ⟨readable arities e first, readable_args arities es others⟩

end

/-- Reading a whole expression takes its tokens if the nesting and the height suffice, and fails
otherwise. -/
theorem takes_expression {arities : Arities} (wf : e.wellFormed arities vars = true)
    (nesting height : Nat) {c : Cursor} (stops : Stops 0 c.next) :
    (expression vars nesting height).Takes (c.before (e.tokens line 0))
      (e.nesting 0 ≤ nesting ∧ e.height 0 ≤ height) (e.resolve vars) c :=
  (readable arities e wf).reads 0 (Nat.zero_le _) nesting height c stops

end Reading

end BareC.Grammar
