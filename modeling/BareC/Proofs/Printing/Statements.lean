import BareC.Proofs.Grammar.Statements
import BareC.Proofs.Printing.Expressions

/-!
# Reading printed statements

The first token of a statement decides which parser reads it, and the token behind it must not be an
`else` that the statement could take. The slots that are given out only grow, so all of them fit in
a frame if those at the end do.

A conditional without the other branch cannot stand in front of an `else` unless there are braces
around it, which is what well-formedness sees to. Declarations read their initial value with the new
name in scope already; the printed tree has it so too. Which statement a reader would have expected
instead is not discussed.
-/

namespace BareC.Grammar

open Named (sign word separated)

/-! ## Slots -/

/-- Declarators only open slots. -/
theorem slots_le_afterDeclarators (ds : List Named.Declarator) (scope : Scope) :
    scope.slots ≤ (Named.afterDeclarators scope ds).slots := by
  induction ds generalizing scope with
  | nil => exact Nat.le_refl _
  | cons d ds ih => exact Nat.le_trans (Nat.le_succ _) (ih (Named.declared scope d.name))

/-- As `slots_le_afterDeclarators`, for the first part of a loop's header. -/
theorem slots_le_afterStart (start : Named.Start) (scope : Scope) :
    scope.slots ≤ (start.after scope).slots := by
  cases start with
  | decl d => exact slots_le_afterDeclarators _ _
  | _ => exact Nat.le_refl _

mutual

/-- No slot is taken back. -/
theorem slots_le_after : ∀ (s : Named.Stmt) (scope : Scope), scope.slots ≤ (s.after scope).slots
  | .decl _, _ => slots_le_afterDeclarators _ _
  | .ifElse _ yes no, _ => Nat.le_trans (slots_le_after yes _) (slots_le_afterStmt? no _)
  | .whileLoop _ body, _ => slots_le_after body _
  | .doWhile body _, _ => slots_le_after body _
  | .forLoop start _ _ body, _ =>
    Nat.le_trans (slots_le_afterStart start _) (slots_le_after body _)
  | .block stmts, _ => slots_le_afterStmts stmts _
  | .ret _, _ | .expr _, _ | .breakLoop, _ | .continueLoop, _ | .empty, _ => Nat.le_refl _

/-- As `slots_le_afterDeclarators`, for a statement that may be missing. -/
theorem slots_le_afterStmt? : ∀ (s : Option Named.Stmt) (scope : Scope),
    scope.slots ≤ (Named.afterStmt? scope s).slots
  | none, _ => Nat.le_refl _
  | some s, _ => slots_le_after s _

/-- As `slots_le_afterDeclarators`, for a list. -/
theorem slots_le_afterStmts : ∀ (ss : List Named.Stmt) (scope : Scope),
    scope.slots ≤ (Named.afterStmts scope ss).slots
  | [], _ => Nat.le_refl _
  | s :: ss, _ => Nat.le_trans (slots_le_after s _) (slots_le_afterStmts ss _)

end

/-! ## Expressions inside statements -/

/-- The parsers that a statement is put together from, inside which so much is left. -/
def partsAt (nesting height : Nat) : Parts where
  expr vars := expression vars nesting height
  inner := statement nesting height

section Values

variable {line : LineNumber} {arities : Arities} {scope : Scope} {nesting height : Nat} {c : Cursor}
  {e : Named.Expr}

variable (line nesting height c) in
/-- A value is read back in front of what stops it. -/
theorem takes_value (wf : e.wellFormed arities scope.vars = true) (stops : Stops 0 c.next) :
    (partsAt nesting height).value.Takes scope (c.before (e.tokens line 0))
      (e.nesting 0 ≤ nesting ∧ e.height 0 ≤ height) (e.resolve scope.vars) scope c :=
  .get (.lifted (takes_expression wf nesting height stops))

variable (line nesting height c) in
/-- A condition is read back. -/
theorem takes_condition (wf : e.wellFormed arities scope.vars = true) :
    (partsAt nesting height).condition.Takes scope (c.before (Named.conditionTokens line e))
      (e.nesting 0 ≤ nesting ∧ e.height 0 ≤ height) (e.resolve scope.vars) scope c := by
  have opening : (sign line "(").Plain := plain_sign (by decide)
  have closing : (sign line ")").Plain := plain_sign (by decide)
  have value := takes_value line nesting height (c.before [sign line ")"]) wf
    (.closing (by decide))
  rw [← Cursor.before_append] at value
  exact .step (run_expect rfl opening) (.followed value (.step (run_expect rfl closing) .pure))

variable (line nesting height c) in
/-- An expression that may be missing, in front of a sign that no expression begins with. -/
theorem takes_valueUnless {e : Option Named.Expr}
    (wf : Named.wellFormedExpr? arities scope.vars e = true) {s : String} (hs : s ∈ notFirst)
    (stops : Stops 0 c.next) (next : c.next.is s = true) :
    ((partsAt nesting height).valueUnless s).Takes scope (c.before (Named.tokensOfExpr? line e))
      (Named.costOfExpr? (Named.Expr.nesting 0) e ≤ nesting ∧
        Named.costOfExpr? (Named.Expr.height 0) e ≤ height)
      (e.map (·.resolve scope.vars)) scope c := by
  cases e with
  | none =>
    refine .step run_sees (.pos next (ScopedParser.Takes.pure.congr ?_))
    exact iff_true_intro ⟨Nat.zero_le _, Nat.zero_le _⟩
  | some e =>
    obtain ⟨t, rest, eq, begins⟩ := exists_first line e 0
    have other : (c.before (e.tokens line 0)).next.is s = false := by
      rw [eq]
      exact begins.text s hs
    refine .step run_sees (.neg (Bool.eq_false_iff.mp other) (.map ?_))
    exact takes_value line nesting height c wf stops

end Values

/-! ## Declarations -/

/-- A declaration opens the next slot, if there is one. -/
theorem takes_declare (line : LineNumber) (name : Named.Name) (scope : Scope) (c : Cursor) :
    (declare (word line name.text)).Takes scope c (scope.slots < maxSlots) scope.slots
      (Named.declared scope name) c := by
  refine .get ?_
  by_cases room : scope.slots < maxSlots
  · refine .neg (Nat.not_le.mpr room) ⟨fun _ => rfl, fun h => absurd room h⟩
  · refine .pos (Nat.le_of_not_lt room) ⟨fun h => absurd h room, fun _ => ⟨_, rfl⟩⟩

section Declarations

variable {line : LineNumber} {arities : Arities} {nesting height : Nat} {c : Cursor}

/-- One declarator, in front of a comma or a semicolon. -/
theorem takes_declarator {d : Named.Declarator} {scope : Scope}
    (wf : Named.wellFormedExpr? arities (Named.declared scope d.name).vars d.init = true)
    {s : String} (hs : s = "," ∨ s = ";") (next : c.next = sign line s) {t : Token}
    {bound : List Token} {read : List Stmt} {fits : Prop} {ds : List Stmt} {scope' : Scope}
    {c' : Cursor}
    (rest : (do
      if ← Parser.accept "," then
        (partsAt nesting height).declarators bound (d.resolve scope :: read)
      else
        Parser.expect ";"
        return (d.resolve scope :: read).reverse : ScopedParser (List Stmt)).Takes
      (Named.declared scope d.name) c fits ds scope' c') :
    ((partsAt nesting height).declarators (t :: bound) read).Takes scope (c.before (d.tokens line))
      (scope.slots < maxSlots ∧ (Named.costOfExpr? (Named.Expr.nesting 0) d.init ≤ nesting ∧
        Named.costOfExpr? (Named.Expr.height 0) d.init ≤ height) ∧ fits) ds scope' c' := by
  obtain ⟨name, init⟩ := d
  have stays : ∀ (ts : List Token) (c : Cursor),
      (Parser.skipWhile (·.is "*")).run (c.before (word line name.text :: ts)) =
        .ok ((), c.before (word line name.text :: ts)) := fun ts c =>
    run_skipWhile (is_name line name (by decide)) nofun
  have closing : Stops 0 c.next := by
    rw [next]
    exact .closing (by rcases hs with rfl | rfl <;> decide)
  rw [Parts.declarators_cons, Parts.declarator_bind]
  cases init with
  | none =>
    have noArray : c.next.is "[" = false := by
      rw [next]
      rcases hs with rfl | rfl <;> rfl
    have noInit : c.next.is "=" = false := by
      rw [next]
      rcases hs with rfl | rfl <;> rfl
    refine .step (stays _ _) (.step (run_name line name) (.step run_sees
      (.neg (Bool.eq_false_iff.mp noArray) ?_)))
    refine .chained (takes_declare line name scope _) fun _ => ?_
    refine .step (run_accept_of_not noInit) (.neg Bool.false_ne_true ?_)
    refine .chained (ScopedParser.Takes.pure.congr ?_) fun _ => rest
    exact iff_true_intro ⟨Nat.zero_le _, Nat.zero_le _⟩
  | some e =>
    have equals : (sign line "=").Plain := plain_sign (by decide)
    refine .step (stays _ _) (.step (run_name line name) (.step run_sees
      (.neg Bool.false_ne_true ?_)))
    refine .chained (takes_declare line name scope _) fun _ => ?_
    refine .step (run_accept rfl equals) (.pos rfl ?_)
    exact .chained (.map (takes_value line nesting height c wf closing)) fun _ => rest

/-- The declarators of a declaration, each of which takes a token. -/
theorem takes_declarators {d : Named.Declarator} {ds : List Named.Declarator} {scope : Scope}
    (wf : Named.wellFormedDeclarators arities scope (d :: ds) = true)
    {bound : List Token} (room : ds.length < bound.length) (read : List Stmt) :
    ((partsAt nesting height).declarators bound read).Takes scope
      (c.before (separated line ";" ((d :: ds).map (·.tokens line))))
      (Named.costOfDeclarators (Named.Expr.nesting 0) (d :: ds) ≤ nesting ∧
        Named.costOfDeclarators (Named.Expr.height 0) (d :: ds) ≤ height ∧
          (Named.afterDeclarators scope (d :: ds)).slots ≤ maxSlots)
      (read.reverse ++ Named.resolveDeclarators scope (d :: ds))
      (Named.afterDeclarators scope (d :: ds)) c := by
  induction ds generalizing d scope bound read with
  | nil =>
    have closing : (sign line ";").Plain := plain_sign (by decide)
    cases bound with
    | nil => exact absurd room (Nat.not_lt_zero _)
    | cons t bound =>
      rw [List.map_cons, List.map_nil, separated, Cursor.before_append]
      have value : (d.resolve scope :: read).reverse =
          read.reverse ++ Named.resolveDeclarators scope [d] := by
        rw [List.reverse_cons]
        rfl
      rw [← value]
      refine .congr (takes_declarator (Bool.and_eq_true_iff.mp wf).1 (.inr rfl) rfl
        (.step (run_accept_of_not rfl) (.neg Bool.false_ne_true
          (.step (run_expect rfl closing) .pure)))) ?_
      simp only [Named.costOfDeclarators, Named.afterDeclarators, Named.declared, and_true]
      omega
  | cons d' ds ih =>
    have comma : (sign line ",").Plain := plain_sign (by decide)
    cases bound with
    | nil => exact absurd room (Nat.not_lt_zero _)
    | cons t bound =>
      have rest :=
        ih (Bool.and_eq_true_iff.mp wf).2 (Nat.lt_of_succ_lt_succ room) (d.resolve scope :: read)
      rw [List.reverse_cons, List.append_assoc] at rest
      rw [List.map_cons, List.map_cons, separated, Cursor.before_append]
      refine .congr (takes_declarator (Bool.and_eq_true_iff.mp wf).1 (.inl rfl) rfl
        (.step (run_accept rfl comma) (.pos rfl rest))) ?_
      have grows := slots_le_afterDeclarators (d' :: ds) (Named.declared scope d.name)
      have one : (Named.declared scope d.name).slots = scope.slots + 1 := rfl
      simp only [Named.costOfDeclarators, Named.afterDeclarators] at grows ⊢
      omega

/-- Declarators begin with a name. -/
theorem exists_declarators (line : LineNumber) (d : Named.Declarator) (ds : List Named.Declarator) :
    ∃ rest, separated line ";" ((d :: ds).map (·.tokens line)) = word line d.name.text :: rest := by
  obtain ⟨name, init⟩ := d
  cases ds with
  | nil => cases init <;> exact ⟨_, rfl⟩
  | cons d' ds => cases init <;> exact ⟨_, rfl⟩

/-- A name is no word of a type. -/
theorem isTypeWord_name (line : LineNumber) (name : Named.Name) :
    isTypeWord (word line name.text) = false := by
  have none : ∀ s ∈ typeWords, Named.isNameText s = false := by decide
  refine List.any_eq_false.mpr fun s mem => ?_
  rw [is_name line name (none s mem)]
  exact Bool.false_ne_true

/-- The word of a type is passed over. -/
theorem run_skipType (line : LineNumber) (name : Named.Name) (ts : List Token) (c : Cursor) :
    (Parser.skipWhile isTypeWord).run (c.before (word line "int" :: word line name.text :: ts)) =
      .ok ((), c.before (word line name.text :: ts)) := by
  have skips : (word line "int" :: word line name.text :: ts ++ c.ahead).dropWhile isTypeWord =
      word line name.text :: ts ++ c.ahead := by
    rw [List.cons_append, List.dropWhile_cons_of_pos rfl, List.cons_append,
      List.dropWhile_cons_of_neg (Bool.eq_false_iff.mp (isTypeWord_name line name))]
  show Except.ok ((), (⟨_, c.depth⟩ : Cursor)) = _
  rw [Cursor.before, skips]
  rfl

/-- A declaration is read back. -/
theorem takes_declaration {d : Named.Declaration} {scope : Scope}
    (wf : d.wellFormed arities scope = true) :
    (partsAt nesting height).declaration.Takes scope (c.before (d.tokens line))
      (d.cost (Named.Expr.nesting 0) ≤ nesting ∧ d.cost (Named.Expr.height 0) ≤ height ∧
        (d.after scope).slots ≤ maxSlots)
      (d.resolve scope) (d.after scope) c := by
  obtain ⟨first, others⟩ := d
  obtain ⟨rest, eq⟩ := exists_declarators line first others
  have skips := run_skipType line first.name rest c
  rw [← eq] at skips
  refine .step skips (.step run_get ?_)
  refine .followed (takes_declarators wf ?_ []) ?_
  · have longer := length_separated line ";" ((first :: others).map (·.tokens line))
    rw [List.length_map, List.length_cons] at longer
    rw [Cursor.before, List.length_append]
    exact Nat.lt_of_lt_of_le longer (Nat.le_add_right _ _)
  · cases others with
    | nil => exact .pure
    | cons d ds => exact .pure

/-- What begins an expression is no word of a type. -/
theorem Begins.isTypeWord_eq {t : Token} (h : Begins t) : isTypeWord t = false :=
  List.any_eq_false.mpr fun s mem => Bool.eq_false_iff.mp
    (h.text s (List.mem_append_right _ (List.mem_append_left _ mem)))

variable (line nesting height c) in
/-- The first part of a loop's header is read back. -/
theorem takes_start {start : Named.Start} {scope : Scope}
    (wf : start.wellFormed arities scope = true) (room : scope.slots ≤ maxSlots) :
    (partsAt nesting height).forInit.Takes scope (c.before (start.tokens line))
      (start.cost (Named.Expr.nesting 0) ≤ nesting ∧ start.cost (Named.Expr.height 0) ≤ height ∧
        (start.after scope).slots ≤ maxSlots)
      (start.resolve scope) (start.after scope) c := by
  have semicolon : (sign line ";").Plain := plain_sign (by decide)
  cases start with
  | nothing =>
    refine .step (run_accept rfl semicolon) (.pos rfl (ScopedParser.Takes.pure.congr ?_))
    exact iff_true_intro ⟨Nat.zero_le _, Nat.zero_le _, room⟩
  | expr e =>
    obtain ⟨t, rest, eq, begins⟩ := exists_first line e 0
    have value := takes_value line nesting height (c.before [sign line ";"]) wf
      (.closing (by decide))
    have first : (c.before (Named.Start.tokens line (.expr e))).next = t := by
      rw [Named.Start.tokens, eq]
      rfl
    have notEmpty : t.is ";" = false := begins.text ";" (by decide)
    have notType := begins.isTypeWord_eq
    rw [← first] at notEmpty notType
    refine .step (run_accept_of_not notEmpty) (.neg Bool.false_ne_true (.step run_peek
      (.neg (Bool.eq_false_iff.mp notType) ?_)))
    rw [Named.Start.tokens, Cursor.before_append]
    refine .congr (.followed value (.step (run_expect rfl semicolon) .pure)) ?_
    exact and_congr_right' (and_iff_left room)
  | decl d =>
    refine .step (run_accept_of_not rfl) (.neg Bool.false_ne_true (.step run_peek (.pos rfl ?_)))
    exact .map (takes_declaration wf)

end Declarations

/-! ## Statements -/

/-- A printed statement begins with a token that neither closes a block nor goes on a conditional.
-/
theorem exists_first_stmt (line : LineNumber) (s : Named.Stmt) :
    ∃ t rest, s.tokens line = t :: rest ∧
    t.kind ≠ .eof ∧ t.is "\x7d" = false ∧ t.is "else" = false := by
  cases s with
  | expr e =>
    obtain ⟨t, rest, eq, begins⟩ := exists_first line e 0
    refine ⟨t, rest ++ [sign line ";"], ?_, begins.notEnd, begins.text _ (by decide),
      begins.text _ (by decide)⟩
    rw [Named.Stmt.tokens, eq]
    rfl
  | _ => exact ⟨_, _, rfl, Token.Kind.noConfusion, rfl, rfl⟩

/-- Reading a statement takes its tokens if the limits allow it, and fails otherwise. -/
def Reads (line : LineNumber) (arities : Arities) (s : Named.Stmt) : Prop :=
  ∀ (nesting height : Nat) (inLoop : Bool) (scope : Scope) (c : Cursor),
    s.wellFormed arities inLoop scope = true → scope.slots ≤ maxSlots →
    (s.endsOpen = true → c.next.is "else" = false) →
    (statement nesting height inLoop).Takes scope (c.before (s.tokens line))
      (s.cost (Named.Expr.nesting 0) ≤ nesting ∧ s.cost (Named.Expr.height 0) ≤ height ∧
        (s.after scope).slots ≤ maxSlots)
      (s.resolve scope) (s.after scope) c

section Statements

variable {line : LineNumber} {arities : Arities} {nesting height : Nat} {inLoop : Bool}
    {scope : Scope}
  {c : Cursor}

/-- Every statement takes one off what is left. -/
theorem reads_of_inside {s : Named.Stmt}
    (inside : ∀ (nesting height : Nat) (inLoop : Bool) (scope : Scope) (c : Cursor),
      s.wellFormed arities inLoop scope = true → scope.slots ≤ maxSlots →
      (s.endsOpen = true → c.next.is "else" = false) →
      ((partsAt nesting height).statement inLoop).Takes scope (c.before (s.tokens line))
        (s.cost (Named.Expr.nesting 0) ≤ nesting + 1 ∧ s.cost (Named.Expr.height 0) ≤ height + 1 ∧
          (s.after scope).slots ≤ maxSlots)
        (s.resolve scope) (s.after scope) c) :
    Reads line arities s := by
  have least : ∀ ofExpr, 0 < s.cost ofExpr := fun ofExpr => by
    cases s <;> simp only [Named.Stmt.cost, Nat.zero_lt_succ]
  intro nesting height inLoop scope c wf room follow
  have depth := least (Named.Expr.nesting 0)
  have tall := least (Named.Expr.height 0)
  cases nesting with
  | zero => exact .fail (by omega)
  | succ nesting =>
    cases height with
    | zero => exact .fail (by omega)
    | succ height => exact inside nesting height inLoop scope c wf room follow

/-- Statements do not begin with `else`, unless there are none and `else` stands behind them. -/
theorem next_tokensOfStmts (ss : List Named.Stmt) (h : c.next.is "else" = false) :
    (c.before (Named.tokensOfStmts line ss)).next.is "else" = false := by
  cases ss with
  | nil => exact h
  | cons s ss =>
    obtain ⟨t, rest, eq, -, -, noElse⟩ := exists_first_stmt line s
    rw [Named.tokensOfStmts, eq]
    exact noElse

variable (nesting height) in
/-- The statements of a block, each of which takes a token. -/
theorem takes_statements {ss : List Named.Stmt} (reads : ∀ s ∈ ss, Reads line arities s)
    (wf : Named.wellFormedStmts arities inLoop scope ss = true) (room : scope.slots ≤ maxSlots)
    {bound : List Token} (long : ss.length ≤ bound.length) (read : List Stmt)
    (closing : c.next.is "\x7d" = true) (noElse : c.next.is "else" = false) :
    ((partsAt nesting height).statements inLoop bound read).Takes scope
      (c.before (Named.tokensOfStmts line ss))
      (Named.costOfStmts (Named.Expr.nesting 0) ss ≤ nesting ∧
        Named.costOfStmts (Named.Expr.height 0) ss ≤ height ∧
          (Named.afterStmts scope ss).slots ≤ maxSlots)
      (read.reverse ++ Named.resolveStmts scope ss) (Named.afterStmts scope ss) c := by
  induction ss generalizing scope bound read with
  | nil =>
    rw [Parts.statements]
    refine .step run_sees (.pos closing ?_)
    rw [Named.resolveStmts, List.append_nil]
    refine ScopedParser.Takes.pure.congr (iff_true_intro ⟨Nat.zero_le _, Nat.zero_le _, room⟩)
  | cons s ss ih =>
    obtain ⟨t, rest, eq, notEnd, notClosing, -⟩ := exists_first_stmt line s
    cases bound with
    | nil => exact absurd long (Nat.not_succ_le_zero _)
    | cons t' bound =>
      obtain ⟨first, others⟩ := Bool.and_eq_true_iff.mp wf
      have next : (c.before (Named.tokensOfStmts line (s :: ss))).next = t := by
        rw [Named.tokensOfStmts, eq]
        rfl
      have goesOn : (c.before (Named.tokensOfStmts line (s :: ss))).atEnd = false := by
        rw [Cursor.atEnd, next]
        exact beq_false_of_ne notEnd
      rw [← next] at notClosing
      have one := reads s List.mem_cons_self nesting height inLoop scope
        (c.before (Named.tokensOfStmts line ss)) first room fun _ => next_tokensOfStmts ss noElse
      rw [Parts.statements]
      refine .step run_sees (.neg (Bool.eq_false_iff.mp notClosing) (.step run_get
        (.neg (Bool.eq_false_iff.mp goesOn) ?_)))
      have value : (s.resolve scope :: read).reverse ++ Named.resolveStmts (s.after scope) ss =
          read.reverse ++ Named.resolveStmts scope (s :: ss) := by
        rw [List.reverse_cons, List.append_assoc]
        rfl
      rw [Named.tokensOfStmts, Cursor.before_append, ← value]
      refine .congr (.chained one fun fits => ih (fun s mem => reads s (List.mem_cons_of_mem _ mem))
        others fits.2.2 (Nat.le_of_succ_le_succ long) (s.resolve scope :: read)) ?_
      have grows := slots_le_afterStmts ss (s.after scope)
      simp only [Named.costOfStmts, Named.afterStmts]
      omega

/-- Statements are no longer than their tokens. -/
theorem length_tokensOfStmts (line : LineNumber) (ss : List Named.Stmt) :
    ss.length ≤ (Named.tokensOfStmts line ss).length := by
  induction ss with
  | nil => exact Nat.le_refl _
  | cons s ss ih =>
    obtain ⟨t, rest, eq, -⟩ := exists_first_stmt line s
    rw [Named.tokensOfStmts, eq, List.cons_append, List.length_cons, List.length_cons,
      List.length_append]
    omega

/-- An opening brace is taken. -/
theorem run_opening {ts : List Token} :
    (Parser.expect "\x7b").run (c.before (sign line "\x7b" :: ts)) = .ok ((), c.inside.before ts) :=
  rfl

/-- A closing brace is taken. -/
theorem run_closing :
    (Parser.expect "\x7d").run (c.inside.before [sign line "\x7d"]) = .ok ((), c) :=
  rfl

/-- The tokens of a block with its braces. -/
def blockTokens (line : LineNumber) (ss : List Named.Stmt) : List Token :=
  sign line "\x7b" :: (Named.tokensOfStmts line ss ++ [sign line "\x7d"])

variable (nesting height) in
/-- A block is read back, if its statements are. -/
theorem takes_block {ss : List Named.Stmt} (reads : ∀ s ∈ ss, Reads line arities s)
    (wf : Named.wellFormedStmts arities inLoop scope ss = true) (room : scope.slots ≤ maxSlots) :
    ((partsAt nesting height).block inLoop).Takes scope (c.before (blockTokens line ss))
      (Named.costOfStmts (Named.Expr.nesting 0) ss ≤ nesting ∧
        Named.costOfStmts (Named.Expr.height 0) ss ≤ height ∧
          (Named.afterStmts scope ss).slots ≤ maxSlots)
      (Named.resolveStmts scope ss) { Named.afterStmts scope ss with vars := scope.vars } c := by
  have long : ss.length ≤
      (c.inside.before (Named.tokensOfStmts line ss ++ [sign line "\x7d"])).ahead.length := by
    have least := length_tokensOfStmts line ss
    rw [Cursor.before, List.length_append, List.length_append]
    omega
  have inside :=
    takes_statements nesting height (c := c.inside.before [sign line "\x7d"]) reads wf room
    long [] rfl rfl
  rw [← Cursor.before_append] at inside
  refine .step run_opening (.inBlock (.step run_get ?_))
  exact .followed inside (.step run_closing .pure)

/-! ### The first token -/

/-- The statements that their first token tells, each with its parser behind that token, in the
order in which the tokens are tried. -/
def announced (parts : Parts) (inLoop : Bool) : List (String × ScopedParser Stmt) :=
  [(";", pure .empty), ("return", parts.ret), ("if", parts.ifElse inLoop),
    ("while", parts.whileLoop), ("do", parts.doWhile), ("for", parts.forLoop)]

/-- The parser of the first entry whose token is next, or another one if there is none. -/
def acceptedElse (others : ScopedParser Stmt) :
    List (String × ScopedParser Stmt) → ScopedParser Stmt
  | [] => others
  | (s, behind) :: table => do
    if ← Parser.accept s then behind else acceptedElse others table

/-- A statement that no token of the table announces. -/
def unannounced (parts : Parts) (inLoop : Bool) (t : Token) : ScopedParser Stmt :=
  if t.is "break" then Parts.jump inLoop .breakLoop
  else if t.is "continue" then Parts.jump inLoop .continueLoop
  else do
    Parser.refuseUnsupported
    let e ← parts.value
    Parser.expect ";"
    return .expr e

/-- A statement is read by the word it begins with. -/
theorem statement_eq (parts : Parts) (inLoop : Bool) : parts.statement inLoop = (do
    let t ← Parser.peek
    if t.kind = .error then Parser.fail (.marker t.text)
    else if t.is "\x7b" then return .block (← parts.block inLoop)
    else if isTypeWord t then parts.declaration
    else acceptedElse (unannounced parts inLoop t) (announced parts inLoop)) := rfl

section Table

variable {table : List (String × ScopedParser Stmt)} {others : ScopedParser Stmt} {t : Token}
  {ts : List Token} {fits : Prop} {value : Stmt} {scope' : Scope} {c' : Cursor}

/-- The first entry that the next token is decides, whatever stands behind it in the table. -/
theorem takes_acceptedElse {entry : String × ScopedParser Stmt}
    (found : (table.find? fun entry => t.is entry.1) = some entry) (plain : t.Plain)
    (behind : entry.2.Takes scope (c.before ts) fits value scope' c') :
    (acceptedElse others table).Takes scope (c.before (t :: ts)) fits value scope' c' := by
  induction table with
  | nil => cases found
  | cons first table ih =>
    rw [List.find?_cons] at found
    cases is : t.is first.1 with
    | true =>
      rw [is] at found
      cases found
      exact .step (run_accept is plain) (.pos rfl behind)
    | false =>
      rw [is] at found
      exact .step (run_accept_of_not is) (.neg nofun (ih found))

/-- Without such a word it is read as what has none. -/
theorem takes_acceptedElse_of_none (none : (table.find? fun entry => c.next.is entry.1) = none)
    (rest : others.Takes scope c fits value scope' c') :
    (acceptedElse others table).Takes scope c fits value scope' c' := by
  induction table with
  | nil => exact rest
  | cons first table ih =>
    rw [List.find?_cons] at none
    cases is : c.next.is first.1 with
    | true =>
      rw [is] at none
      cases none
    | false =>
      rw [is] at none
      exact .step (run_accept_of_not is) (.neg nofun (ih none))

end Table

variable {fits : Prop} {value : Stmt} {scope' : Scope} {c' : Cursor}

/-- A statement that is neither a block nor a declaration. -/
theorem takes_statement {parts : Parts} (kind : c.next.kind ≠ .error)
    (brace : c.next.is "\x7b" = false) (type : isTypeWord c.next = false)
    (rest : (acceptedElse (unannounced parts inLoop c.next) (announced parts inLoop)).Takes scope c
      fits value scope' c') :
    (parts.statement inLoop).Takes scope c fits value scope' c' := by
  rw [statement_eq]
  exact .step run_peek (.neg kind (.neg (Bool.eq_false_iff.mp brace)
    (.neg (Bool.eq_false_iff.mp type) rest)))

/-- A word or a sign of the table tells the statement. -/
theorem takes_announced {parts : Parts} {t : Token} {ts : List Token}
    {entry : String × ScopedParser Stmt}
    (found : ((announced parts inLoop).find? fun entry => t.is entry.1) = some entry)
    (plain : t.Plain) (kind : t.kind ≠ .error) (type : isTypeWord t = false)
    (behind : entry.2.Takes scope (c.before ts) fits value scope' c') :
    (parts.statement inLoop).Takes scope (c.before (t :: ts)) fits value scope' c' :=
  takes_statement kind plain.opening type (takes_acceptedElse found plain behind)

/-- A jump reads its word itself. -/
theorem takes_jump {parts : Parts} {s : Stmt} {w : String} (plain : (word line w).Plain)
    (none : ((announced parts true).find? fun entry => (word line w).is entry.1) = none)
    (type : isTypeWord (word line w) = false)
    (jump : unannounced parts true (word line w) = Parts.jump true s) :
    (parts.statement true).Takes scope (c.before [word line w, sign line ";"]) True s scope c := by
  have semicolon : (sign line ";").Plain := plain_sign (by decide)
  refine takes_statement Token.Kind.noConfusion plain.opening type
    (takes_acceptedElse_of_none none ?_)
  rw [Cursor.next_before, jump]
  exact .step (run_advance plain) (.neg nofun (.step (run_expect rfl semicolon) .pure))

/-! ### One by one -/

/-- A block is read back. -/
theorem reads_block {ss : List Named.Stmt} (reads : ∀ s ∈ ss, Reads line arities s) :
    Reads line arities (.block ss) := by
  refine reads_of_inside fun nesting height inLoop scope c wf room _ => ?_
  refine .congr
    (.step run_peek
      (.neg nofun (.pos rfl (.followed (takes_block nesting height reads wf room) .pure)))) ?_
  simp only [Named.Stmt.cost, Nat.succ_le_succ_iff, Named.Stmt.after]

/-- A declaration is read back. -/
theorem reads_decl (d : Named.Declaration) : Reads line arities (.decl d) := by
  refine reads_of_inside fun nesting height inLoop scope c wf room _ => ?_
  refine .congr (.step run_peek (.neg nofun (.neg nofun (.pos rfl (takes_declaration wf))))) ?_
  simp only [Named.Stmt.cost, Nat.succ_le_succ_iff]
  rfl

/-- The empty statement is read back. -/
theorem reads_empty : Reads line arities .empty := by
  refine reads_of_inside fun nesting height inLoop scope c wf room _ => ?_
  have semicolon : (sign line ";").Plain := plain_sign (by decide)
  refine (takes_announced rfl semicolon nofun rfl .pure).congr ?_
  exact iff_true_intro ⟨Nat.le_add_left _ _, Nat.le_add_left _ _, room⟩

/-- An expression is read back as a statement. -/
theorem reads_expr (e : Named.Expr) : Reads line arities (.expr e) := by
  refine reads_of_inside fun nesting height inLoop scope c wf room _ => ?_
  obtain ⟨t, rest, eq, begins⟩ := exists_first line e 0
  have semicolon : (sign line ";").Plain := plain_sign (by decide)
  have value := takes_value line nesting height (c.before [sign line ";"]) wf
    (.closing (by decide))
  have next : (c.before (Named.Stmt.tokens line (.expr e))).next = t := by
    rw [Named.Stmt.tokens, eq]
    rfl
  have noWord :
      ∀ s ∈ notFirst, (c.before (Named.Stmt.tokens line (.expr e))).next.is s = false := by
    rw [next]
    exact begins.text
  have noMarker := begins.notMarker
  have noType := begins.isTypeWord_eq
  have supported : Parser.refuseUnsupported.run (c.before (Named.Stmt.tokens line (.expr e))) =
      .ok ((), c.before (Named.Stmt.tokens line (.expr e))) := by
    have none : unsupportedWord? (c.before (Named.Stmt.tokens line (.expr e))).next = none := by
      refine List.find?_eq_none.mpr fun s mem => Bool.eq_false_iff.mp (noWord s ?_)
      exact List.mem_append_right _ (List.mem_append_right _ (List.mem_append_right _ mem))
    rw [Parser.refuseUnsupported, StateT.run_bind, run_peek]
    dsimp only [bind, Except.bind]
    rw [none]
    rfl
  rw [← next] at noMarker noType
  have none : ((announced (partsAt nesting height) inLoop).find? fun entry =>
      (c.before (Named.Stmt.tokens line (.expr e))).next.is entry.1) = none := by
    refine List.find?_eq_none.mpr fun entry mem => Bool.eq_false_iff.mp (noWord entry.1 ?_)
    have texts : ∀ s ∈ [";", "return", "if", "while", "do", "for"], s ∈ notFirst := by decide
    exact texts _ (List.mem_map_of_mem mem)
  have fits : ((Named.Stmt.expr e).cost (Named.Expr.nesting 0) ≤ nesting + 1 ∧
      (Named.Stmt.expr e).cost (Named.Expr.height 0) ≤ height + 1 ∧ scope.slots ≤ maxSlots) ↔
      e.nesting 0 ≤ nesting ∧ e.height 0 ≤ height := by
    simp only [Named.Stmt.cost, Nat.succ_le_succ_iff, room, and_true]
  refine .congr ?_ fits
  refine takes_statement noMarker (noWord "\x7b" (by decide)) noType
    (takes_acceptedElse_of_none none ?_)
  refine .neg (Bool.eq_false_iff.mp (noWord "break" (by decide)))
    (.neg (Bool.eq_false_iff.mp (noWord "continue" (by decide))) ?_)
  refine .step supported ?_
  rw [Named.Stmt.tokens, Cursor.before_append]
  exact .followed value (.step (run_expect rfl semicolon) .pure)

/-- A return is read back. -/
theorem reads_ret (value : Option Named.Expr) : Reads line arities (.ret value) := by
  refine reads_of_inside fun nesting height inLoop scope c wf room _ => ?_
  have first : (word line "return").Plain := plain_word (by decide)
  have semicolon : (sign line ";").Plain := plain_sign (by decide)
  have start : ((partsAt nesting height).ret).Takes scope
      (c.before (Named.tokensOfExpr? line value ++ [sign line ";"]))
      (Named.costOfExpr? (Named.Expr.nesting 0) value ≤ nesting ∧
        Named.costOfExpr? (Named.Expr.height 0) value ≤ height)
      (.ret (value.map (·.resolve scope.vars))) scope c := by
    cases value with
    | none =>
      refine .step (run_accept rfl semicolon) (.pos rfl (ScopedParser.Takes.pure.congr ?_))
      exact iff_true_intro ⟨Nat.zero_le _, Nat.zero_le _⟩
    | some e =>
      obtain ⟨t, rest, eq, begins⟩ := exists_first line e 0
      have value := takes_value line nesting height (c.before [sign line ";"]) wf
        (.closing (by decide))
      have noSemicolon : (c.before (e.tokens line 0 ++ [sign line ";"])).next.is ";" = false := by
        rw [eq]
        exact begins.text ";" (by decide)
      refine .step (run_accept_of_not noSemicolon) (.neg Bool.false_ne_true ?_)
      rw [← Cursor.before_append] at value
      exact .followed value (.step (run_expect rfl semicolon) .pure)
  refine (takes_announced rfl first nofun rfl start).congr ?_
  simp only [Named.Stmt.cost, Nat.succ_le_succ_iff, Named.Stmt.after, room, and_true]

/-- A conditional is read back, an `else` going with its own `if` -/
theorem reads_ifElse {cond : Named.Expr} {yes : Named.Stmt} {no : Option Named.Stmt}
    (hyes : Reads line arities yes) (hno : ∀ s ∈ no, Reads line arities s) :
    Reads line arities (.ifElse cond yes no) := by
  refine reads_of_inside fun nesting height inLoop scope c wf room follow => ?_
  have first : (word line "if").Plain := plain_word (by decide)
  obtain ⟨wf, wfNo⟩ := Bool.and_eq_true_iff.mp wf
  obtain ⟨wf, closed⟩ := Bool.and_eq_true_iff.mp wf
  obtain ⟨wfCond, wfYes⟩ := Bool.and_eq_true_iff.mp wf
  have test := takes_condition line nesting height
    ((c.before (Named.tokensOfElse line no)).before (yes.tokens line)) wfCond
  have behind : yes.endsOpen = true → (c.before (Named.tokensOfElse line no)).next.is "else" =
      false := by
    intro isOpen
    cases no with
    | none => exact follow rfl
    | some s =>
      rw [isOpen] at closed
      exact absurd closed Bool.false_ne_true
  have branch := hyes nesting height inLoop scope _ wfYes room behind
  have other : (yes.after scope).slots ≤ maxSlots →
      ((do
        let no ← if ← Parser.accept "else" then
            some <$> (partsAt nesting height).inner inLoop
          else pure none
        return .ifElse (cond.resolve scope.vars) (yes.resolve scope) no : ScopedParser Stmt).Takes
        (yes.after scope) (c.before (Named.tokensOfElse line no))
        (Named.costOfStmt? (Named.Expr.nesting 0) no ≤ nesting ∧
          Named.costOfStmt? (Named.Expr.height 0) no ≤ height ∧
            (Named.afterStmt? (yes.after scope) no).slots ≤ maxSlots)
        ((Named.Stmt.ifElse cond yes no).resolve scope) (Named.afterStmt? (yes.after scope) no)
        c) := by
    intro room
    cases no with
    | none =>
      refine .step (run_accept_of_not (follow rfl)) (.neg nofun ?_)
      refine .followed (ScopedParser.Takes.pure.congr ?_) .pure
      exact iff_true_intro ⟨Nat.zero_le _, Nat.zero_le _, room⟩
    | some s =>
      have word : (word line "else").Plain := plain_word (by decide)
      have inside := hno s rfl nesting height inLoop (yes.after scope) c wfNo room follow
      exact .step (run_accept rfl word) (.pos rfl (.followed (.map inside) .pure))
  have fits : ((Named.Stmt.ifElse cond yes no).cost (Named.Expr.nesting 0) ≤ nesting + 1 ∧
      (Named.Stmt.ifElse cond yes no).cost (Named.Expr.height 0) ≤ height + 1 ∧
        (Named.afterStmt? (yes.after scope) no).slots ≤ maxSlots) ↔
      (cond.nesting 0 ≤ nesting ∧ cond.height 0 ≤ height) ∧
        (yes.cost (Named.Expr.nesting 0) ≤ nesting ∧ yes.cost (Named.Expr.height 0) ≤ height ∧
          (yes.after scope).slots ≤ maxSlots) ∧
        Named.costOfStmt? (Named.Expr.nesting 0) no ≤ nesting ∧
          Named.costOfStmt? (Named.Expr.height 0) no ≤ height ∧
            (Named.afterStmt? (yes.after scope) no).slots ≤ maxSlots := by
    have grows := slots_le_afterStmt? no (yes.after scope)
    simp only [Named.Stmt.cost, Nat.succ_le_succ_iff, Nat.max_le]
    omega
  refine .congr (takes_announced rfl first nofun rfl ?_) fits
  rw [Cursor.before_append, Cursor.before_append]
  exact .chained test fun _ => .chained branch fun fits => other fits.2.2

/-- A loop is read back. -/
theorem reads_whileLoop {cond : Named.Expr} {body : Named.Stmt} (hbody : Reads line arities body) :
    Reads line arities (.whileLoop cond body) := by
  refine reads_of_inside fun nesting height inLoop scope c wf room follow => ?_
  have first : (word line "while").Plain := plain_word (by decide)
  obtain ⟨wfCond, wfBody⟩ := Bool.and_eq_true_iff.mp wf
  have test := takes_condition line nesting height (c.before (body.tokens line)) wfCond
  have inside := hbody nesting height true scope c wfBody room follow
  rw [← Cursor.before_append] at test
  have fits : ((Named.Stmt.whileLoop cond body).cost (Named.Expr.nesting 0) ≤ nesting + 1 ∧
      (Named.Stmt.whileLoop cond body).cost (Named.Expr.height 0) ≤ height + 1 ∧
        (body.after scope).slots ≤ maxSlots) ↔
      (cond.nesting 0 ≤ nesting ∧ cond.height 0 ≤ height) ∧
        body.cost (Named.Expr.nesting 0) ≤ nesting ∧ body.cost (Named.Expr.height 0) ≤ height ∧
          (body.after scope).slots ≤ maxSlots := by
    simp only [Named.Stmt.cost, Nat.succ_le_succ_iff, Nat.max_le]
    omega
  refine .congr (takes_announced rfl first nofun rfl ?_) fits
  exact .chained test fun _ => .followed inside .pure

/-- As `reads_whileLoop`, the condition being printed last. -/
theorem reads_doWhile {body : Named.Stmt} {cond : Named.Expr} (hbody : Reads line arities body) :
    Reads line arities (.doWhile body cond) := by
  refine reads_of_inside fun nesting height inLoop scope c wf room _ => ?_
  have first : (word line "do").Plain := plain_word (by decide)
  have second : (word line "while").Plain := plain_word (by decide)
  have semicolon : (sign line ";").Plain := plain_sign (by decide)
  obtain ⟨wfBody, wfCond⟩ := Bool.and_eq_true_iff.mp wf
  have inside := hbody nesting height true scope
    (c.before (word line "while" :: (Named.conditionTokens line cond ++ [sign line ";"]))) wfBody
      room
    fun _ => rfl
  have test := takes_condition line nesting height (c.before [sign line ";"]) wfCond
  have fits : ((Named.Stmt.doWhile body cond).cost (Named.Expr.nesting 0) ≤ nesting + 1 ∧
      (Named.Stmt.doWhile body cond).cost (Named.Expr.height 0) ≤ height + 1 ∧
        (body.after scope).slots ≤ maxSlots) ↔
      (body.cost (Named.Expr.nesting 0) ≤ nesting ∧ body.cost (Named.Expr.height 0) ≤ height ∧
        (body.after scope).slots ≤ maxSlots) ∧ cond.nesting 0 ≤ nesting ∧
        cond.height 0 ≤ height := by
    simp only [Named.Stmt.cost, Nat.succ_le_succ_iff, Nat.max_le]
    omega
  refine .congr (takes_announced rfl first nofun rfl ?_) fits
  rw [Cursor.before_append]
  refine .chained inside fun _ => .step (run_expect rfl second) ?_
  rw [Cursor.before_append]
  exact .followed test (.step (run_expect rfl semicolon) .pure)

/-- As `reads_whileLoop`, with the parts of the header. -/
theorem reads_forLoop {start : Named.Start} {cond step : Option Named.Expr} {body : Named.Stmt}
    (hbody : Reads line arities body) : Reads line arities (.forLoop start cond step body) := by
  refine reads_of_inside fun nesting height inLoop scope c wf room follow => ?_
  have first : (word line "for").Plain := plain_word (by decide)
  have opening : (sign line "(").Plain := plain_sign (by decide)
  have semicolon : (sign line ";").Plain := plain_sign (by decide)
  have closing : (sign line ")").Plain := plain_sign (by decide)
  obtain ⟨wf, wfBody⟩ := Bool.and_eq_true_iff.mp wf
  obtain ⟨wf, wfStep⟩ := Bool.and_eq_true_iff.mp wf
  obtain ⟨wfStart, wfCond⟩ := Bool.and_eq_true_iff.mp wf
  have hbody := fun room => hbody nesting height true (start.after scope) c wfBody room follow
  have hstep := takes_valueUnless line nesting height (c.before (sign line ")" :: body.tokens line))
    wfStep (s := ")") (by decide) (.closing (by decide)) rfl
  have hcond := takes_valueUnless line nesting height (c.before (sign line ";" ::
      (Named.tokensOfExpr? line step ++ sign line ")" :: body.tokens line)))
    wfCond (s := ";") (by decide) (.closing (by decide)) rfl
  have hstart := takes_start line nesting height (c.before (Named.tokensOfExpr? line cond ++
      sign line ";" :: (Named.tokensOfExpr? line step ++ sign line ")" :: body.tokens line)))
    wfStart room
  have fits : ((Named.Stmt.forLoop start cond step body).cost (Named.Expr.nesting 0) ≤ nesting + 1 ∧
      (Named.Stmt.forLoop start cond step body).cost (Named.Expr.height 0) ≤ height + 1 ∧
        (body.after (start.after scope)).slots ≤ maxSlots) ↔
      (start.cost (Named.Expr.nesting 0) ≤ nesting ∧ start.cost (Named.Expr.height 0) ≤ height ∧
        (start.after scope).slots ≤ maxSlots) ∧
      (Named.costOfExpr? (Named.Expr.nesting 0) cond ≤ nesting ∧
        Named.costOfExpr? (Named.Expr.height 0) cond ≤ height) ∧
      (Named.costOfExpr? (Named.Expr.nesting 0) step ≤ nesting ∧
        Named.costOfExpr? (Named.Expr.height 0) step ≤ height) ∧
      body.cost (Named.Expr.nesting 0) ≤ nesting ∧ body.cost (Named.Expr.height 0) ≤ height ∧
        (body.after (start.after scope)).slots ≤ maxSlots := by
    have grows := slots_le_after body (start.after scope)
    simp only [Named.Stmt.cost, Nat.succ_le_succ_iff, Nat.max_le]
    omega
  refine .congr (takes_announced rfl first nofun rfl ?_) fits
  refine .step (run_expect rfl opening) (.inBlock ?_)
  rw [Cursor.before_append]
  refine .chained hstart fun fits => ?_
  rw [Cursor.before_append]
  refine .chained hcond fun _ => .step (run_expect rfl semicolon) ?_
  rw [Cursor.before_append]
  exact .chained hstep fun _ => .step (run_expect rfl closing) (.followed (hbody fits.2.2) .pure)

/-- Leaving a loop is read back inside one. -/
theorem reads_breakLoop : Reads line arities .breakLoop := by
  refine reads_of_inside fun nesting height inLoop scope c wf room _ => ?_
  have first : (word line "break").Plain := plain_word (by decide)
  have inside : inLoop = true := wf
  rw [inside]
  exact (takes_jump first rfl rfl rfl).congr
    (iff_true_intro ⟨Nat.le_add_left _ _, Nat.le_add_left _ _, room⟩)

/-- As `reads_breakLoop`, for its next round. -/
theorem reads_continueLoop : Reads line arities .continueLoop := by
  refine reads_of_inside fun nesting height inLoop scope c wf room _ => ?_
  have first : (word line "continue").Plain := plain_word (by decide)
  have inside : inLoop = true := wf
  rw [inside]
  exact (takes_jump first rfl rfl rfl).congr
    (iff_true_intro ⟨Nat.le_add_left _ _, Nat.le_add_left _ _, room⟩)

end Statements

mutual

/-- Every statement can be read. -/
theorem reads (line : LineNumber) (arities : Arities) : ∀ s : Named.Stmt, Reads line arities s
  | .ret value => reads_ret value
  | .expr e => reads_expr e
  | .decl d => reads_decl d
  | .ifElse _ yes no => reads_ifElse (reads line arities yes) (reads_stmt? line arities no)
  | .whileLoop _ body => reads_whileLoop (reads line arities body)
  | .doWhile body _ => reads_doWhile (reads line arities body)
  | .forLoop _ _ _ body => reads_forLoop (reads line arities body)
  | .breakLoop => reads_breakLoop
  | .continueLoop => reads_continueLoop
  | .block ss => reads_block (reads_stmts line arities ss)
  | .empty => reads_empty

/-- A statement that may be missing is read back. -/
theorem reads_stmt? (line : LineNumber) (arities : Arities) :
    ∀ (s? : Option Named.Stmt), ∀ s ∈ s?, Reads line arities s
  | none => nofun
  | some s => fun _ mem => Option.some.inj mem ▸ reads line arities s

/-- Every statement of a list is read back. -/
theorem reads_stmts (line : LineNumber) (arities : Arities) :
    ∀ (ss : List Named.Stmt), ∀ s ∈ ss, Reads line arities s
  | [] => nofun
  | s :: ss => List.forall_mem_cons.mpr ⟨reads line arities s, reads_stmts line arities ss⟩

end

/-- The body of a function. -/
theorem takes_functionBody {line : LineNumber} {arities : Arities} {ss : List Named.Stmt}
    {scope : Scope} {c : Cursor} (wf : Named.wellFormedStmts arities false scope ss = true)
    (room : scope.slots ≤ maxSlots) :
    functionBody.Takes scope (c.before (blockTokens line ss))
      (Named.costOfStmts (Named.Expr.nesting 0) ss ≤ maxNesting ∧
        Named.costOfStmts (Named.Expr.height 0) ss ≤ maxHeight ∧
          (Named.afterStmts scope ss).slots ≤ maxSlots)
      (Named.resolveStmts scope ss) { Named.afterStmts scope ss with vars := scope.vars } c :=
  takes_block maxNesting maxHeight (reads_stmts line arities ss) wf room

end BareC.Grammar
