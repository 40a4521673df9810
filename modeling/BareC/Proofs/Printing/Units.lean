import BareC.Proofs.Printing.Statements

/-!
# Reading a printed unit

Reading the tokens of well-formed functions gives these functions back, in their order and with
their names resolved, if none of them hits a limit; otherwise it leaves a diagnostic.

That a printed unit holds no end of a source among its tokens is shown along the trees, so that
reading is not cut short. Prototypes are not printed: a function may call any other of the unit,
which reading does not mind and linking resolves.
-/

namespace BareC

namespace Grammar

open Named (sign word literal separated)

/-! ## The end of the source -/

/-- The end of the source is not among the tokens. -/
def Endless (ts : List Token) : Prop :=
  ∀ t ∈ ts, t.kind ≠ .eof

section Endless

variable {line : LineNumber} {s : String} {ts us : List Token}

@[simp]
theorem endless_nil : Endless [] :=
  List.forall_mem_nil _

@[simp]
theorem endless_append : Endless (ts ++ us) ↔ Endless ts ∧ Endless us :=
  List.forall_mem_append

@[simp]
theorem endless_word : Endless (word line s :: ts) ↔ Endless ts :=
  List.forall_mem_cons.trans (and_iff_right Token.Kind.noConfusion)

@[simp]
theorem endless_sign : Endless (sign line s :: ts) ↔ Endless ts :=
  List.forall_mem_cons.trans (and_iff_right Token.Kind.noConfusion)

@[simp]
theorem endless_literal {v : Word} : Endless [literal line v] :=
  List.forall_mem_singleton.mpr Token.Kind.noConfusion

/-- Parentheses hold no end of a source. -/
@[simp]
theorem endless_inParens {required : Bool} :
    Endless (Named.inParens line required ts) ↔ Endless ts := by
  cases required <;> simp [Named.inParens]

/-- Separators hold no end of a source. -/
@[simp]
theorem endless_separated {tss : List (List Token)} :
    Endless (separated line s tss) ↔ ∀ ts ∈ tss, Endless ts := by
  fun_induction separated line s tss with
  | case1 => simp
  | case2 ts => simp
  | case3 ts us tss ih => simp only [endless_append, endless_sign, ih, List.forall_mem_cons]

mutual

/-- A printed expression holds no end of a source. -/
theorem endless_expr (line : LineNumber) :
    ∀ (e : Named.Expr) (level : Nat), Endless (e.tokens line level)
  | .num v, _ => by simp [Named.Expr.tokens]
  | .var _, _ => by simp [Named.Expr.tokens]
  | .assign _ e, _ => by simp [Named.Expr.tokens, endless_expr line e]
  | .unary _ e, _ => by simp [Named.Expr.tokens, endless_expr line e]
  | .binary _ l r, _ => by simp [Named.Expr.tokens, endless_expr line l, endless_expr line r]
  | .call _ args, _ => by
    simpa [Named.Expr.tokens] using endless_args line args

/-- As `endless_expr`, for arguments. -/
theorem endless_args (line : LineNumber) :
    ∀ (es : List Named.Expr), ∀ ts ∈ Named.tokensOfArgs line es, Endless ts
  | [] => nofun
  | e :: es => List.forall_mem_cons.mpr ⟨endless_expr line e 0, endless_args line es⟩

end

/-- As `endless_expr`, for an expression that may be missing. -/
@[simp]
theorem endless_expr? (e : Option Named.Expr) : Endless (Named.tokensOfExpr? line e) := by
  cases e with
  | none => exact endless_nil
  | some e => exact endless_expr line e 0

/-- As `endless_expr`, for a condition. -/
@[simp]
theorem endless_condition (e : Named.Expr) : Endless (Named.conditionTokens line e) := by
  simp [Named.conditionTokens, endless_expr]

/-- As `endless_expr`, for a declaration. -/
@[simp]
theorem endless_declaration (d : Named.Declaration) : Endless (d.tokens line) := by
  have one : ∀ d : Named.Declarator, Endless (d.tokens line) := by
    rintro ⟨name, init⟩
    cases init <;> simp [Named.Declarator.tokens, endless_expr]
  simp [Named.Declaration.tokens, one]

/-- As `endless_expr`, for the first part of a loop's header. -/
@[simp]
theorem endless_start (start : Named.Start) : Endless (start.tokens line) := by
  cases start <;> simp [Named.Start.tokens, endless_expr]

mutual

/-- As `endless_expr`, for a statement. -/
theorem endless_stmt (line : LineNumber) : ∀ s : Named.Stmt, Endless (s.tokens line)
  | .ret _ => by simp [Named.Stmt.tokens]
  | .expr _ => by simp [Named.Stmt.tokens, endless_expr]
  | .decl _ => by simp [Named.Stmt.tokens]
  | .ifElse _ yes no => by
    simp [Named.Stmt.tokens, endless_stmt line yes, endless_else line no]
  | .whileLoop _ body => by simp [Named.Stmt.tokens, endless_stmt line body]
  | .doWhile body _ => by simp [Named.Stmt.tokens, endless_stmt line body]
  | .forLoop _ _ _ body => by simp [Named.Stmt.tokens, endless_stmt line body]
  | .breakLoop => by simp [Named.Stmt.tokens]
  | .continueLoop => by simp [Named.Stmt.tokens]
  | .block ss => by simp [Named.Stmt.tokens, endless_stmts line ss]
  | .empty => by simp [Named.Stmt.tokens]

/-- As `endless_stmt`, for the other branch of a conditional. -/
theorem endless_else (line : LineNumber) :
    ∀ s : Option Named.Stmt, Endless (Named.tokensOfElse line s)
  | none => endless_nil
  | some s => endless_word.mpr (endless_stmt line s)

/-- As `endless_stmt`, for a list. -/
theorem endless_stmts (line : LineNumber) :
    ∀ ss : List Named.Stmt, Endless (Named.tokensOfStmts line ss)
  | [] => endless_nil
  | s :: ss => endless_append.mpr ⟨endless_stmt line s, endless_stmts line ss⟩

end

/-- As `endless_expr`, for a function. -/
theorem endless_function (f : Named.Function) : Endless f.tokens := by
  simp [Named.Function.tokens, endless_stmts]

end Endless

/-- The tokens of a unit are read up to their end. -/
theorem cut_tokensOfUnit (fs : List Named.Function) (line first : LineNumber) :
    Cursor.cut first (Named.tokensOfUnit fs line) = Named.tokensOfUnit fs line := by
  have all : ∀ (ts : List Token) (first : LineNumber), Endless ts →
      Cursor.cut first (ts ++ [.endOfSource line]) = ts ++ [.endOfSource line] := by
    intro ts
    induction ts with
    | nil => exact fun _ _ => rfl
    | cons t ts ih =>
      intro first endless
      obtain ⟨one, others⟩ := List.forall_mem_cons.mp endless
      rw [List.cons_append, Cursor.cut, if_neg one, ih t.line others]
  refine all _ first fun t mem => ?_
  obtain ⟨f, -, inside⟩ := List.mem_flatMap.mp mem
  exact endless_function f t inside

/-! ## Functions -/

section Functions

variable {line : LineNumber} {c : Cursor}

/-- The type of what is declared, in front of its name. -/
theorem run_typeName {name : Named.Name} {ts : List Token} :
    typeName.run (c.before (word line "int" :: word line name.text :: ts)) =
      .ok ((), c.before (word line name.text :: ts)) := by
  have skips := run_skipType line name ts c
  have stays : (Parser.skipWhile (·.is "*")).run (c.before (word line name.text :: ts)) =
      .ok ((), c.before (word line name.text :: ts)) :=
    run_skipWhile (is_name line name (by decide)) nofun
  have all : typeName.Takes (c.before (word line "int" :: word line name.text :: ts)) True ()
      (c.before (word line name.text :: ts)) := by
    refine .step run_peek (.neg nofun (.step skips ?_))
    exact ⟨fun _ => stays, fun h => absurd trivial h⟩
  exact all.ok trivial

/-- A parameter is read back. -/
theorem takes_parameter (line : LineNumber) (name : Named.Name) (scope : Scope) {c : Cursor}
    (next : c.next.is "[" = false) :
    parameter.Takes scope (c.before [word line "int", word line name.text])
      (scope.slots < maxSlots) () (Named.declared scope name) c := by
  refine .step run_typeName (.step run_peek (.pos rfl (.step (run_name line name) ?_)))
  refine .step (run_accept_of_not next) (.neg nofun ?_)
  exact .followed (takes_declare line name scope c) .pure

/-- Parameters, of which so many may still come. -/
theorem takes_parameters (line : LineNumber) (p : Named.Name) (ps : List Named.Name) (scope : Scope)
    (left read : Nat) :
    (parameters left read).Takes scope
      (c.before (separated line ")" ((p :: ps).map fun name =>
        [word line "int", word line name.text])))
      ((p :: ps).length ≤ left ∧ scope.slots + (p :: ps).length ≤ maxSlots)
      (read + (p :: ps).length) ((p :: ps).foldl Named.declared scope)
        (c.before [sign line ")"]) := by
  induction ps generalizing p scope left read with
  | nil =>
    have one := takes_parameter line p scope (c := c.before [sign line ")"]) rfl
    have fits : ([p].length ≤ left ∧ scope.slots + [p].length ≤ maxSlots) ↔
        scope.slots < maxSlots ∧ 1 ≤ left := by
      simp only [List.length_cons, List.length_nil]
      omega
    rw [List.map_cons, List.map_nil, separated, Cursor.before_append]
    cases left with
    | zero => exact .congr (.chained one fun _ => .fail (by omega)) fits
    | succ left =>
      refine .congr (.chained one fun _ => ?_) fits
      refine .step (run_accept_of_not rfl)
        (.neg Bool.false_ne_true (ScopedParser.Takes.pure.congr ?_))
      exact iff_true_intro (Nat.le_add_left 1 left)
  | cons q qs ih =>
    have comma : (sign line ",").Plain := plain_sign (by decide)
    have one := takes_parameter line p scope
      (c := c.before (sign line "," :: separated line ")" ((q :: qs).map fun name =>
        [word line "int", word line name.text]))) rfl
    have fits : ((p :: q :: qs).length ≤ left ∧ scope.slots + (p :: q :: qs).length ≤ maxSlots) ↔
        scope.slots < maxSlots ∧ (q :: qs).length ≤ left - 1 ∧
          (Named.declared scope p).slots + (q :: qs).length ≤ maxSlots := by
      simp only [List.length_cons, Named.declared]
      omega
    rw [List.map_cons, List.map_cons, separated, Cursor.before_append]
    cases left with
    | zero => exact .congr (.chained one fun _ => .fail (by simp)) fits
    | succ left =>
      refine .congr (.chained one fun _ => ?_) fits
      have rest := ih q (Named.declared scope p) left (read + 1)
      rw [show read + 1 + (q :: qs).length = read + (p :: q :: qs).length by
        simp only [List.length_cons]; omega] at rest
      exact .step (run_accept rfl comma) (.pos rfl rest)

/-- Each name that is declared opens a slot. -/
theorem slots_foldl_declared (ps : List Named.Name) (scope : Scope) :
    (ps.foldl Named.declared scope).slots = scope.slots + ps.length := by
  induction ps generalizing scope with
  | nil => rfl
  | cons p ps ih =>
    have one : (Named.declared scope p).slots = scope.slots + 1 := rfl
    rw [List.foldl_cons, ih, List.length_cons, one]
    omega

/-- A list that does not begin with `void` is not empty. -/
theorem isVoidList_eq_false {t : Token} (h : t.is "void" = false) (ts : List Token) :
    isVoidList (t :: ts) = false := by
  cases ts with
  | nil => rfl
  | cons u ts => rw [isVoidList, h, Bool.false_and]

/-- A list of parameters is read back. -/
theorem takes_parameterList (line : LineNumber) (ps : List Named.Name) :
    parameterList.Takes {} (c.before (sign line "(" :: separated line ")" (ps.map fun name =>
        [word line "int", word line name.text])))
      (ps.length ≤ maxParameters) ps.length (ps.foldl Named.declared {}) c := by
  have opening : (sign line "(").Plain := plain_sign (by decide)
  have closing : (sign line ")").Plain := plain_sign (by decide)
  cases ps with
  | nil =>
    have notVoid : isVoidList (c.before [sign line ")"]).ahead = false := isVoidList_eq_false rfl _
    refine .step (run_expect rfl opening) (.step run_get (.step run_sees
      (.neg (Bool.eq_false_iff.mp notVoid) (.pos rfl ?_))))
    refine .followed (ScopedParser.Takes.pure.congr ?_) (.step (run_expect rfl closing) .pure)
    exact iff_true_intro (Nat.zero_le _)
  | cons p ps =>
    obtain ⟨rest, eq⟩ : ∃ rest, separated line ")" ((p :: ps).map fun name =>
        [word line "int", word line name.text]) = word line "int" :: rest := by
      cases ps with
      | nil => exact ⟨_, rfl⟩
      | cons q qs => exact ⟨_, rfl⟩
    have inside := takes_parameters line p ps {} maxParameters 0 (c := c)
    have fits : (p :: ps).length ≤ maxParameters ↔ (p :: ps).length ≤ maxParameters ∧
        (p :: ps).length ≤ maxSlots := by
      have few : maxParameters ≤ maxSlots := by decide
      omega
    have notVoid : isVoidList (c.before (word line "int" :: rest)).ahead = false :=
      isVoidList_eq_false rfl _
    rw [eq, Nat.zero_add] at inside
    rw [eq]
    refine .congr ?_ fits
    refine .step (run_expect rfl opening) (.step run_get (.step run_sees
      (.neg (Bool.eq_false_iff.mp notVoid) (.neg nofun ?_))))
    exact .followed inside (.step (run_expect rfl closing) .pure)

/-- The tokens in front of a body. -/
def signatureTokens (f : Named.Function) : List Token :=
  word f.line "int" :: word f.line f.name.text :: sign f.line "(" ::
    separated f.line ")" (f.params.map fun name => [word f.line "int", word f.line name.text])

/-- A function is printed as its signature and its block. -/
theorem tokens_function (f : Named.Function) :
    f.tokens = signatureTokens f ++ blockTokens f.line f.body := rfl

def signatureOf (f : Named.Function) : Signature :=
  { name := f.name.text, params := f.params.length, scope := f.scope, line := f.line }

/-- A signature is read back. -/
theorem takes_signature (f : Named.Function) :
    signature.Takes (c.before (signatureTokens f)) (f.params.length ≤ maxParameters)
      (signatureOf f) c := by
  have supported : Parser.refuseUnsupported.run (c.before (signatureTokens f)) =
      .ok ((), c.before (signatureTokens f)) := rfl
  have list := takes_parameterList f.line f.params (c := c)
  refine .step run_peek (.step supported (.step run_typeName (.step (run_name f.line f.name)
    (.step run_sees (.neg nofun ?_)))))
  exact .followed list .pure

/-- A definition is read back. -/
theorem takes_definition? (f : Named.Function) {arities : Arities}
    (wf : Named.wellFormedStmts arities false f.scope f.body = true)
    (few : f.params.length ≤ maxParameters) :
    (definition? (signatureOf f)).Takes (c.before (blockTokens f.line f.body))
      (Named.costOfStmts (Named.Expr.nesting 0) f.body ≤ maxNesting ∧
        Named.costOfStmts (Named.Expr.height 0) f.body ≤ maxHeight ∧
          (Named.afterStmts f.scope f.body).slots ≤ maxSlots)
      (some f.resolve) c := by
  have room : f.scope.slots ≤ maxSlots := by
    have slots := slots_foldl_declared f.params {}
    have fewer : maxParameters ≤ maxSlots := by decide
    rw [Named.Function.scope, slots]
    show 0 + f.params.length ≤ maxSlots
    omega
  refine .step (run_accept_of_not rfl) (.neg nofun (.step run_sees (.neg nofun ?_)))
  exact .followed (takes_functionBody wf room) .pure

namespace Reading

/-- What reading a function leaves: the function, if no limit is hit, and otherwise a diagnostic. -/
theorem step_tokens {f : Named.Function} {arities : Arities}
    (wf : Named.wellFormedStmts arities false f.scope f.body = true) {declared : Arities}
    (fresh : declared.lookup f.name.text = none) (items : Array Item) :
    (f.Fits → step ⟨c.before f.tokens, declared, items⟩ =
      ⟨c, (f.name.text, f.params.length) :: declared, items.push (.function f.resolve)⟩) ∧
    (¬f.Fits → ∃ d, .error d ∈ (step ⟨c.before f.tokens, declared, items⟩).items) := by
  have signature := takes_signature (c := c.before (blockTokens f.line f.body)) f
  have agrees : ∀ c : Cursor, (agreeing declared (signatureOf f)).run c = .ok ((), c) := by
    intro c
    rw [agreeing, signatureOf, fresh]
    rfl
  have first : (do
      let s ← Grammar.signature
      agreeing declared s
      return s : Parser Signature).Takes (c.before f.tokens) (f.params.length ≤ maxParameters)
      (signatureOf f) (c.before (blockTokens f.line f.body)) := by
    rw [tokens_function, Cursor.before_append]
    exact .followed signature (.step (agrees _) .pure)
  have start : step ⟨c.before f.tokens, declared, items⟩ =
      declaration ⟨c.before f.tokens, declared, items⟩ := rfl
  have refused : ∀ (r : Reading) (failure : Failure), ∃ d, .error d ∈ (r.refuse failure).items :=
    fun r failure => ⟨failure.diagnostic, Array.mem_push_self⟩
  rw [start, declaration]
  by_cases few : f.params.length ≤ maxParameters
  · have second := takes_definition? (c := c) f wf few
    rw [first.ok few]
    dsimp only
    constructor
    · intro fits
      rw [second.ok ⟨fits.nesting, fits.height, fits.slots⟩]
      rfl
    · intro unfit
      obtain ⟨failure, failed⟩ := second.error fun fits => unfit ⟨few, fits.2.2, fits.1, fits.2.1⟩
      rw [failed]
      exact refused _ failure
  · obtain ⟨failure, failed⟩ := first.error few
    rw [failed]
    exact ⟨fun fits => absurd fits.params few, fun _ => refused _ failure⟩

/-- What has been read stays. -/
theorem mem_items_step {r : Reading} {item : Item} (h : item ∈ r.items) : item ∈ r.step.items := by
  have kept : ∀ r : Reading, item ∈ r.items → item ∈ r.declaration.items := by
    intro r h
    rw [declaration]
    split
    next => exact Array.mem_push.mpr (.inl h)
    next =>
      dsimp only
      split
      next => exact Array.mem_push.mpr (.inl h)
      next => exact h
      next => exact Array.mem_push.mpr (.inl h)
  rw [step]
  split
  next => exact Array.mem_push.mpr (.inl h)
  next => exact kept r h

/-- What has been read stays among the items. -/
theorem mem_items_finish (bound : List Token) {r : Reading} {item : Item} (h : item ∈ r.items) :
    item ∈ (finish bound r).items := by
  induction bound generalizing r with
  | nil => exact h
  | cons t bound ih =>
    rw [finish]
    split
    next => exact h
    next => exact ih (mem_items_step h)

/-- Each function is read in one step. -/
theorem finish_tokens {fs : List Named.Function} {arities : Arities}
    (wf : ∀ f ∈ fs, Named.wellFormedStmts arities false f.scope f.body = true)
    (distinct : (fs.map (·.name.text)).Nodup) (declared : Arities)
    (fresh : ∀ f ∈ fs, declared.lookup f.name.text = none) (items : Array Item)
    (atEnd : c.atEnd = true) {bound : List Token} (long : fs.length ≤ bound.length) :
    ((∀ f ∈ fs, f.Fits) →
      (finish bound ⟨c.before (fs.flatMap Named.Function.tokens), declared, items⟩).items.toList =
        items.toList ++ fs.map fun f => .function f.resolve) ∧
    (¬(∀ f ∈ fs, f.Fits) → ∃ d, .error d ∈
      (finish bound ⟨c.before (fs.flatMap Named.Function.tokens), declared, items⟩).items) := by
  induction fs generalizing declared items bound with
  | nil =>
    refine ⟨fun _ => ?_, fun unfit => absurd (List.forall_mem_nil _) unfit⟩
    rw [List.map_nil, List.append_nil]
    cases bound with
    | nil => rfl
    | cons t bound =>
      rw [finish, List.flatMap_nil, Cursor.before_nil, if_pos atEnd]
  | cons f fs ih =>
    cases bound with
    | nil => exact absurd long (Nat.not_succ_le_zero _)
    | cons t bound =>
      rw [List.map_cons, List.nodup_cons] at distinct
      obtain ⟨wfFirst, wfOthers⟩ := List.forall_mem_cons.mp wf
      obtain ⟨freshFirst, freshOthers⟩ := List.forall_mem_cons.mp fresh
      have one := step_tokens (c := c.before (fs.flatMap Named.Function.tokens)) wfFirst freshFirst
        items
      have goesOn : (finish (t :: bound)
          ⟨c.before ((f :: fs).flatMap Named.Function.tokens), declared, items⟩) =
          finish bound
            (step ⟨(c.before (fs.flatMap Named.Function.tokens)).before f.tokens,
              declared, items⟩) := by
        rw [List.flatMap_cons, Cursor.before_append]
        rfl
      rw [goesOn]
      by_cases fits : f.Fits
      · have fresh' : ∀ g ∈ fs, List.lookup g.name.text
            ((f.name.text, f.params.length) :: declared) = none := by
          intro g mem
          have other : g.name.text ≠ f.name.text := fun eq =>
            distinct.1 (eq ▸ List.mem_map_of_mem mem)
          rw [List.lookup_cons, beq_false_of_ne other]
          exact freshOthers g mem
        have rest := ih wfOthers distinct.2 _ fresh' (items.push (.function f.resolve))
          (Nat.le_of_succ_le_succ long)
        rw [one.1 fits]
        refine ⟨fun all => ?_, fun unfit => rest.2 fun others => unfit ?_⟩
        · rw [rest.1 (List.forall_mem_cons.mp all).2, Array.toList_push, List.append_assoc]
          rfl
        · exact List.forall_mem_cons.mpr ⟨fits, others⟩
      · obtain ⟨d, mem⟩ := one.2 fits
        refine ⟨fun all => absurd (List.forall_mem_cons.mp all).1 fits, fun _ => ⟨d, ?_⟩⟩
        exact mem_items_finish bound mem

end Reading

end Functions

end Grammar

end BareC
