import BareC.Proofs.Grammar.Statements
import BareC.Proofs.Renaming.Expressions

/-!
# Statements under other names

A declaration puts a name in front of the others in scope, and a block forgets it again. Both are
done alike to renamed variables, so a statement is read from renamed tokens as it was, with other
callees, and leaves the renamed scope.

There is one lemma for each production, with the parts one level deeper as hypotheses, and the
recursion is the one of the grammar. The order in which slots are handed out does not depend on
names, so no slot is mentioned.
-/

namespace BareC.Grammar

variable {r : Renaming}

/-- A variable gets the same slot under its new name. -/
theorem renames_declare {name : Token} (h : isName name = true) :
    (declare name).Renames r id (declare (name.rename r)) := by
  rw [declare, declare, Token.text_rename_of_isName r h, Token.line_rename]
  refine .bind .get fun scope => ?_
  have slot : ScopedParser.Renames r id
      (do set (⟨(name.text, scope.slots) :: scope.vars, scope.slots + 1⟩ :
        Scope); return scope.slots)
      (do set (⟨(r name.text, scope.slots) :: (scope.rename r).vars, scope.slots + 1⟩ : Scope)
          return scope.slots) :=
    .bind (.set ⟨(name.text, scope.slots) :: scope.vars, scope.slots + 1⟩)
    fun _ => .pure scope.slots
  exact .ite Iff.rfl (fun _ => .failOn_bind) fun _ => slot

/-- A block renames where its contents do. -/
theorem renames_inBlock {α β : Type} {m : α → β} {p : ScopedParser α} {q : ScopedParser β}
    (h : p.Renames r m q) : (inBlock p).Renames r m (inBlock q) :=
  .bind .get fun _ => .bind h fun a => .bind (.modify fun _ => rfl) fun _ => .pure a

/-- The parts of a statement, and those for renamed tokens. -/
structure Parts.Renames (r : Renaming) (parts parts' : Parts) : Prop where
  expr : ∀ vars, (parts.expr vars).Renames r (Expr.rename r) (parts'.expr (vars.rename r))
  inner : ∀ inLoop, (parts.inner inLoop).Renames r (Stmt.rename r) (parts'.inner inLoop)

namespace Parts

variable {parts parts' : Parts} (h : parts.Renames r parts')

include h

/-- A value renames. -/
theorem renames_value : (value parts).Renames r (Expr.rename r) (value parts') :=
  .bind .get fun scope => .lift (h.expr scope.vars)

/-- A condition renames. -/
theorem renames_condition : (condition parts).Renames r (Expr.rename r) (condition parts') :=
  .bind (.lift (.expect (by decide))) fun _ => .bind (renames_value h) fun e =>
    .bind (.lift (.expect (by decide))) fun _ => .pure e

/-- A value that may be left out renames. -/
theorem renames_valueUnless {s : String} (noName : NoName s) :
    (valueUnless parts s).Renames r (Option.map (Expr.rename r)) (valueUnless parts' s) :=
  .bind (.lift (.sees noName)) fun _ => .ite Iff.rfl (fun _ => .pure none) fun _ =>
    .map (renames_value h) fun _ => rfl

/-! ### Declarations -/

/-- A declarator renames. -/
theorem renames_declarator : (declarator parts).Renames r (Stmt.rename r) (declarator parts') := by
  refine .bind (.lift (.skipWhile fun t => by rw [Token.is_rename r t (by decide)])) fun _ =>
    .name_bind fun name isName => .bind (.lift (.sees (by decide))) fun _ =>
    .ite Iff.rfl (fun _ => .fail_bind rfl) fun _ => ?_
  refine .bind (renames_declare isName) fun slot => .bind (.lift (.accept (by decide))) fun _ => ?_
  have decl : ∀ init : Option Expr, ScopedParser.Renames r (Stmt.rename r) (pure (.decl slot init))
      (pure (.decl slot (init.map (Expr.rename r)))) := fun init => .pure (Stmt.decl slot init)
  exact .ite Iff.rfl (fun _ => .bind (.map (renames_value h) fun _ => rfl) decl) fun _ =>
    .bind (.pure none) decl

/-- Declarators rename, by induction on the bound. -/
theorem renames_declarators (bound : List Token) (read : List Stmt) :
    (declarators parts bound read).Renames r (List.map (Stmt.rename r))
      (declarators parts' (bound.map (Token.rename r)) (read.map (Stmt.rename r))) := by
  induction bound generalizing read with
  | nil =>
    rw [List.map_nil, declarators_nil, declarators_nil]
    exact .bind (renames_declarator h) fun _ => .lift (.fail_of_eq rfl)
  | cons t bound ih =>
    rw [List.map_cons, declarators_cons, declarators_cons]
    refine .bind (renames_declarator h) fun d => .bind (.lift (.accept (by decide))) fun _ =>
      .ite Iff.rfl (fun _ => ih (d :: read)) fun _ =>
      .bind (.lift (.expect (by decide))) fun _ => ?_
    rw [← List.map_cons, ← List.map_reverse]
    exact .pure _

/-- A declaration renames. -/
theorem renames_declaration :
    (declaration parts).Renames r (Stmt.rename r) (declaration parts') := by
  refine .bind (.lift (.skipWhile fun t => by rw [Token.isTypeWord_rename])) fun _ =>
    .bind .getCursor fun c =>
    .bind (renames_declarators h c.ahead []) fun decls => ?_
  match decls with
  | [decl] => exact .pure decl
  | [] => exact .pure (Stmt.block [])
  | decl :: decl' :: decls =>
    have block : ∀ stmts : List Stmt, ScopedParser.Renames r (Stmt.rename r) (pure (.block stmts))
        (pure (.block (stmts.map (Stmt.rename r)))) := fun stmts => by
      rw [← Stmt.rename_block]
      exact .pure (Stmt.block stmts)
    exact block (decl :: decl' :: decls)

/-! ### Blocks -/

/-- Statements rename, by induction on the bound. -/
theorem renames_statements (inLoop : Bool) (bound : List Token) (read : List Stmt) :
    (statements parts inLoop bound read).Renames r (List.map (Stmt.rename r))
      (statements parts' inLoop (bound.map (Token.rename r)) (read.map (Stmt.rename r))) := by
  induction bound generalizing read with
  | nil =>
    rw [List.map_nil, statements.eq_def, statements.eq_def parts', ← List.map_reverse]
    exact .bind (.lift (.sees (by decide))) fun _ => .ite Iff.rfl (fun _ => .pure _) fun _ =>
      .bind .getCursor fun c =>
      .ite (by rw [Cursor.atEnd_rename]) (fun _ => .fail_bind rfl) fun _ =>
      .bind (h.inner inLoop) fun _ => .lift (.fail_of_eq rfl)
  | cons t bound ih =>
    rw [List.map_cons, statements.eq_def, statements.eq_def parts', ← List.map_reverse]
    exact .bind (.lift (.sees (by decide))) fun _ => .ite Iff.rfl (fun _ => .pure _) fun _ =>
      .bind .getCursor fun c =>
      .ite (by rw [Cursor.atEnd_rename]) (fun _ => .fail_bind rfl) fun _ =>
      .bind (h.inner inLoop) fun s => ih (s :: read)

/-- A block's statements rename. -/
theorem renames_block (inLoop : Bool) :
    (block parts inLoop).Renames r (List.map (Stmt.rename r)) (block parts' inLoop) := by
  have inside : ScopedParser.Renames r (List.map (Stmt.rename r))
      (do
        let stmts ← parts.statements inLoop (← getThe Cursor).ahead []
        Parser.expect "\x7d"
        return stmts)
      (do
        let stmts ← parts'.statements inLoop (← getThe Cursor).ahead []
        Parser.expect "\x7d"
        return stmts) :=
    .bind .getCursor fun c => .bind (renames_statements h inLoop c.ahead []) fun stmts =>
      .bind (.lift (.expect (by decide))) fun _ => .pure stmts
  exact .bind (.lift (.expect (by decide))) fun _ => renames_inBlock inside

/-! ### Statements with parts -/

/-- The first part of a loop's header renames. -/
theorem renames_forInit :
    (forInit parts).Renames r (Option.map (Stmt.rename r)) (forInit parts') :=
  .bind (.lift (.accept (by decide))) fun _ => .ite Iff.rfl (fun _ => .pure none) fun _ =>
    .bind (.lift .peek) fun t => .ite (by rw [Token.isTypeWord_rename])
      (fun _ => .map (renames_declaration h) fun _ => rfl) fun _ =>
      .bind (renames_value h) fun e => .bind (.lift (.expect (by decide))) fun _ =>
      .pure (some (Stmt.expr e))

/-- A loop with a header renames. -/
theorem renames_forLoop : (forLoop parts).Renames r (Stmt.rename r) (forLoop parts') := by
  refine .bind (.lift (.expect (by decide))) fun _ => renames_inBlock ?_
  refine .bind (renames_forInit h) fun init => .bind (renames_valueUnless h (by decide)) fun cond =>
    .bind (.lift (.expect (by decide))) fun _ =>
    .bind (renames_valueUnless h (by decide)) fun step =>
    .bind (.lift (.expect (by decide))) fun _ => .bind (h.inner true) fun body => ?_
  rw [← Stmt.rename_forLoop]
  exact .pure _

/-- A return renames. -/
theorem renames_ret : (ret parts).Renames r (Stmt.rename r) (ret parts') :=
  .bind (.lift (.accept (by decide))) fun _ =>
    .ite Iff.rfl (fun _ => .pure (Stmt.ret none)) fun _ =>
    .bind (renames_value h) fun e => .bind (.lift (.expect (by decide))) fun _ =>
    .pure (Stmt.ret (some e))

/-- A conditional renames. -/
theorem renames_ifElse (inLoop : Bool) :
    (ifElse parts inLoop).Renames r (Stmt.rename r) (ifElse parts' inLoop) := by
  refine .bind (renames_condition h) fun cond => .bind (h.inner inLoop) fun yes =>
    .bind (.lift (.accept (by decide))) fun _ => ?_
  have finish : ∀ no : Option Stmt,
    ScopedParser.Renames r (Stmt.rename r) (pure (.ifElse cond yes no))
      (pure (.ifElse (cond.rename r) (yes.rename r) (no.map (Stmt.rename r)))) := fun no => by
    rw [← Stmt.rename_ifElse]
    exact .pure _
  exact .ite Iff.rfl (fun _ => .bind (.map (h.inner inLoop) fun _ => rfl) finish) fun _ =>
    .bind (.pure none) finish

/-- A loop renames. -/
theorem renames_whileLoop : (whileLoop parts).Renames r (Stmt.rename r) (whileLoop parts') :=
  .bind (renames_condition h) fun cond => .bind (h.inner true) fun body =>
    .pure (Stmt.whileLoop cond body)

/-- As `renames_whileLoop`, the condition being read last. -/
theorem renames_doWhile : (doWhile parts).Renames r (Stmt.rename r) (doWhile parts') :=
  .bind (h.inner true) fun body => .bind (.lift (.expect (by decide))) fun _ =>
    .bind (renames_condition h) fun cond => .bind (.lift (.expect (by decide))) fun _ =>
    .pure (Stmt.doWhile body cond)

omit h in
/-- A word for a jump is no name, so that the diagnostic quotes it as before. -/
theorem renames_jump (inLoop : Bool) {s : Stmt} (same : s.rename r = s) {w : String}
    (noName : NoName w) {scope : Scope} {c : Cursor} (word : c.next.is w = true) :
    ScopedParser.RenamesAt r (Stmt.rename r) scope c (jump inLoop s) (jump inLoop s) := by
  refine .advance_bind ?_
  rw [Token.text_rename_of_is r noName word, Token.line_rename]
  have finish : ScopedParser.Renames r (Stmt.rename r) (do Parser.expect ";"; return s)
      (do Parser.expect ";"; return s) := by
    have value := ScopedParser.Renames.pure (r := r) (m := Stmt.rename r) s
    rw [same] at value
    exact .bind (.lift (.expect (by decide))) fun _ => value
  exact .ite Iff.rfl (fun _ => .failOn_bind) fun _ => finish

/-- A statement renames, one case for each word it can begin with. -/
theorem renames_statement (inLoop : Bool) :
    (statement parts inLoop).Renames r (Stmt.rename r) (statement parts' inLoop) := by
  intro scope c
  refine ScopedParser.RenamesAt.peek_bind ?_
  refine .ite (by rw [Token.kind_rename]) (fun marker => ?_) fun _ => ?_
  · have same : c.next.rename r = c.next :=
      Token.rename_of_ne r (by rw [marker]; exact Token.Kind.noConfusion)
    rw [same]
    exact .of_renames (.lift (.fail_of_eq rfl))
  refine .ite (by rw [Token.is_rename r _ (by decide)]) (fun _ => .of_renames ?_) fun _ => ?_
  · refine .bind (renames_block h inLoop) fun stmts => ?_
    rw [← Stmt.rename_block]
    exact .pure _
  refine .ite (by rw [Token.isTypeWord_rename]) (fun _ => .of_renames (renames_declaration h))
    fun _ => ?_
  refine .accept_bind (by decide) (.pure Stmt.empty) ?_
  refine .accept_bind (by decide) (renames_ret h) ?_
  refine .accept_bind (by decide) (renames_ifElse h inLoop) ?_
  refine .accept_bind (by decide) (renames_whileLoop h) ?_
  refine .accept_bind (by decide) (renames_doWhile h) ?_
  refine .accept_bind (by decide) (renames_forLoop h) (.ite Iff.rfl nofun fun _ => ?_)
  refine .ite (by rw [Token.is_rename r _ (by decide)]) (renames_jump inLoop rfl (by decide))
    fun _ => ?_
  refine .ite (by rw [Token.is_rename r _ (by decide)]) (renames_jump inLoop rfl (by decide))
    fun _ => ?_
  exact .of_renames (.bind (.lift .refuseUnsupported) fun _ => .bind (renames_value h) fun e =>
    .bind (.lift (.expect (by decide))) fun _ => .pure (Stmt.expr e))

end Parts

/-! ## The grammar -/

/-- Statements rename at every depth, by recursion on what is left of it. -/
theorem renames_statement : (nesting height : Nat) → (inLoop : Bool) →
    (statement nesting height inLoop).Renames r (Stmt.rename r) (statement nesting height inLoop)
  | nesting + 1, height + 1, inLoop => Parts.renames_statement
      ⟨fun vars => renames_expression vars nesting height, renames_statement nesting height⟩ inLoop
  | 0, _, _ => .lift (.fail_of_eq rfl)
  | _ + 1, 0, _ => .lift (.fail_of_eq rfl)

/-- The body of a function renames. -/
theorem renames_functionBody : functionBody.Renames r (List.map (Stmt.rename r)) functionBody :=
  Parts.renames_block ⟨fun vars => renames_expression vars maxNesting maxHeight,
    renames_statement maxNesting maxHeight⟩ false

end BareC.Grammar
