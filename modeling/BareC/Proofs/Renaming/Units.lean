import BareC.Proofs.Linking.Rounds
import BareC.Proofs.Renaming.Statements

/-!
# Units under other names

A unit that is read from renamed tokens has the same items in the same places: functions under their
new names, and diagnostics for the same lines. What a name was declared with is looked up among the
renamed names, and the calls of a round of linking find their targets there, so that the same
functions are left.

What is shown is that reading and renaming may be exchanged, with the tokens on one side and the
program on the other. Macros are expanded before that, and a renaming of their names is not
considered: the tokens are those that the parser is given.
-/

namespace BareC

namespace Grammar

variable {r : Renaming}

/-! ## Signatures -/

theorem renames_typeName : typeName.Renames r id typeName :=
  .bind .peek fun t => .ite (by rw [Token.isTypeWord_rename]) (fun _ => .fail_bind rfl) fun _ =>
    .bind (.skipWhile fun t => Token.isTypeWord_rename r t) fun _ =>
    .skipWhile fun t => Token.is_rename r t (by decide)

theorem renames_parameter : parameter.Renames r id parameter := by
  refine .bind (.lift renames_typeName) fun _ => .bind (.lift .peek) fun t =>
    .ite (by rw [Token.kind_rename]) (fun _ => ?_) fun _ => .modify fun _ => rfl
  refine .name_bind fun name isName => .bind (.lift (.accept (by decide))) fun _ => ?_
  have declared :
      ScopedParser.Renames r id (do let _ ← declare name) (do let _ ← declare (name.rename r)) :=
    .bind (renames_declare isName) fun _ => .pure ()
  exact .ite Iff.rfl (fun _ => .bind (.lift (.expect (by decide))) fun _ => declared)
    fun _ => declared

/-- Parameters rename, by induction on the number left. -/
theorem renames_parameters (left read : Nat) :
    (parameters left read).Renames r id (parameters left read) := by
  induction left generalizing read with
  | zero => exact .bind renames_parameter fun _ => .lift (.fail_of_eq rfl)
  | succ left ih =>
    exact .bind renames_parameter fun _ => .bind (.lift (.accept (by decide))) fun _ =>
      .ite Iff.rfl (fun _ => ih (read + 1)) fun _ => .pure (read + 1)

/-- An empty list of parameters names nothing. -/
theorem isVoidList_rename (ts : List Token) :
    isVoidList (ts.map (Token.rename r)) = isVoidList ts := by
  match ts with
  | [] | [_] => rfl
  | t :: u :: _ =>
    rw [List.map_cons, List.map_cons, isVoidList, isVoidList, Token.is_rename r t (by decide),
      Token.is_rename r u (by decide)]

/-- A list of parameters renames. -/
theorem renames_parameterList : parameterList.Renames r id parameterList := by
  have close : ∀ count : Nat, ScopedParser.Renames r id (do Parser.expect ")"; return count)
      (do Parser.expect ")"; return count) :=
    fun count => .bind (.lift (.expect (by decide))) fun _ => .pure count
  refine .bind (.lift (.expect (by decide))) fun _ => .bind .getCursor fun c =>
    .bind (.lift (.sees (by decide))) fun _ => ?_
  refine .ite (by rw [Cursor.rename, isVoidList_rename]) (fun _ => ?_) fun _ =>
    .ite Iff.rfl (fun _ => .bind (.pure 0) close) fun _ =>
    .bind (renames_parameters maxParameters 0) close
  exact .bind (.lift .advance) fun _ => .bind (.pure 0) close

/-- The signature of the same name's new name. -/
def Signature.rename (r : Renaming) (s : Signature) : Signature :=
  { s with name := r s.name, scope := s.scope.rename r }

/-- A signature renames. -/
theorem renames_signature : signature.Renames r (Signature.rename r) signature := by
  refine .bind .peek fun t => ?_
  rw [Token.line_rename]
  refine .bind .refuseUnsupported fun _ => .bind renames_typeName fun _ =>
    .name_bind fun name isName => ?_
  rw [Token.text_rename_of_isName r isName]
  refine .bind (.sees (by decide)) fun _ => .ite Iff.rfl (fun _ => .fail_bind rfl) fun _ => ?_
  exact .bind (renames_parameterList {}) fun found =>
    .pure (⟨name.text, found.1, found.2, t.line⟩ : Signature)

/-- Arities under the new names. -/
def renameArities (r : Renaming) (a : Arities) : Arities :=
  a.map fun entry => (r entry.1, entry.2)

/-- Signatures agree as the renamed ones do. -/
theorem renames_agreeing (declared : Arities) (s : Signature) :
    (agreeing declared s).Renames r id (agreeing (renameArities r declared) (s.rename r)) := by
  have same : (renameArities r declared).lookup (s.rename r).name = declared.lookup s.name :=
    lookup_rename r declared s.name
  rw [agreeing, agreeing, same]
  exact .ite Iff.rfl (fun _ => .fail (.conflicting s.name)) fun _ => .pure ()

/-- A definition renames. -/
theorem renames_definition? (s : Signature) :
    (definition? s).Renames r (Option.map (Function.rename r)) (definition? (s.rename r)) := by
  refine .bind (.accept (by decide)) fun _ => .ite Iff.rfl (fun _ => .pure none) fun _ => ?_
  refine .bind (.sees (by decide)) fun _ => .ite Iff.rfl (fun _ => .fail_bind rfl) fun _ => ?_
  exact .bind (renames_functionBody s.scope) fun found =>
    .pure (some (⟨s.name, s.params, found.2.slots, found.1, s.line⟩ : Function))

/-! ## Declarations -/

/-- Recovery looks at no name. -/
theorem recover_rename (depth : Nat) (ts : List Token) :
    recover depth (ts.map (Token.rename r)) = (recover depth ts).map (Token.rename r) := by
  induction ts generalizing depth with
  | nil => rfl
  | cons t ts ih =>
    simp only [List.map_cons, recover, Token.kind_rename, Cursor.depthAfter_rename, ih,
      Token.is_rename r t (by decide : NoName "\x7d"), Token.is_rename r t (by decide : NoName ";")]
    repeat' split
    all_goals rfl

namespace Reading

/-- The same place of the renamed unit. -/
def rename (r : Renaming) (u : Reading) : Reading :=
  ⟨u.cursor.rename r, renameArities r u.declared, u.items.map (Item.rename r)⟩

/-- An item more, renamed. -/
theorem rename_push (u : Reading) (item : Item) (cursor : Cursor) :
    (⟨cursor.rename r, renameArities r u.declared,
      (u.items.map (Item.rename r)).push (item.rename r)⟩ : Reading) =
      rename r ⟨cursor, u.declared, u.items.push item⟩ := by
  rw [rename, Array.map_push]

/-- A refusal may be renamed before or after. -/
theorem refuse_rename (u : Reading) (f : Failure) :
    (u.rename r).refuse (f.rename r) = (u.refuse f).rename r := by
  have skipped : (⟨recover (f.rename r).cursor.depth (f.rename r).cursor.ahead, 0⟩ : Cursor) =
      Cursor.rename r ⟨recover f.cursor.depth f.cursor.ahead, 0⟩ := by
    rw [Failure.rename, Cursor.rename, recover_rename]
    rfl
  rw [refuse, skipped]
  exact u.rename_push (.error f.diagnostic) _

/-- The part of a declaration in front of its body. -/
def front (declared : Arities) : Parser Signature := do
  let s ← signature
  agreeing declared s
  return s

/-- The front of a declaration renames. -/
theorem renames_front (declared : Arities) :
    (front declared).Renames r (Signature.rename r) (front (renameArities r declared)) :=
  .bind renames_signature fun s => .bind (renames_agreeing declared s) fun _ => .pure s

/-- A declaration may be read before the renaming or after it. -/
theorem declaration_rename (u : Reading) : (u.rename r).declaration = u.declaration.rename r := by
  have cursor : (u.rename r).cursor = u.cursor.rename r := rfl
  have declared : (u.rename r).declared = renameArities r u.declared := rfl
  rw [declaration, declaration, ← front, ← front, declared, cursor,
    renames_front u.declared u.cursor]
  cases (front u.declared).run u.cursor with
  | error f => exact u.refuse_rename f
  | ok found =>
    obtain ⟨s, cursor⟩ := found
    simp only [Parser.renamed]
    rw [renames_definition? s cursor]
    let u' : Reading := { u with declared := (s.name, s.params) :: u.declared }
    cases (definition? s).run cursor with
    | error f => exact u'.refuse_rename f
    | ok found =>
      obtain ⟨_ | f, cursor⟩ := found
      · rfl
      · exact u'.rename_push (.function f) cursor

/-- As `declaration_rename`, for a step of the reading. -/
theorem step_rename (u : Reading) : (u.rename r).step = u.step.rename r := by
  have next : (u.rename r).cursor.next = u.cursor.next.rename r := u.cursor.next_rename r
  rw [step, step, next, Token.kind_rename, Token.line_rename]
  split
  next marker =>
    have same : u.cursor.next.rename r = u.cursor.next :=
      Token.rename_of_ne r (by rw [marker]; exact Token.Kind.noConfusion)
    have advance : (u.rename r).cursor.advance = u.cursor.advance.rename r :=
      u.cursor.advance_rename r
    rw [same, advance]
    exact u.rename_push (.error ⟨.marker u.cursor.next.text, u.cursor.next.line⟩) _
  next => exact u.declaration_rename

/-- As `step_rename`, for all steps, by induction on the bound. -/
theorem finish_rename (bound : List Token) (u : Reading) :
    (u.rename r).finish (bound.map (Token.rename r)) = (u.finish bound).rename r := by
  induction bound generalizing u with
  | nil => rfl
  | cons t bound ih =>
    have atEnd : (u.rename r).cursor.atEnd = u.cursor.atEnd := u.cursor.atEnd_rename r
    rw [List.map_cons, finish, finish, step_rename, ih, atEnd]
    split <;> rfl

end Reading

end Grammar

namespace Program

/-- Reading renamed tokens gives the renamed program. -/
theorem read_rename (ts : List Token) : read (ts.map (Token.rename r)) = (read ts).rename r := by
  let c := Grammar.Cursor.ofTokens ts
  have start : ({ cursor := c.rename r } : Grammar.Reading) =
    Grammar.Reading.rename r { cursor := c } := by
    rw [Grammar.Reading.rename, Array.map_empty]
    rfl
  have read : ((⟨c.rename r, [], #[]⟩ : Grammar.Reading).finish (c.rename r).ahead).items =
      ((⟨c, [], #[]⟩ : Grammar.Reading).finish c.ahead).items.map (Item.rename r) :=
    start ▸ congrArg Grammar.Reading.items (Grammar.Reading.finish_rename c.ahead { cursor := c })
  rw [Program.read, Program.read, Grammar.Cursor.ofTokens_map_rename, rename]
  exact congrArg Program.mk ((congrArg Array.toList read).trans Array.toList_map)

end Program

/-! ## Rounds of linking -/

section Calls

variable (r : Renaming)

/-- Calls of the functions under their new names. -/
def renameCalls (calls : List (String × Nat)) : List (String × Nat) :=
  calls.map fun call => (r call.1, call.2)

@[simp]
theorem renameCalls_append (calls calls' : List (String × Nat)) :
    renameCalls r (calls ++ calls') = renameCalls r calls ++ renameCalls r calls' :=
  List.map_append

mutual

/-- The calls of a renamed expression. -/
theorem Expr.calls_rename : (e : Expr) → (e.rename r).calls = renameCalls r e.calls
  | .num _ | .var _ => rfl
  | .assign _ value => value.calls_rename
  | .unary _ operand => operand.calls_rename
  | .binary _ left right | .logicalAnd left right | .logicalOr left right => by
    simp only [Expr.rename, Expr.calls, left.calls_rename, right.calls_rename, renameCalls_append]
  | .call name args => by
    have length : (renameArgs r args).length = args.length := by
      rw [renameArgs_eq_map, List.length_map]
    simp only [Expr.rename, Expr.calls, callsOfArgs_rename args, length]
    rfl

/-- As `Expr.calls_rename`, for arguments. -/
theorem callsOfArgs_rename : (es : List Expr) →
    callsOfArgs (renameArgs r es) = renameCalls r (callsOfArgs es)
  | [] => rfl
  | e :: es => by
    simp only [renameArgs, callsOfArgs, e.calls_rename, callsOfArgs_rename es, renameCalls_append]

end

/-- As `Expr.calls_rename`, for an expression that may be missing. -/
theorem callsOfExpr?_rename (e? : Option Expr) :
    callsOfExpr? (e?.map (Expr.rename r)) = renameCalls r (callsOfExpr? e?) := by
  cases e? with
  | none => rfl
  | some e => exact e.calls_rename r

mutual

/-- As `Expr.calls_rename`, for a statement. -/
theorem Stmt.calls_rename : (s : Stmt) → (s.rename r).calls = renameCalls r s.calls
  | .ret value => callsOfExpr?_rename r value
  | .expr e => e.calls_rename r
  | .decl _ init => callsOfExpr?_rename r init
  | .ifElse cond yes no => by
    simp only [Stmt.rename, Stmt.calls, cond.calls_rename, yes.calls_rename, callsOfStmt?_rename no,
      renameCalls_append]
  | .whileLoop cond body | .doWhile body cond => by
    simp only [Stmt.rename, Stmt.calls, cond.calls_rename, body.calls_rename, renameCalls_append]
  | .forLoop init cond step body => by
    simp only [Stmt.rename, Stmt.calls, callsOfStmt?_rename init, callsOfExpr?_rename,
      body.calls_rename, renameCalls_append]
  | .block stmts => callsOfStmts_rename stmts
  | .breakLoop | .continueLoop | .empty => rfl

/-- As `Stmt.calls_rename`, for one that may be missing. -/
theorem callsOfStmt?_rename : (s? : Option Stmt) →
    callsOfStmt? (renameStmt? r s?) = renameCalls r (callsOfStmt? s?)
  | none => rfl
  | some s => s.calls_rename

/-- As `Stmt.calls_rename`, for a list. -/
theorem callsOfStmts_rename : (ss : List Stmt) →
    callsOfStmts (renameStmts r ss) = renameCalls r (callsOfStmts ss)
  | [] => rfl
  | s :: ss => by
    simp only [renameStmts, callsOfStmts, s.calls_rename, callsOfStmts_rename ss,
      renameCalls_append]

end

/-- As `Stmt.calls_rename`, for a function. -/
theorem Function.calls_rename (f : Function) : (f.rename r).calls = renameCalls r f.calls := by
  rw [Function.calls, Function.rename, ← renameStmts_eq_map, callsOfStmts_rename, Function.calls]

/-- A call of a renamed function has a target, or lacks it, as before. -/
theorem Arities.fault?_rename (a : Arities) (call : String × Nat) :
    (Grammar.renameArities r a).fault? (r call.1, call.2) =
      (a.fault? call).map (SyntaxFault.rename r) := by
  rw [Arities.fault?, Arities.fault?, Grammar.renameArities, Grammar.lookup_rename]
  cases a.lookup call.1 with
  | none => rfl
  | some params =>
    show (if params = call.2 then none else some (SyntaxFault.wrongArity (r call.1))) =
      Option.map _ (ite _ _ _)
    split <;> rfl

end Calls

namespace Program

variable (p : Program)

theorem functions_rename : (p.rename r).functions = p.functions.map (Function.rename r) := by
  rw [functions, functions, rename, List.filterMap_map, List.map_filterMap]
  refine List.filterMap_congr fun item _ => ?_
  cases item <;> rfl

theorem arities_rename : (p.rename r).arities = Grammar.renameArities r p.arities := by
  rw [arities, arities, functions_rename, Grammar.renameArities, List.map_reverse, List.map_map,
    List.map_map]
  rfl

/-- An item is checked alike under its new names. -/
theorem checkItem_rename (a : Arities) (item : Item) :
    checkItem (Grammar.renameArities r a) (item.rename r) = (checkItem a item).rename r := by
  cases item with
  | error d => rfl
  | function f =>
    have same : (f.rename r).calls.findSome? (Grammar.renameArities r a).fault? =
        (f.calls.findSome? a.fault?).map (SyntaxFault.rename r) := by
      rw [f.calls_rename, renameCalls, List.findSome?_map, List.map_findSome?]
      exact congrArg (f.calls.findSome? ·) (funext (a.fault?_rename r))
    rw [Item.rename, checkItem, checkItem, same]
    cases f.calls.findSome? a.fault? <;> rfl

/-- A round of the check may be made before the renaming or after it. -/
theorem checkCalls_rename : (p.rename r).checkCalls = p.checkCalls.rename r := by
  rw [checkCalls, checkCalls, arities_rename, rename, rename, List.map_map, List.map_map]
  exact congrArg Program.mk (List.map_congr_left fun item _ => checkItem_rename p.arities item)

/-- Every round of linking leaves the same functions, so that there are as many rounds. -/
theorem link_rename : (p.rename r).link = p.link.rename r := by
  have length : ∀ p : Program, (p.rename r).functions.length = p.functions.length := fun p => by
    rw [functions_rename, List.length_map]
  induction p using link.induct with
  | case1 p _ fewer ih =>
    have fewer' : (p.rename r).checkCalls.functions.length < (p.rename r).functions.length := by
      rwa [checkCalls_rename, length, length]
    rw [link.eq_def (p.rename r), link.eq_def p]
    refine (if_pos fewer').trans ?_
    rw [checkCalls_rename, ih]
    exact congrArg (rename r) (if_pos fewer).symm
  | case2 p _ stays =>
    have stays' : ¬(p.rename r).checkCalls.functions.length < (p.rename r).functions.length := by
      rwa [checkCalls_rename, length, length]
    rw [link.eq_def (p.rename r), link.eq_def p]
    exact (if_neg stays').trans (congrArg (rename r) (if_neg stays).symm)

/-- The unit of renamed tokens is the renamed unit. -/
theorem ofTokens_map_rename (ts : List Token) :
    ofTokens (ts.map (Token.rename r)) = (ofTokens ts).rename r := by
  rw [ofTokens, ofTokens, read_rename, link_rename]

end Program

end BareC
