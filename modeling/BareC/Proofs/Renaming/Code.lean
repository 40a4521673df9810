import BareC.Proofs.Assembly.Equations
import BareC.Proofs.Assembly.Placement
import BareC.Proofs.Renaming.Units

/-!
# Code under other names

In code, names are left only in the labels of functions. The code of a renamed unit is the code of
the unit with those labels renamed, and since different labels stay different, every jump finds its
label at the same place. Linking therefore yields the same words, unless the code begins with the
call of another function: which one is called `main` is the only thing about a name that the code
depends on.

Labels are compared through a map that is injective on them, and places are looked up by label, so
no code is ever run. The condition on `main` is needed: the code of a unit begins with a call of it,
and there is none if no function has the name.
-/

namespace BareC

/-! ## Labels -/

/-- The label of the function under its new name. -/
def Label.rename (r : Renaming) : Label → Label
  | .entry name => .entry (r name)
  | .inner number => .inner number

/-- Labels are told by their renamed ones. -/
theorem Label.rename_inj (r : Renaming) {l l' : Label} : l.rename r = l'.rename r ↔ l = l' := by
  cases l <;> cases l' <;> simp [Label.rename, r.apply_inj]

def AsmItem.rename (r : Renaming) : AsmItem → AsmItem
  | .word w => .word w
  | .jump rd target => .jump rd (target.rename r)
  | .mark l => .mark (l.rename r)

namespace Assembly

variable (r : Renaming)

/-- The labels are at the same places. -/
theorem getElem?_places_rename (a : Assembly) (start : Nat) {known known' : Std.HashMap Label Nat}
    (same : ∀ l : Label, known'[l.rename r]? = known[l]?) (l : Label) :
    (places (a.map (AsmItem.rename r)) start known')[l.rename r]? = (places a start known)[l]? := by
  induction a generalizing start known known' with
  | nil => exact same l
  | cons item a ih =>
    cases item with
    | word w => exact ih (start + 1) same
    | jump rd target => exact ih (start + 1) same
    | mark l' =>
      refine ih start fun l => ?_
      rw [Std.HashMap.getElem?_insert, Std.HashMap.getElem?_insert, same l]
      simp only [beq_iff_eq, Label.rename_inj]

/-- Renamed items give the same words, where the labels have the same places. -/
theorem wordsFrom_rename {places places' : Std.HashMap Label Nat}
    (same : ∀ l : Label, places'[l.rename r]? = places[l]?) (i : Nat) (a : Assembly) :
    wordsFrom places' i (a.map (AsmItem.rename r)) = wordsFrom places i a := by
  induction a generalizing i with
  | nil => rfl
  | cons item a ih =>
    cases item with
    | word w => exact congrArg (w :: ·) (ih (i + 1))
    | jump rd target =>
      rw [List.map_cons, AsmItem.rename, wordsFrom, wordsFrom, same target, ih (i + 1)]
    | mark l => exact ih i

/-- Linking does not depend on what the labels are called. -/
theorem link_rename (a : Assembly) : link (a.map (AsmItem.rename r)) = a.link := by
  rw [link_eq_wordsFrom, link_eq_wordsFrom]
  refine wordsFrom_rename r (fun l => getElem?_places_rename r a 0 (fun l => ?_) l) 0 a
  rw [Std.HashMap.getElem?_empty, Std.HashMap.getElem?_empty]

/-! ### Pieces without labels of functions -/

@[simp]
theorem rename_loadConst (rd v : Word) :
    (loadConst rd v).map (AsmItem.rename r) = loadConst rd v := by
  rw [loadConst_eq]
  split
  · rfl
  · split <;> rfl

@[simp]
theorem rename_operate (op : BinaryOp) : (operate op).map (AsmItem.rename r) = operate op := by
  cases op <;> rfl

@[simp]
theorem rename_operateUnary (op : UnaryOp) : (operateUnary op).rename r = operateUnary op := by
  cases op <;> rfl

@[simp]
theorem rename_prologue (params locals : Nat) :
    (prologue params locals).map (AsmItem.rename r) = prologue params locals := by
  simp only [prologue_eq, openFrame_eq_ite, storeParams_eq, List.map_append,
    apply_ite (List.map (AsmItem.rename r)), List.map_map]
  rfl

theorem rename_popArguments (count : Nat) :
    (popArguments count).map (AsmItem.rename r) = popArguments count := by
  rw [popArguments_eq, List.map_flatMap]
  rfl

/-- A conditional jump with its condition renamed is the renamed jump. -/
theorem rename_gotoUnless (cond : Option Expr) (check : Assembly) (done : Nat) :
    gotoUnless (cond.map (Expr.rename r)) (check.map (AsmItem.rename r)) (.inner done) =
      (gotoUnless cond check (.inner done)).map (AsmItem.rename r) := by
  rw [gotoUnless, gotoUnless, Option.isSome_map]
  split
  next =>
    rw [List.map_append]
    rfl
  next => rfl

end Assembly

/-! ## Trees -/

section Trees

variable (r : Renaming) (known : List String)

/-- Code with the labels renamed, and the number of the next fresh one, which is the same. -/
def renameCode (r : Renaming) (code : Assembly × Nat) : Assembly × Nat :=
  (code.1.map (AsmItem.rename r), code.2)

mutual

/-- The code of a renamed expression is the renamed code, one case for each kind. -/
theorem Expr.code_rename : (e : Expr) → (n : Nat) →
    ((e.rename r).code (known.map r)).run n = renameCode r ((e.code known).run n)
  | .num v, n => by
    simp only [Expr.rename, Expr.run_code_num, renameCode, Assembly.rename_loadConst]
  | .var slot, _ => rfl
  | .assign slot value, n => by
    simp only [Expr.rename, Expr.run_code_assign, value.code_rename, renameCode, List.map_append]
    rfl
  | .unary op operand, n => by
    simp only [Expr.rename, Expr.run_code_unary, operand.code_rename, renameCode, List.map_append,
      List.map_cons, Assembly.rename_operateUnary]
    rfl
  | .binary op left right, n => by
    simp only [Expr.rename, Expr.run_code_binary, left.code_rename, right.code_rename, renameCode,
      List.map_append, Assembly.rename_operate]
    rfl
  | .logicalAnd left right, n => by
    simp only [Expr.rename, Expr.run_code_logicalAnd, left.code_rename,
      right.code_rename, renameCode, List.map_append, Assembly.rename_loadConst]
    rfl
  | .logicalOr left right, n => by
    simp only [Expr.rename, Expr.run_code_logicalOr, left.code_rename,
      right.code_rename, renameCode, List.map_append, Assembly.rename_loadConst]
    rfl
  | .call name args, n => by
    have length : (renameArgs r args).length = args.length := by
      rw [renameArgs_eq_map, List.length_map]
    have same : r name ∈ known.map r ↔ name ∈ known := List.mem_map_of_injective r.apply_injective
    rw [Expr.rename]
    by_cases isKnown : name ∈ known
    · rw [Expr.run_code_call _ _ isKnown, Expr.run_code_call _ _ (same.mpr isKnown), length]
      simp only [codeOfArgs_rename args, renameCode, List.map_append,
        Assembly.rename_popArguments]
      rfl
    · have isUnknown := mt same.mp isKnown
      rw [Expr.run_code_call_unknown _ _ isKnown,
        Expr.run_code_call_unknown _ _ isUnknown, renameCode, Assembly.rename_loadConst]

/-- As `Expr.code_rename`, for arguments. -/
theorem codeOfArgs_rename : (es : List Expr) → (n : Nat) →
    (codeOfArgs (known.map r) (renameArgs r es)).run n = renameCode r ((codeOfArgs known es).run n)
  | [], _ => rfl
  | e :: es, n => by
    simp only [renameArgs, run_codeOfArgs_cons, e.code_rename, codeOfArgs_rename es, renameCode,
      List.map_append]
    rfl

end

/-- As `Expr.code_rename`, for an expression that may be missing. -/
theorem codeOfExpr?_rename (e? : Option Expr) (n : Nat) :
    (codeOfExpr? (known.map r) (e?.map (Expr.rename r))).run n =
      renameCode r ((codeOfExpr? known e?).run n) := by
  cases e? with
  | none => rfl
  | some e => exact e.code_rename r known n

/-- The exits under the new names. Those inside of a function keep theirs. -/
def Exits.rename (r : Renaming) (exits : Exits) : Exits :=
  ⟨exits.ret.rename r, exits.loop?.map (Prod.map (Label.rename r) (Label.rename r))⟩

/-- The exits of a loop, renamed. -/
theorem Exits.inside_rename (exits : Exits) (next done : Nat) :
    (exits.rename r).inside next done = (exits.inside next done).rename r := rfl

/-- A jump to an end of the loop, renamed. -/
theorem Exits.gotoLoop_rename (exits : Exits) {side : Label × Label → Label}
    (same : ∀ ends, side (Prod.map (Label.rename r) (Label.rename r) ends) = (side ends).rename r) :
    (exits.rename r).gotoLoop side = (exits.gotoLoop side).map (AsmItem.rename r) := by
  obtain ⟨ret, _ | ends⟩ := exits
  · rfl
  · exact congrArg (fun l => [Assembly.goto l]) (same ends)

mutual

/-- As `Expr.code_rename`, for a statement. -/
theorem Stmt.code_rename : (s : Stmt) → (exits : Exits) → (n : Nat) →
    ((s.rename r).code (known.map r) (exits.rename r)).run n =
      renameCode r ((s.code known exits).run n)
  | .ret none, exits, n => by
    simp only [Stmt.rename, Option.map_none, Stmt.run_code_ret_none, renameCode, List.map_append,
      Assembly.rename_loadConst]
    rfl
  | .ret (some e), exits, n => by
    simp only [Stmt.rename, Option.map_some, Stmt.run_code_ret_some, e.code_rename, renameCode,
      List.map_append]
    rfl
  | .expr e, _, n => e.code_rename r known n
  | .decl slot none, _, _ => rfl
  | .decl slot (some e), _, n => by
    simp only [Stmt.rename, Option.map_some, Stmt.run_code_decl_some, e.code_rename, renameCode,
      List.map_append]
    rfl
  | .ifElse cond yes none, exits, n => by
    simp only [Stmt.rename, renameStmt?, Stmt.run_code_ifElse_none, cond.code_rename,
      yes.code_rename, renameCode, List.map_append]
    rfl
  | .ifElse cond yes (some no), exits, n => by
    simp only [Stmt.rename, renameStmt?, Stmt.run_code_ifElse_some, cond.code_rename,
      yes.code_rename, no.code_rename, renameCode, List.map_append]
    rfl
  | .whileLoop cond body, exits, n => by
    simp only [Stmt.rename, Stmt.run_code_whileLoop, cond.code_rename, Exits.inside_rename,
      body.code_rename, renameCode, List.map_append]
    rfl
  | .doWhile body cond, exits, n => by
    simp only [Stmt.rename, Stmt.run_code_doWhile, cond.code_rename, Exits.inside_rename,
      body.code_rename, renameCode, List.map_append]
    rfl
  | .forLoop init cond step body, exits, n => by
    simp only [Stmt.rename, Stmt.run_code_forLoop, codeOfStmt?_rename init, codeOfExpr?_rename,
      Exits.inside_rename, body.code_rename, Assembly.rename_gotoUnless, renameCode,
      List.map_append]
    rfl
  | .breakLoop, exits, n => by
    rw [Stmt.rename, Stmt.run_code_breakLoop, Stmt.run_code_breakLoop,
      Exits.gotoLoop_rename r exits fun _ => rfl]
    rfl
  | .continueLoop, exits, n => by
    rw [Stmt.rename, Stmt.run_code_continueLoop, Stmt.run_code_continueLoop,
      Exits.gotoLoop_rename r exits fun _ => rfl]
    rfl
  | .block stmts, exits, n => codeOfStmts_rename stmts exits n
  | .empty, _, _ => rfl

/-- As `Stmt.code_rename`, for one that may be missing. -/
theorem codeOfStmt?_rename : (s? : Option Stmt) → (exits : Exits) → (n : Nat) →
    (codeOfStmt? (known.map r) (exits.rename r) (renameStmt? r s?)).run n =
      renameCode r ((codeOfStmt? known exits s?).run n)
  | none, _, _ => rfl
  | some s, exits, n => s.code_rename exits n

/-- As `Stmt.code_rename`, for a list. -/
theorem codeOfStmts_rename : (ss : List Stmt) → (exits : Exits) → (n : Nat) →
    (codeOfStmts (known.map r) (exits.rename r) (renameStmts r ss)).run n =
      renameCode r ((codeOfStmts known exits ss).run n)
  | [], _, _ => rfl
  | s :: ss, exits, n => by
    simp only [renameStmts, run_codeOfStmts_cons, s.code_rename, codeOfStmts_rename ss, renameCode,
      List.map_append]

end

/-- As `Stmt.code_rename`, for a function. -/
theorem Function.code_rename (f : Function) (n : Nat) :
    ((f.rename r).code (known.map r)).run n = renameCode r ((f.code known).run n) := by
  have body :
      (codeOfStmts (known.map r) { ret := .inner n } (f.body.map (Stmt.rename r))).run (n + 1) =
      renameCode r ((codeOfStmts known { ret := .inner n } f.body).run (n + 1)) := by
    rw [← renameStmts_eq_map]
    exact codeOfStmts_rename r known f.body { ret := .inner n } (n + 1)
  simp only [run_code, codeFrom, Function.rename, body, renameCode, List.map_cons, List.map_append,
    Assembly.rename_prologue, Assembly.rename_loadConst]
  rfl

/-- As `Function.code_rename`, for all of them. -/
theorem codeOfFunctions_rename (fs : List Function) (n : Nat) :
    (codeOfFunctions (known.map r) (fs.map (Function.rename r))).run n =
      renameCode r ((codeOfFunctions known fs).run n) := by
  induction fs generalizing n with
  | nil => rfl
  | cons f fs ih =>
    simp only [List.map_cons, run_codeOfFunctions_cons, f.code_rename, ih, renameCode,
      List.map_append]

end Trees

/-! ## Units -/

namespace Program

/-- The entry calls `main`, which has to keep its name. -/
theorem entryStub_rename {r : Renaming} (main : r "main" = "main") (known : List String) :
    entryStub (known.map r) = (entryStub known).map (AsmItem.rename r) := by
  have same : (known.map r).contains "main" = known.contains "main" := by
    rw [Bool.eq_iff_iff, List.contains_iff_mem, List.contains_iff_mem]
    have mem : r "main" ∈ known.map r ↔ "main" ∈ known :=
      List.mem_map_of_injective r.apply_injective
    rwa [main] at mem
  rw [entryStub, entryStub, same]
  split
  next =>
    rw [List.map_cons, AsmItem.rename, Label.rename, main, List.map_map]
    rfl
  next => rfl

/-- The assembly of a renamed program is the renamed assembly. -/
theorem assembly_rename {r : Renaming} (main : r "main" = "main") (p : Program) :
    (p.rename r).assembly = p.assembly.map (AsmItem.rename r) := by
  have known : (p.rename r).functions.map (·.name) = (p.functions.map (·.name)).map r := by
    rw [functions_rename, List.map_map, List.map_map]
    rfl
  rw [assembly, assembly, known, entryStub_rename main, functions_rename, List.map_append]
  exact congrArg (_ ++ ·) (congrArg Prod.fst (codeOfFunctions_rename r _ p.functions 0))

/-- A unit has the same instruction words under other names, if the same function is called `main`.
-/
theorem words_rename {r : Renaming} (main : r "main" = "main") (p : Program) :
    (p.rename r).words = p.words := by
  rw [words, words, assembly_rename main, Assembly.link_rename]

/-- **Names do not matter beyond their identity.** The unit of renamed tokens has in every place
what the unit of the tokens has there, renamed: a function with as many parameters and slots, on the
same line and with the same body but for the names of the functions it calls, or a diagnostic for
the same line. If `main` keeps its name, the machine code of both units is the same. -/
theorem ofTokens_rename (r : Renaming) (ts : List Token) :
    ofTokens (ts.map (Token.rename r)) = (ofTokens ts).rename r ∧
      (r "main" = "main" → ∀ region : Array UInt8,
        (ofTokens (ts.map (Token.rename r))).generate region = (ofTokens ts).generate region) := by
  refine ⟨ofTokens_map_rename ts, fun main region => ?_⟩
  rw [generate, generate, code, code, ofTokens_map_rename, words_rename main]

/-- Two functions change names, in a unit that also has a parameter of the one's name. -/
theorem ofTokens_rename_swap :
    let r : Renaming := .swap "f" "g" (by decide) (by decide) (by decide) (by decide)
    let ts := Token.ofSource
      "int f(int g) \x7b return -g; \x7d int g() \x7b return f(7); \x7d
      int main() \x7b return g(); \x7d".toUTF8.toList
    ((ofTokens (ts.map (Token.rename r))).functions.map fun f => (f.name, f.calls)) =
        [("g", []), ("f", [("g", 1)]), ("main", [("f", 0)])] ∧
      ∀ region : Array UInt8,
        (ofTokens (ts.map (Token.rename r))).generate region = (ofTokens ts).generate region := by
  intro r ts
  obtain ⟨renamed, sameCode⟩ := ofTokens_rename r ts
  refine ⟨?_, sameCode (by decide)⟩
  have functions : ((ofTokens ts).functions.map fun f => (f.name, f.calls)) =
      [("f", []), ("g", [("f", 1)]), ("main", [("g", 0)])] := by decide +kernel
  have names :=
    congrArg (List.map fun f : String × List (String × Nat) => (r f.1, renameCalls r f.2)) functions
  rw [renamed, functions_rename, List.map_map]
  rw [List.map_map] at names
  refine Eq.trans (List.map_congr_left fun f _ => ?_) (names.trans (by decide))
  exact congrArg (Prod.mk (r f.name)) (f.calls_rename r)

end Program

end BareC
