import BareC.Proofs.Grammar.Slots
import BareC.Proofs.Printing.Units

/-!
# Printing and reading

Reading the tokens of well-formed functions gives these functions back, exactly if none of them hits
a limit. Nothing is taken away again when calls are linked, since every call is one of a function of
the unit.

Both directions are shown: a unit that fits is read back, and one that does not leaves a diagnostic.
The token lists are those of printed units. That any other token list which is read without an error
is one of these, up to parentheses, is not claimed.
-/

namespace BareC

/-! ## Calls -/

namespace Named

section Calls

variable {arities : Arities}

mutual

/-- The calls of an expression are those of functions with as many parameters. -/
theorem linked_expr {vars : Grammar.Variables} :
    ∀ e : Expr, e.wellFormed arities vars = true →
      ∀ call ∈ (e.resolve vars).calls, arities.lookup call.1 = some call.2
  | .num _, _ => nofun
  | .var _, _ => nofun
  | .assign _ e, wf => linked_expr e (Bool.and_eq_true_iff.mp wf).2
  | .unary _ e, wf => linked_expr e wf
  | .binary op l r, wf => by
    have both : ((Expr.binary op l r).resolve vars).calls =
        (l.resolve vars).calls ++ (r.resolve vars).calls := by
      cases op <;> rfl
    obtain ⟨left, right⟩ := Bool.and_eq_true_iff.mp wf
    rw [both]
    exact List.forall_mem_append.mpr ⟨linked_expr l left, linked_expr r right⟩
  | .call name args, wf => by
    obtain ⟨call, inside⟩ := Bool.and_eq_true_iff.mp wf
    have found := eq_of_beq (Bool.and_eq_true_iff.mp call).1
    refine List.forall_mem_cons.mpr ⟨?_, linked_args args inside⟩
    rw [Grammar.length_resolveArgs]
    exact found

/-- The calls of well-formed arguments resolve. -/
theorem linked_args {vars : Grammar.Variables} :
    ∀ es : List Expr, wellFormedArgs arities vars es = true →
      ∀ call ∈ callsOfArgs (resolveArgs vars es), arities.lookup call.1 = some call.2
  | [], _ => nofun
  | e :: es, wf => by
    obtain ⟨first, others⟩ := Bool.and_eq_true_iff.mp wf
    exact List.forall_mem_append.mpr ⟨linked_expr e first, linked_args es others⟩

end

/-- As `linked_args`, for an expression that may be missing. -/
theorem linked_expr? {vars : Grammar.Variables} (e : Option Expr)
    (wf : wellFormedExpr? arities vars e = true) :
    ∀ call ∈ callsOfExpr? (e.map (·.resolve vars)), arities.lookup call.1 = some call.2 := by
  cases e with
  | none => exact nofun
  | some e => exact linked_expr e wf

/-- As `linked_args`, for declarators. -/
theorem linked_declarators {scope : Grammar.Scope} (ds : List Declarator)
    (wf : wellFormedDeclarators arities scope ds = true) :
    ∀ call ∈ callsOfStmts (resolveDeclarators scope ds), arities.lookup call.1 = some call.2 := by
  induction ds generalizing scope with
  | nil => exact nofun
  | cons d ds ih =>
    obtain ⟨first, others⟩ := Bool.and_eq_true_iff.mp wf
    exact List.forall_mem_append.mpr ⟨linked_expr? d.init first, ih others⟩

/-- As `linked_args`, for a declaration. -/
theorem linked_declaration {scope : Grammar.Scope} (d : Declaration)
    (wf : d.wellFormed arities scope = true) :
    ∀ call ∈ (d.resolve scope).calls, arities.lookup call.1 = some call.2 := by
  have all := linked_declarators (d.first :: d.others) wf
  obtain ⟨first, others⟩ := d
  cases others with
  | nil => exact (List.forall_mem_append.mp all).1
  | cons d ds => exact all

/-- As `linked_args`, for the first part of a loop's header. -/
theorem linked_start {scope : Grammar.Scope} (start : Start)
    (wf : start.wellFormed arities scope = true) :
    ∀ call ∈ callsOfStmt? (start.resolve scope), arities.lookup call.1 = some call.2 := by
  cases start with
  | nothing => exact nofun
  | expr e => exact linked_expr e wf
  | decl d => exact linked_declaration d wf

mutual

/-- As `linked_args`, for a statement. -/
theorem linked_stmt : ∀ (s : Stmt) {inLoop : Bool} {scope : Grammar.Scope},
    s.wellFormed arities inLoop scope = true →
      ∀ call ∈ (s.resolve scope).calls, arities.lookup call.1 = some call.2
  | .ret value, _, _, wf => linked_expr? value wf
  | .expr e, _, _, wf => linked_expr e wf
  | .decl d, _, _, wf => linked_declaration d wf
  | .ifElse cond yes no, _, _, wf => by
    obtain ⟨wf, hno⟩ := Bool.and_eq_true_iff.mp wf
    obtain ⟨hcond, hyes⟩ := Bool.and_eq_true_iff.mp (Bool.and_eq_true_iff.mp wf).1
    exact List.forall_mem_append.mpr ⟨List.forall_mem_append.mpr
      ⟨linked_expr cond hcond, linked_stmt yes hyes⟩, linked_stmt? no hno⟩
  | .whileLoop cond body, _, _, wf => by
    obtain ⟨hcond, hbody⟩ := Bool.and_eq_true_iff.mp wf
    exact List.forall_mem_append.mpr ⟨linked_expr cond hcond, linked_stmt body hbody⟩
  | .doWhile body cond, _, _, wf => by
    obtain ⟨hbody, hcond⟩ := Bool.and_eq_true_iff.mp wf
    exact List.forall_mem_append.mpr ⟨linked_expr cond hcond, linked_stmt body hbody⟩
  | .forLoop start cond step body, _, _, wf => by
    obtain ⟨wf, hbody⟩ := Bool.and_eq_true_iff.mp wf
    obtain ⟨wf, hstep⟩ := Bool.and_eq_true_iff.mp wf
    obtain ⟨hstart, hcond⟩ := Bool.and_eq_true_iff.mp wf
    have header := List.forall_mem_append.mpr ⟨linked_start start hstart, linked_expr? cond hcond⟩
    exact List.forall_mem_append.mpr ⟨List.forall_mem_append.mpr
      ⟨header, linked_expr? step hstep⟩, linked_stmt body hbody⟩
  | .breakLoop, _, _, _ => nofun
  | .continueLoop, _, _, _ => nofun
  | .block ss, _, _, wf => linked_stmts ss wf
  | .empty, _, _, _ => nofun

/-- As `linked_stmt`, for one that may be missing. -/
theorem linked_stmt? : ∀ (s : Option Stmt) {inLoop : Bool} {scope : Grammar.Scope},
    wellFormedStmt? arities inLoop scope s = true →
      ∀ call ∈ callsOfStmt? (resolveStmt? scope s), arities.lookup call.1 = some call.2
  | none, _, _, _ => nofun
  | some s, _, _, wf => linked_stmt s wf

/-- As `linked_stmt`, for a list. -/
theorem linked_stmts : ∀ (ss : List Stmt) {inLoop : Bool} {scope : Grammar.Scope},
    wellFormedStmts arities inLoop scope ss = true →
      ∀ call ∈ callsOfStmts (resolveStmts scope ss), arities.lookup call.1 = some call.2
  | [], _, _, _ => nofun
  | s :: ss, _, _, wf => by
    obtain ⟨first, others⟩ := Bool.and_eq_true_iff.mp wf
    exact List.forall_mem_append.mpr ⟨linked_stmt s first, linked_stmts ss others⟩

end

end Calls

end Named

namespace Program

/-- A name that is listed once is found with what it is listed with. -/
theorem lookup_of_mem {α : Type} {l : List (String × α)} (distinct : (l.map (·.1)).Nodup)
    {entry : String × α} (mem : entry ∈ l) : l.lookup entry.1 = some entry.2 := by
  induction l with
  | nil => exact absurd mem List.not_mem_nil
  | cons first l ih =>
    rw [List.map_cons, List.nodup_cons] at distinct
    rw [List.lookup_cons]
    rcases List.mem_cons.mp mem with rfl | mem
    · rw [beq_self_eq_true]
    · have other : entry.1 ≠ first.1 := fun eq => distinct.1 (eq ▸ List.mem_map_of_mem mem)
      rw [beq_false_of_ne other]
      exact ih distinct.2 mem

/-- If every call is linked, there is nothing to take away. -/
theorem link_eq_self {p : Program}
    (linked : ∀ f ∈ p.functions, ∀ call ∈ f.calls, p.arities.lookup call.1 = some call.2) :
    p.link = p := by
  have same : ∀ item ∈ p.items, checkItem p.arities item = item := by
    intro item mem
    cases item with
    | error d => rfl
    | function f =>
      have none : f.calls.findSome? p.arities.fault? = none := by
        refine List.findSome?_eq_none_iff.mpr fun call inside => ?_
        rw [Arities.fault?, linked f (mem_functions.mpr mem) call inside]
        exact if_pos rfl
      rw [checkItem, none]
  have kept : p.checkCalls = p := by
    rw [checkCalls, List.map_congr_left same, List.map_id']
  exact link_eq_of_checkCalls_eq kept

/-- A diagnostic stays when calls are linked. -/
theorem mem_link_of_error {p : Program} {d : Diagnostic} (h : .error d ∈ p.items) :
    .error d ∈ p.link.items := by
  fun_induction link p with
  | case1 p q fewer ih => exact ih (List.mem_map.mpr ⟨.error d, h, rfl⟩)
  | case2 p q fewer => exact h

section Units

variable {fs : List Named.Function} (wf : Named.WellFormed fs) (line : LineNumber)

include wf

/-- A printed unit is read back where all of it fits, and otherwise has an error. -/
theorem read_tokensOfUnit :
    ((∀ f ∈ fs, f.Fits) →
      (read (Named.tokensOfUnit fs line)).items = fs.map fun f => .function f.resolve) ∧
    (¬(∀ f ∈ fs, f.Fits) → ∃ d, .error d ∈ (read (Named.tokensOfUnit fs line)).items) := by
  have start : Grammar.Cursor.ofTokens (Named.tokensOfUnit fs line) =
      (⟨[.endOfSource line], 0⟩ : Grammar.Cursor).before (fs.flatMap Named.Function.tokens) := by
    rw [Grammar.Cursor.ofTokens, Grammar.cut_tokensOfUnit]
    rfl
  have long : fs.length ≤ ((⟨[.endOfSource line], 0⟩ : Grammar.Cursor).before
      (fs.flatMap Named.Function.tokens)).ahead.length := by
    have least : ∀ fs : List Named.Function,
      fs.length ≤ (fs.flatMap Named.Function.tokens).length := by
      intro fs
      induction fs with
      | nil => exact Nat.le_refl _
      | cons f fs ih =>
        rw [List.flatMap_cons, Named.Function.tokens, List.cons_append, List.length_cons,
          List.length_cons, List.length_append]
        omega
    rw [Grammar.Cursor.before, List.length_append]
    exact Nat.le_trans (least fs) (Nat.le_add_right _ _)
  have all := Grammar.Reading.finish_tokens wf.bodies wf.distinct [] (fun _ _ => rfl) #[] rfl
    (c := ⟨[.endOfSource line], 0⟩) long
  rw [List.nil_append] at all
  rw [read, start]
  exact ⟨all.1, fun unfit => (all.2 unfit).imp fun d mem => Array.mem_toList_iff.mpr mem⟩

/-- The functions of a printed unit call each other as they are declared. -/
theorem link_tokensOfUnit :
    (⟨fs.map fun f => .function f.resolve⟩ : Program).link =
      ⟨fs.map fun f => .function f.resolve⟩ := by
  have functions : (⟨fs.map fun f => .function f.resolve⟩ : Program).functions =
      fs.map Named.Function.resolve := by
    rw [Program.functions, List.filterMap_map]
    exact congrFun List.filterMap_eq_map fs
  have arities : (⟨fs.map fun f => .function f.resolve⟩ : Program).arities =
      (Named.arities fs).reverse := by
    rw [Program.arities, functions, List.map_map]
    rfl
  refine link_eq_self fun f mem call inside => ?_
  rw [functions] at mem
  obtain ⟨g, known, rfl⟩ := List.mem_map.mp mem
  have found := Named.linked_stmts g.body (wf.bodies g known) call inside
  have distinct : ((Named.arities fs).reverse.map (·.1)).Nodup := by
    rw [List.map_reverse, (List.reverse_perm _).nodup_iff, Named.arities, List.map_map]
    exact wf.distinct
  rw [arities]
  exact lookup_of_mem distinct (List.mem_reverse.mpr (Grammar.mem_of_lookup found))

end Units

/-- Reading what is printed of well-formed functions gives exactly these functions, in their order
and with their names resolved, if none of them hits a limit, and not otherwise. -/
theorem ofTokens_tokensOfUnit {fs : List Named.Function} (wf : Named.WellFormed fs)
    (line : LineNumber) :
    (ofTokens (Named.tokensOfUnit fs line)).items = fs.map (fun f => .function f.resolve) ↔
      ∀ f ∈ fs, f.Fits := by
  obtain ⟨good, bad⟩ := read_tokensOfUnit wf line
  constructor
  · intro items
    by_cases fits : ∀ f ∈ fs, f.Fits
    · exact fits
    obtain ⟨d, mem⟩ := bad fits
    have stays := mem_link_of_error mem
    rw [← ofTokens, items] at stays
    obtain ⟨f, -, eq⟩ := List.mem_map.mp stays
    cases eq
  · intro fits
    have eq : read (Named.tokensOfUnit fs line) = ⟨fs.map fun f => .function f.resolve⟩ :=
      congrArg Program.mk (good fits)
    rw [ofTokens, eq, link_tokensOfUnit wf]

end Program

/-- Two functions, in the second of which a block hides a variable from its own first value on. -/
def Named.shadowing : List Named.Function :=
  let x : Name := ⟨"x", by decide⟩
  let y : Name := ⟨"y", by decide⟩
  let twice : Name := ⟨"twice", by decide⟩
  [{ name := twice
     params := [x]
     body := [.ret (some (.binary (.strict .add) (.var x) (.var x)))]
     line := 1 },
   { name := ⟨"main", by decide⟩
     params := []
     body :=
       [.decl ⟨⟨x, some (.num 2)⟩, [⟨y, none⟩]⟩,
        .block
          [.decl ⟨⟨x, some (.call twice [.var x])⟩, []⟩,
           .expr (.assign y (.binary (.strict .sub) (.var x)
             (.binary (.strict .sub) (.num 1) (.var x))))],
        .ret (some (.binary (.strict .mul) (.binary (.strict .add) (.var x) (.var y)) (.num 3)))]
     line := 2 }]

/-- A unit in which a name is declared again in an inner block. -/
theorem Program.ofTokens_shadowing : Named.WellFormed Named.shadowing ∧
    (Program.ofTokens (Named.tokensOfUnit Named.shadowing 3)).items =
      [.function
        { name := "twice", params := 1, locals := 1, line := 1
          body := [.ret (some (.binary .add (.var 0) (.var 0)))] },
       .function
        { name := "main", params := 0, locals := 3, line := 2
          body :=
            [.block [.decl 0 (some (.num 2)), .decl 1 none],
             .block
               [.decl 2 (some (.call "twice" [.var 2])),
                .expr (.assign 1 (.binary .sub (.var 2) (.binary .sub (.num 1) (.var 2))))],
             .ret (some (.binary .mul (.binary .add (.var 0) (.var 1)) (.num 3)))] }] := by
  have wf : Named.WellFormed Named.shadowing := by decide
  have fits : ∀ f ∈ Named.shadowing, f.Fits := by decide
  exact ⟨wf, (Program.ofTokens_tokensOfUnit wf 3).mpr fits⟩

end BareC
