import BareC.Proofs.Assembly.Equations
import BareC.Proofs.Assembly.Placement
import Mathlib.Algebra.Group.Nat.Defs

/-!
# Labels are marked once

The labels inside functions are numbers that are handed out in order. The code made between two
states of the counter marks labels from between them, and none of them twice. So the code of every
function lies where it was put: nothing behind it marks a label of its own again.

Entries of functions are another matter. A name that is defined twice marks its entry twice, and the
entry that counts is that of the last definition (`placed_lastDefinition`).

What is carried along the trees is an interval: the labels a piece of code marks lie between the
number free in front of it and the number free behind it, and the piece behind begins where that
interval ends. Two pieces side by side therefore share no label, and no list of marks is ever
searched.

That labels inside functions are jumped to at all is not looked at here, only that they stand for
one place.
-/

namespace BareC.Assembly

/-- All labels that the code marks are numbers from `n` on and below `n'`, and no two marks are of
one label. -/
structure MarksIn (n n' : Nat) (a : Assembly) : Prop where
  le : n ≤ n'
  inner : ∀ l ∈ a.marks, ∃ k, l = .inner k ∧ n ≤ k ∧ k < n'
  nodup : a.marks.Nodup

namespace MarksIn

variable {n n' n'' k : Nat} {a b : Assembly}

/-- Code without marks. -/
theorem plain (h : a.marks = []) : MarksIn n n a :=
  ⟨Nat.le_refl n, by simp [h], by simp [h]⟩

/-- Labels that were taken before are not marked. -/
theorem not_mem_of_lt (h : MarksIn n n' a) (hk : k < n) : .inner k ∉ a.marks := by
  intro mem
  obtain ⟨j, eq, low, -⟩ := h.inner _ mem
  cases eq
  omega

/-- The labels that are marked are among those from an earlier one on. -/
theorem weaken (h : MarksIn k n' a) (hk : n ≤ k) : MarksIn n n' a := by
  refine ⟨Nat.le_trans hk h.le, ?_, h.nodup⟩
  intro l mem
  obtain ⟨j, eq, low, high⟩ := h.inner l mem
  exact ⟨j, eq, Nat.le_trans hk low, high⟩

/-- Two pieces that take their labels one after the other mark none twice. -/
theorem append (ha : MarksIn n n' a) (hb : MarksIn n' n'' b) : MarksIn n n'' (a ++ b) := by
  refine ⟨Nat.le_trans ha.le hb.le, ?_, ?_⟩
  · intro l mem
    rw [marks_append, List.mem_append] at mem
    rcases mem with mem | mem
    · obtain ⟨j, eq, low, high⟩ := ha.inner l mem
      exact ⟨j, eq, low, Nat.lt_of_lt_of_le high hb.le⟩
    · exact (hb.weaken ha.le).inner l mem
  · rw [marks_append, List.nodup_append]
    refine ⟨ha.nodup, hb.nodup, ?_⟩
    rintro l mem l' mem' rfl
    obtain ⟨j, eq, -, high⟩ := ha.inner l mem
    obtain ⟨j', eq', low, -⟩ := hb.inner l mem'
    rw [eq] at eq'
    cases eq'
    omega

/-- The number below all others is marked somewhere in the code. -/
theorem insert (h : MarksIn (n + 1) n' (a ++ b)) :
    MarksIn n n' (a ++ .mark (.inner n) :: b) := by
  have perm : (a ++ .mark (.inner n) :: b).marks.Perm (.inner n :: (a ++ b).marks) := by
    rw [marks_append, marks_mark, marks_append]
    exact List.perm_middle
  refine ⟨Nat.le_of_lt h.le, ?_, ?_⟩
  · intro l mem
    rw [perm.mem_iff, List.mem_cons] at mem
    rcases mem with rfl | mem
    · exact ⟨n, rfl, Nat.le_refl n, h.le⟩
    · exact (h.weaken (Nat.le_succ n)).inner l mem
  · rw [perm.nodup_iff, List.nodup_cons]
    exact ⟨h.not_mem_of_lt (Nat.lt_succ_self n), h.nodup⟩

/-- Code without marks in front of or behind some other changes nothing. -/
theorem append_plain (h : MarksIn n n' a) (hb : b.marks = []) : MarksIn n n' (a ++ b) :=
  h.append (.plain hb)

end MarksIn

/-! ## Pieces without marks -/

/-- Loading a constant marks nothing. -/
@[simp]
theorem marks_loadConst (rd v : Word) : (loadConst rd v).marks = [] := by
  rw [loadConst_eq]
  split
  next => rfl
  next => split <;> rfl

/-- Operators mark nothing. -/
@[simp]
theorem marks_operate (op : BinaryOp) : (operate op).marks = [] := by
  cases op <;> rfl

@[simp]
theorem marks_operateUnary (op : UnaryOp) : marks [operateUnary op] = [] := by
  cases op <;> rfl

/-- Pieces that mark nothing mark nothing together. -/
theorem marks_flatMap_eq_nil {α : Type} {f : α → Assembly} (h : ∀ x, (f x).marks = [])
    (xs : List α) : marks (xs.flatMap f) = [] := by
  induction xs with
  | nil => rfl
  | cons x xs ih => rw [List.flatMap_cons, marks_append, h, ih]; rfl

/-- Popping arguments marks nothing. -/
@[simp]
theorem marks_popArguments (count : Nat) : (popArguments count).marks = [] := by
  rw [popArguments_eq]
  exact marks_flatMap_eq_nil (fun _ => rfl) _

/-- A jump out of a loop marks nothing. -/
@[simp]
theorem marks_gotoLoop (exits : Exits) (side : Label × Label → Label) :
    marks (exits.gotoLoop side) = [] := by
  rw [Exits.gotoLoop, Exits.draft]
  split <;> rfl

/-- Opening a frame marks nothing. -/
@[simp]
theorem marks_prologue (params locals : Nat) : (prologue params locals).marks = [] := by
  have opened : (openFrame locals).marks = [] := by
    rw [openFrame_eq_ite]
    split <;> rfl
  have stores : (storeParams params).marks = [] := by
    rw [storeParams_eq, List.map_eq_flatMap]
    exact marks_flatMap_eq_nil (fun _ => rfl) _
  rw [prologue_eq, marks_append, marks_append, opened, stores]
  rfl

end BareC.Assembly

namespace BareC

open Assembly

/-- The labels lie near enough to each other for jumps. -/
def Assembly.Compact (whole : Assembly) : Prop :=
  ∀ l j, whole.placeOf? l = some j → 4 * j < 2 ^ 20

variable (known : List String)

/-! ## Code of constructs -/

/-- Two operands with the jumps around the second one. -/
theorem Assembly.marksIn_shortCircuit {n m k : Nat} {left right skip : Assembly} {v : Word}
    (l : MarksIn (n + 2) m left) (r : MarksIn m k right) (hs : skip.marks = []) :
    MarksIn n k (left ++ skip ++ right ++
      [alu .sltu a0 zero a0, goto (.inner (n + 1)), .mark (.inner n)] ++ loadConst a0 v ++
      [.mark (.inner (n + 1))]) := by
  have normal : MarksIn (n + 2) k (left ++ skip ++ right ++
      [alu .sltu a0 zero a0, goto (.inner (n + 1))] ++ loadConst a0 v) :=
    (((l.append_plain hs).append r).append_plain rfl).append_plain (marks_loadConst ..)
  have last := MarksIn.insert (b := []) (by simpa using normal)
  have first := MarksIn.insert (n := n)
    (a := left ++ skip ++ right ++ [alu .sltu a0 zero a0, goto (.inner (n + 1))])
    (b := loadConst a0 v ++ [.mark (.inner (n + 1))]) (by simpa using last)
  simpa using first

mutual

/-- An expression marks labels that it has taken itself, none of them twice. -/
theorem Expr.marksIn_code : (e : Expr) → (n : Nat) →
    MarksIn n ((e.code known).run n).2 ((e.code known).run n).1
  | .num v, n => by
    rw [Expr.run_code_num]
    exact .plain (marks_loadConst a0 v)
  | .var _, _ => .plain rfl
  | .assign slot value, n => by
    simp only [Expr.run_code_assign]
    exact (value.marksIn_code n).append_plain rfl
  | .unary op operand, n => by
    simp only [Expr.run_code_unary]
    exact (operand.marksIn_code n).append_plain (marks_operateUnary op)
  | .binary op left right, n => by
    simp only [Expr.run_code_binary]
    have l := left.marksIn_code n
    have r := right.marksIn_code ((left.code known).run n).2
    exact (((l.append_plain rfl).append r).append_plain rfl).append_plain (marks_operate op)
  | .logicalAnd left right, n => by
    simp only [Expr.run_code_logicalAnd]
    have l := left.marksIn_code (n + 2)
    have r := right.marksIn_code ((left.code known).run (n + 2)).2
    exact marksIn_shortCircuit l r rfl
  | .logicalOr left right, n => by
    simp only [Expr.run_code_logicalOr]
    have l := left.marksIn_code (n + 2)
    have r := right.marksIn_code ((left.code known).run (n + 2)).2
    exact marksIn_shortCircuit l r rfl
  | .call name args, n => by
    by_cases h : name ∈ known
    · simp only [Expr.run_code_call known n h]
      exact ((marksIn_codeOfArgs args n).append_plain (marks_popArguments _)).append_plain rfl
    · rw [Expr.run_code_call_unknown known n h]
      exact .plain (marks_loadConst a0 0)

/-- As `Expr.marksIn_code`, for arguments. -/
theorem marksIn_codeOfArgs : (es : List Expr) → (n : Nat) →
    MarksIn n ((codeOfArgs known es).run n).2 ((codeOfArgs known es).run n).1
  | [], _ => .plain rfl
  | e :: es, n => by
    simp only [run_codeOfArgs_cons]
    exact ((e.marksIn_code n).append_plain rfl).append (marksIn_codeOfArgs es _)

end

/-- As `Expr.marksIn_code`, for an expression that may be missing. -/
theorem marksIn_codeOfExpr? (e : Option Expr) (n : Nat) :
    MarksIn n ((codeOfExpr? known e).run n).2 ((codeOfExpr? known e).run n).1 := by
  cases e with
  | none => exact .plain rfl
  | some e => exact e.marksIn_code known n

/-- The test in front of the body of a loop. -/
theorem marksIn_gotoUnless (cond : Option Expr) (n : Nat) (done : Label) :
    MarksIn n ((codeOfExpr? known cond).run n).2
      (gotoUnless cond ((codeOfExpr? known cond).run n).1 done) := by
  cases cond with
  | none => exact .plain rfl
  | some e => exact (e.marksIn_code known n).append_plain rfl

/-- A loop with all its parts. -/
theorem Assembly.marksIn_forLoop {n i c b k : Nat} {init check body step : Assembly}
    (hi : MarksIn (n + 3) i init) (hc : MarksIn i c check) (hb : MarksIn c b body)
    (hs : MarksIn b k step) :
    MarksIn n k (init ++ [.mark (.inner n)] ++ check ++ body ++ [.mark (.inner (n + 1))] ++ step ++
      [goto (.inner n), .mark (.inner (n + 2))]) := by
  have all := (((hi.append hc).append hb).append hs).append_plain (b := [goto (.inner n)]) rfl
  have done := MarksIn.insert (b := []) (by simpa using all)
  have next := MarksIn.insert (n := n + 1) (a := init ++ check ++ body)
    (b := step ++ [goto (.inner n), .mark (.inner (n + 2))]) (by simpa using done)
  have top := MarksIn.insert (n := n) (a := init) (b := check ++ body ++
    [.mark (.inner (n + 1))] ++ step ++ [goto (.inner n), .mark (.inner (n + 2))])
    (by simpa using next)
  simpa using top

mutual

/-- A statement marks labels that it has taken itself, none of them twice; its exits are not among
them. -/
theorem Stmt.marksIn_code : (s : Stmt) → (exits : Exits) → (n : Nat) →
    MarksIn n ((s.code known exits).run n).2 ((s.code known exits).run n).1
  | .ret none, exits, n => by
    rw [Stmt.run_code_ret_none]
    exact (MarksIn.plain (marks_loadConst a0 0)).append_plain rfl
  | .ret (some e), exits, n => by
    simp only [Stmt.run_code_ret_some]
    exact (e.marksIn_code known n).append_plain rfl
  | .expr e, exits, n => e.marksIn_code known n
  | .decl _ none, _, _ => .plain rfl
  | .decl slot (some e), exits, n => by
    simp only [Stmt.run_code_decl_some]
    exact (e.marksIn_code known n).append_plain rfl
  | .ifElse cond yes none, exits, n => by
    simp only [Stmt.run_code_ifElse_none]
    have c := cond.marksIn_code known (n + 1)
    have y := yes.marksIn_code exits ((cond.code known).run (n + 1)).2
    have all := (c.append_plain (b := gotoIfZero (.inner n)) rfl).append y
    exact .insert (by simpa using all)
  | .ifElse cond yes (some no), exits, n => by
    simp only [Stmt.run_code_ifElse_some]
    have c := cond.marksIn_code known (n + 2)
    have y := yes.marksIn_code exits ((cond.code known).run (n + 2)).2
    have o := no.marksIn_code exits ((yes.code known exits).run ((cond.code known).run (n + 2)).2).2
    have all := (((c.append_plain (b := gotoIfZero (.inner n)) rfl).append y).append_plain
      (b := [goto (.inner (n + 1))]) rfl).append o
    have outer := MarksIn.insert (b := []) (by simpa using all)
    have inner := MarksIn.insert (n := n)
      (a := ((cond.code known).run (n + 2)).1 ++ gotoIfZero (.inner n) ++
        ((yes.code known exits).run ((cond.code known).run (n + 2)).2).1 ++
        [goto (.inner (n + 1))]) (by simpa using outer)
    simpa using inner
  | .whileLoop cond body, exits, n => by
    simp only [Stmt.run_code_whileLoop]
    have c := cond.marksIn_code known (n + 2)
    have b := body.marksIn_code (exits.inside n (n + 1)) ((cond.code known).run (n + 2)).2
    have all := ((c.append_plain (b := gotoIfZero (.inner (n + 1))) rfl).append b).append_plain
      (b := [goto (.inner n)]) rfl
    have done := MarksIn.insert (b := []) (by simpa using all)
    have top := MarksIn.insert (a := []) (by simpa using done)
    simpa using top
  | .doWhile body cond, exits, n => by
    simp only [Stmt.run_code_doWhile]
    have b := body.marksIn_code (exits.inside (n + 1) (n + 2)) (n + 3)
    have c := cond.marksIn_code known
      ((body.code known (exits.inside (n + 1) (n + 2))).run (n + 3)).2
    have all := (b.append c).append_plain (b := gotoIfNonzero (.inner n)) rfl
    have done := MarksIn.insert (b := []) (by simpa using all)
    have next := MarksIn.insert (by simpa using done)
    have top := MarksIn.insert (a := []) (by simpa using next)
    simpa using top
  | .forLoop init cond step body, exits, n => by
    simp only [Stmt.run_code_forLoop]
    have i := marksIn_codeOfStmt? init exits (n + 3)
    have c := marksIn_gotoUnless known cond ((codeOfStmt? known exits init).run (n + 3)).2
      (.inner (n + 2))
    have b := body.marksIn_code (exits.inside (n + 1) (n + 2))
      ((codeOfExpr? known cond).run ((codeOfStmt? known exits init).run (n + 3)).2).2
    have s := marksIn_codeOfExpr? known step ((body.code known (exits.inside (n + 1) (n + 2))).run
      ((codeOfExpr? known cond).run ((codeOfStmt? known exits init).run (n + 3)).2).2).2
    exact marksIn_forLoop i c b s
  | .breakLoop, exits, n => .plain (marks_gotoLoop exits _)
  | .continueLoop, exits, n => .plain (marks_gotoLoop exits _)
  | .block stmts, exits, n => marksIn_codeOfStmts stmts exits n
  | .empty, _, _ => .plain rfl

/-- As `Stmt.marksIn_code`, for a statement that may be missing. -/
theorem marksIn_codeOfStmt? : (s : Option Stmt) → (exits : Exits) → (n : Nat) →
    MarksIn n ((codeOfStmt? known exits s).run n).2 ((codeOfStmt? known exits s).run n).1
  | none, _, _ => .plain rfl
  | some s, exits, n => s.marksIn_code exits n

/-- As `Stmt.marksIn_code`, for a block. -/
theorem marksIn_codeOfStmts : (ss : List Stmt) → (exits : Exits) → (n : Nat) →
    MarksIn n ((codeOfStmts known exits ss).run n).2 ((codeOfStmts known exits ss).run n).1
  | [], _, _ => .plain rfl
  | s :: ss, exits, n => by
    simp only [run_codeOfStmts_cons]
    exact (s.marksIn_code exits n).append (marksIn_codeOfStmts ss exits _)

end

/-! ## Functions -/

/-- The body of a function marks labels behind that of its end. -/
theorem Function.marksIn_codeFrom (f : Function) (n : Nat) :
    MarksIn n ((codeOfStmts known { ret := .inner n } f.body).run (n + 1)).2
      (f.codeFrom known n) := by
  have body := marksIn_codeOfStmts known f.body { ret := .inner n } (n + 1)
  have all := ((MarksIn.plain (marks_prologue f.params f.locals)).append body).append_plain
    (marks_loadConst a0 0)
  exact (MarksIn.insert (b := []) (by simpa using all)).append_plain rfl

/-- A function ends with its return. -/
theorem Function.codeFrom_eq_concat (f : Function) (n : Nat) :
    ∃ a, f.codeFrom known n = a ++ [.word (Encode.jalr zero ra 0)] := by
  refine ⟨prologue f.params f.locals ++
    ((codeOfStmts known { ret := .inner n } f.body).run (n + 1)).1 ++ loadConst a0 0 ++
    [.mark (.inner n)] ++ epilogue.dropLast, ?_⟩
  rw [codeFrom, List.append_assoc _ epilogue.dropLast]
  rfl

/-- Labels of functions one behind the other: the entries of their names, and numbers from `n` on.
-/
theorem marks_codeOfFunctions (fs : List Function) (n : Nat) :
    ∀ l ∈ marks ((codeOfFunctions known fs).run n).1,
      (∃ f ∈ fs, l = .entry f.name) ∨ ∃ k, l = .inner k ∧ n ≤ k := by
  induction fs generalizing n with
  | nil => intro l mem; cases mem
  | cons f fs ih =>
    intro l mem
    have own := f.marksIn_codeFrom known n
    rw [run_codeOfFunctions_cons, marks_append, List.mem_append, Function.run_code, marks_mark,
      List.mem_cons] at mem
    rcases mem with (rfl | mem) | mem
    · exact .inl ⟨f, List.mem_cons_self, rfl⟩
    · obtain ⟨k, eq, low, -⟩ := own.inner l mem
      exact .inr ⟨k, eq, low⟩
    · rcases ih _ l mem with ⟨g, hg, eq⟩ | ⟨k, eq, low⟩
      · exact .inl ⟨g, List.mem_cons_of_mem _ hg, eq⟩
      · exact .inr ⟨k, eq, Nat.le_trans own.le low⟩

/-- The code of some functions and of others stands one behind the other. -/
theorem codeOfFunctions_append (fs gs : List Function) (n : Nat) :
    (codeOfFunctions known (fs ++ gs)).run n =
      let first := (codeOfFunctions known fs).run n
      let others := (codeOfFunctions known gs).run first.2
      (first.1 ++ others.1, others.2) := by
  induction fs generalizing n with
  | nil => rfl
  | cons f fs ih =>
    simp only [List.cons_append, run_codeOfFunctions_cons, ih, List.append_assoc]

namespace Program

/-- The definition of a name that its calls reach: the last one. -/
def lastDefinition? (p : Program) (name : String) : Option Function :=
  p.functions.reverse.find? (·.name == name)

/-- A name that is defined has a last definition. -/
theorem exists_lastDefinition? {p : Program} {name : String}
    (h : name ∈ p.functions.map (·.name)) : ∃ f, p.lastDefinition? name = some f := by
  obtain ⟨f, mem, rfl⟩ := List.mem_map.mp h
  refine Option.isSome_iff_exists.mp (List.find?_isSome.mpr ⟨f, List.mem_reverse.mpr mem, ?_⟩)
  exact beq_self_eq_true _

/-- Behind the last definition of a name there is no other. -/
theorem functions_eq_of_lastDefinition? {p : Program} {name : String} {f : Function}
    (h : p.lastDefinition? name = some f) :
    f.name = name ∧ ∃ fs gs, p.functions = fs ++ f :: gs ∧ ∀ g ∈ gs, g.name ≠ name := by
  obtain ⟨found, as, bs, eq, before⟩ := List.find?_eq_some_iff_append.mp h
  refine ⟨by simpa using found, bs.reverse, as.reverse, ?_, ?_⟩
  · rw [← List.reverse_reverse p.functions, eq]
    simp
  · intro g hg
    simpa using before g (List.mem_reverse.mp hg)

/-- The word at which the code of the function with this number begins. -/
def startOf (p : Program) (k : Nat) : Nat :=
  let known := p.functions.map (·.name)
  (entryStub known ++ ((codeOfFunctions known (p.functions.take k)).run 0).1).size

/-- The code of a unit around one of its functions. Behind the function no label of its own is
marked, and no entry but those of the functions that follow. -/
theorem assembly_eq_append {p : Program} {fs gs : List Function} {f : Function}
    (eq : p.functions = fs ++ f :: gs) :
    ∃ (before behind : Assembly) (n : Nat), p.assembly =
        before ++ .mark (.entry f.name) :: (f.codeFrom (p.functions.map (·.name)) n ++ behind) ∧
      before.size = p.startOf fs.length ∧ (f.codeFrom (p.functions.map (·.name)) n).marks.Nodup ∧
      (∀ l ∈ (f.codeFrom (p.functions.map (·.name)) n).marks,
        (∃ k, l = .inner k) ∧ l ∉ behind.marks) ∧
      ∀ name, .entry name ∈ behind.marks → ∃ g ∈ gs, g.name = name := by
  generalize hknown : p.functions.map (·.name) = known
  let before := (codeOfFunctions known fs).run 0
  let n := before.2
  let last := ((codeOfStmts known { ret := .inner n } f.body).run (n + 1)).2
  have ownMarks := f.marksIn_codeFrom known n
  have behindMarks := marks_codeOfFunctions known gs last
  refine ⟨entryStub known ++ before.1, ((codeOfFunctions known gs).run last).1, n, ?_, ?_,
    ownMarks.nodup, fun l mem => ?_, fun name mem => ?_⟩
  · rw [assembly, hknown, eq]
    simp only [codeOfFunctions_append, run_codeOfFunctions_cons, Function.run_code, before, n, last,
      List.append_assoc, List.cons_append]
  · rw [startOf, hknown, eq, List.take_left]
  · obtain ⟨k, rfl, -, high⟩ := ownMarks.inner l mem
    refine ⟨⟨k, rfl⟩, fun again => ?_⟩
    rcases behindMarks _ again with ⟨g, -, eq⟩ | ⟨k', eq, low⟩
    · cases eq
    · obtain rfl := Label.inner.inj eq
      omega
  · rcases behindMarks _ mem with ⟨g, isLater, eq⟩ | ⟨k, eq, -⟩
    · exact ⟨g, isLater, (Label.entry.inj eq).symm⟩
    · cases eq

/-- The code of every function lies where the function begins. -/
theorem placed_codeFrom {p : Program} {fs gs : List Function} {f : Function}
    (eq : p.functions = fs ++ f :: gs) :
    ∃ n, p.assembly.Placed (p.startOf fs.length) (f.codeFrom (p.functions.map (·.name)) n) := by
  obtain ⟨before, behind, n, whole, size, once, own, -⟩ := assembly_eq_append eq
  have split : p.assembly = (before ++ [.mark (.entry f.name)]) ++
      f.codeFrom (p.functions.map (·.name)) n ++ behind := by
    rw [whole]; simp
  have start : Assembly.size (before ++ [.mark (.entry f.name)]) = p.startOf fs.length := by
    simp [AsmItem.size, size]
  refine ⟨n, ?_⟩
  rw [split, ← start]
  exact placed_of_append once fun l mem => (own l mem).2

/-- The entry of a name is where its last definition begins. -/
theorem placeOf?_entry {p : Program} {fs gs : List Function} {f : Function}
    (eq : p.functions = fs ++ f :: gs) (last : ∀ g ∈ gs, g.name ≠ f.name) :
    p.assembly.placeOf? (.entry f.name) = some (p.startOf fs.length) := by
  obtain ⟨before, behind, n, whole, size, -, own, later⟩ := assembly_eq_append eq
  rw [placeOf?, whole, ← size]
  apply getElem?_places_mark
  rw [marks_append, List.mem_append, not_or]
  constructor
  · intro mem
    obtain ⟨⟨k, inner⟩, -⟩ := own _ mem
    cases inner
  · intro mem
    obtain ⟨g, isLater, same⟩ := later _ mem
    exact last g isLater same

/-- The code of the last definition of a name lies at the place of the name's entry. -/
theorem placed_lastDefinition {p : Program} {name : String} {f : Function}
    (h : p.lastDefinition? name = some f) :
    ∃ i n, p.assembly.placeOf? (.entry name) = some i ∧
      p.assembly.Placed i (f.codeFrom (p.functions.map (·.name)) n) := by
  obtain ⟨rfl, fs, gs, eq, later⟩ := functions_eq_of_lastDefinition? h
  obtain ⟨n, placed⟩ := placed_codeFrom eq
  exact ⟨_, n, placeOf?_entry eq later, placed⟩

/-- In front of a unit with a `main` lie the call of it and the halt. -/
theorem placed_entryStub {p : Program} {f : Function} (h : p.lastDefinition? "main" = some f) :
    p.assembly.Placed 0 (.jump ra (.entry "main") :: haltCode.map .word) := by
  obtain ⟨name, fs, gs, eq, -⟩ := functions_eq_of_lastDefinition? h
  have known : "main" ∈ p.functions.map (·.name) := by
    rw [eq, ← name]
    exact List.mem_map_of_mem (List.mem_append_right fs List.mem_cons_self)
  have parts : p.assembly = [] ++ (.jump ra (.entry "main") :: haltCode.map .word) ++
      ((codeOfFunctions (p.functions.map (·.name)) p.functions).run 0).1 := by
    rw [assembly, entryStub, if_pos (List.contains_iff_mem.mpr known)]
    rfl
  rw [parts]
  exact placed_of_append (by decide) (by simp [haltCode])

/-- The code of functions ends with an instruction. -/
theorem codeOfFunctions_eq_concat (fs : List Function) (n : Nat) :
    fs = [] ∨ ∃ a w, ((codeOfFunctions known fs).run n).1 = a ++ [.word w] := by
  rcases List.eq_nil_or_concat fs with rfl | ⟨fs, f, rfl⟩
  · exact .inl rfl
  · obtain ⟨a, own⟩ := f.codeFrom_eq_concat known ((codeOfFunctions known fs).run n).2
    refine .inr ⟨((codeOfFunctions known fs).run n).1 ++ .mark (.entry f.name) :: a,
      Encode.jalr zero ra 0, ?_⟩
    simp only [List.concat_eq_append, codeOfFunctions_append, run_codeOfFunctions_cons,
      run_codeOfFunctions_nil, Function.run_code, own, List.append_assoc, List.cons_append,
      List.append_nil]

/-- All labels of a unit stand in front of one of its instructions. -/
theorem lt_size_of_placeOf? {p : Program} {l : Label} {i : Nat}
    (h : p.assembly.placeOf? l = some i) : i < p.assembly.size := by
  rcases codeOfFunctions_eq_concat (p.functions.map (·.name)) p.functions 0 with none | ⟨a, w, eq⟩
  · have empty : p.assembly = [] := by
      rw [assembly, none]
      rfl
    rw [empty, placeOf?, places, Std.HashMap.getElem?_empty] at h
    cases h
  · have whole : p.assembly = (entryStub (p.functions.map (·.name)) ++ a) ++ [.word w] := by
      rw [assembly, eq, List.append_assoc]
    rw [whole] at h ⊢
    exact lt_size_of_placeOf?_concat h

/-- Code that is not too long is within the reach of its jumps. -/
theorem compact_of_codeLength_le {p : Program} (h : p.codeLength ≤ 2 ^ 20) :
    p.assembly.Compact := by
  intro l i place
  have lt := lt_size_of_placeOf? place
  rw [codeLength, words, length_link] at h
  omega

end Program

end BareC
