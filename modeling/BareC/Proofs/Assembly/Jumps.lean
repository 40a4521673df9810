import BareC.Proofs.Assembly.Labels
import BareC.Proofs.Isa.Immediates

/-!
# Every jump is linked

The code of any tree jumps only to labels that are marked: the labels that a construct takes it
marks itself, the exits that it is handed are marked by the loop or the function around it, and a
call goes to the entry of a name that has a definition. So whatever the unit, linking finds a place
for every jump, and if there is not more code than a jump reaches, the jump stored decodes to
exactly the distance between the two places (`jumps_are_linked`).

Nothing is asked of the unit. A `break` outside of loops and a call of an unknown name make no jump,
and a name that is defined twice has its entry where it was marked last.

The proof goes along the trees once (`Expr.aimed_code`, `Stmt.aimed_code`), with the labels that a
piece of code may jump out to as a set that shrinks at each construct that marks its own. That jumps
find their marks holds of units of any size. The exact distance does not: behind 2²⁰ bytes the field
of a jump may be too short, and nothing is said of what is stored then.
-/

namespace BareC

namespace Assembly

variable {a b : Assembly} {l : Label} {t : Nat}

/-! ## Bound labels -/

/-- The label is bound at word `t`, where its last mark stands. -/
def BoundAt (a : Assembly) (l : Label) (t : Nat) : Prop :=
  ∃ before behind : Assembly, a = before ++ .mark l :: behind ∧ l ∉ behind.marks ∧ before.size = t

/-- A label that is bound stands for where it is bound. -/
theorem BoundAt.placeOf?_eq (bound : a.BoundAt l t) : a.placeOf? l = some t := by
  obtain ⟨before, behind, rfl, last, rfl⟩ := bound
  exact getElem?_places_mark last

/-- A label is bound if it is marked at all. -/
theorem exists_boundAt (mem : l ∈ a.marks) : ∃ t, a.BoundAt l t := by
  induction a with
  | nil => exact absurd mem List.not_mem_nil
  | cons item a ih =>
    by_cases again : l ∈ marks a
    · obtain ⟨_, before, behind, rfl, last, -⟩ := ih again
      exact ⟨_, item :: before, behind, rfl, last, rfl⟩
    · cases item with
      | word | jump => exact absurd mem again
      | mark l' =>
        obtain rfl : l = l' := (List.mem_cons.mp mem).resolve_right again
        exact ⟨_, [], a, rfl, again, rfl⟩

/-! ## Pieces without jumps -/

/-- The piece is made of finished words. -/
def Straight (a : Assembly) : Prop :=
  ∀ item ∈ a, ∃ w, item = .word w

/-- A constant is loaded without a jump. -/
theorem straight_loadConst (rd v : Word) : (loadConst rd v).Straight := by
  rw [loadConst_eq]
  split
  next => exact List.forall_mem_singleton.mpr ⟨_, rfl⟩
  next =>
    refine List.forall_mem_cons.mpr ⟨⟨_, rfl⟩, ?_⟩
    split
    next => exact List.forall_mem_nil _
    next => exact List.forall_mem_singleton.mpr ⟨_, rfl⟩

theorem straight_push : push.Straight := by
  simp [Straight, push, Draft.push, Draft.item, aluImm, storeWord]

theorem straight_pop (rd : Word) : (pop rd).Straight := by
  simp [Straight, pop, Draft.pop, Draft.item, loadWord, aluImm]

/-- Arguments are popped without a jump. -/
theorem straight_popArguments (count : Nat) : (popArguments count).Straight := by
  intro item mem
  rw [popArguments_eq] at mem
  obtain ⟨i, -, popped⟩ := List.mem_flatMap.mp mem
  exact straight_pop (argument i) item popped

/-- Operators have no jumps, comparisons neither. -/
theorem straight_operate (op : BinaryOp) : (operate op).Straight := by
  cases op <;> simp [Straight, operate, Draft.operate, Draft.item, alu, aluImm]

theorem straight_operateUnary (op : UnaryOp) : Straight [operateUnary op] := by
  cases op <;> simp [Straight, operateUnary, Draft.operateUnary, Draft.item, alu, aluImm]

/-- A frame is opened without a jump. -/
theorem straight_prologue (params locals : Nat) : (prologue params locals).Straight := by
  rw [prologue_eq, openFrame_eq_ite, storeParams_eq]
  refine List.forall_mem_append.mpr ⟨List.forall_mem_append.mpr ⟨?_, ?_⟩, ?_⟩
  · simp [saveFrame, Draft.saveFrame, Draft.item, aluImm, storeWord]
  · split <;> simp [aluImm]
  · exact List.forall_mem_map.mpr fun i _ => ⟨_, rfl⟩

/-- A return is no jump to a label: it is a finished word. -/
theorem straight_epilogue : epilogue.Straight := by
  simp [Straight, epilogue_eq, closeFrame, Draft.closeFrame, Draft.item, aluImm, loadWord]

/-! ## Where jumps are aimed -/

/-- Every jump of the piece names a register for the way back, and goes to a label that is marked in
the piece or to one of those outside. -/
def Aimed (outside : List Label) (a : Assembly) : Prop :=
  ∀ rd l, .jump rd l ∈ a → (∃ r, rd = Encode.reg r) ∧ (l ∈ a.marks ∨ l ∈ outside)

namespace Aimed

variable {outside wider : List Label}

/-- Where there are no jumps, they are aimed at anything. -/
theorem straight (h : a.Straight) : Aimed outside a := by
  intro rd l mem
  obtain ⟨w, eq⟩ := h _ mem
  cases eq

theorem nil : Aimed outside [] :=
  straight (List.forall_mem_nil _)

theorem word (w : Word) : Aimed outside [.word w] :=
  straight (List.forall_mem_singleton.mpr ⟨w, rfl⟩)

theorem mark (l : Label) : Aimed outside [.mark l] := by
  intro rd l' mem
  cases List.mem_singleton.mp mem

/-- A single jump needs its label outside. -/
theorem jump (mem : l ∈ outside) (r : Reg) : Aimed outside [.jump (Encode.reg r) l] := by
  intro rd l' isJump
  cases List.mem_singleton.mp isJump
  exact ⟨⟨r, rfl⟩, .inr mem⟩

/-- A jump of either part may be aimed at a mark of the other. -/
theorem append (ha : Aimed outside a) (hb : Aimed outside b) : Aimed outside (a ++ b) := by
  intro rd l mem
  rw [marks_append, List.mem_append]
  rcases List.mem_append.mp mem with mem | mem
  · exact ⟨(ha rd l mem).1, (ha rd l mem).2.imp_left .inl⟩
  · exact ⟨(hb rd l mem).1, (hb rd l mem).2.imp_left .inr⟩

/-- More labels may stand outside. -/
theorem mono (h : Aimed outside a) (subset : outside ⊆ wider) : Aimed wider a :=
  fun rd l mem => ⟨(h rd l mem).1, (h rd l mem).2.imp_right fun mem => subset mem⟩

/-- Where a construct has labels of its own, its parts may jump to these as well. -/
theorem inside (own : List Label) (h : Aimed outside a) : Aimed (own ++ outside) a :=
  h.mono (List.subset_append_right ..)

/-- A construct that marks its own labels jumps nowhere else than its parts did before. -/
theorem close (own : List Label) (h : Aimed (own ++ outside) a) (marked : ∀ l ∈ own, l ∈ a.marks) :
    Aimed outside a := by
  intro rd l mem
  obtain ⟨isReg, target⟩ := h rd l mem
  rw [List.mem_append] at target
  exact ⟨isReg, target.elim .inl fun target => target.imp_left (marked l)⟩

/-- A jump on a condition is aimed at what its plain jump is aimed at. -/
theorem gotoIfZero (l : Label) (mem : l ∈ outside) : Aimed outside (gotoIfZero l) :=
  (word _).append (jump mem .zero)

/-- As `gotoIfZero`. -/
theorem gotoIfNonzero (l : Label) (mem : l ∈ outside) : Aimed outside (gotoIfNonzero l) :=
  (word _).append (jump mem .zero)

/-- A jump in front of a mark. -/
theorem jumpMark (l l' : Label) (mem : l ∈ outside) : Aimed outside [goto l, .mark l'] :=
  (jump mem .zero).append (mark l')

end Aimed

/-! ## Distances -/

/-- A jump between two words of not too much code has their distance. -/
theorem signed_offset {i j : Nat} (hi : 4 * i ≤ 2 ^ 20) (hj : 4 * j < 2 ^ 20) :
    ((offset i j &&& ~~~1).signed 21).toInt = 4 * ((j : Int) - i) := by
  have value : (offset i j).toInt = ((j : Int) - i) * 4 :=
    BitVec.toInt_ofInt_eq_self (by decide) (by omega) (by omega)
  rw [offset_even, Word.signed_eq_self (by decide) (by omega) (by omega), value, Int.mul_comm]

end Assembly

open Assembly

/-- The entries of the names. -/
def entries (known : List String) : List Label :=
  known.map .entry

/-- Where the code of a statement may jump to outside of itself: to its exits, and to entries. -/
def Exits.outside (exits : Exits) (known : List String) : List Label :=
  exits.ret :: exits.loop?.elim [] (fun ends => [ends.1, ends.2]) ++ entries known

variable (known : List String)

/-! ## Code of constructs -/

@[simp]
theorem Assembly.marks_goto (l : Label) (a : Assembly) : marks (goto l :: a) = marks a :=
  rfl

@[simp]
theorem Assembly.marks_alu (op : AluOp) (rd rs1 rs2 : Word) (a : Assembly) :
    marks (alu op rd rs1 rs2 :: a) = marks a :=
  rfl

/-- A jump on a condition marks nothing. -/
@[simp]
theorem Assembly.marks_gotoIfZero (l : Label) : marks (gotoIfZero l) = [] :=
  rfl

/-- As `marks_gotoIfZero`. -/
@[simp]
theorem Assembly.marks_gotoIfNonzero (l : Label) : marks (gotoIfNonzero l) = [] :=
  rfl

/-- A logical operator marks the two labels that it jumps to. -/
theorem Assembly.aimed_shortCircuit {outside : List Label} {left right skip : Assembly}
    {skipped done : Label} {v : Word} (l : Aimed outside left) (r : Aimed outside right)
    (hs : Aimed [skipped] skip) :
    Aimed outside (left ++ skip ++ right ++
      [alu .sltu a0 zero a0, goto done, .mark skipped] ++ loadConst a0 v ++ [.mark done]) := by
  have test := (l.inside [skipped, done]).append (hs.mono (by simp))
  have join : Aimed ([skipped, done] ++ outside) [alu .sltu a0 zero a0, goto done, .mark skipped] :=
    (Aimed.word _).append (.jumpMark done skipped (by simp))
  have either :=
    ((test.append (r.inside _)).append join).append (.straight (straight_loadConst a0 v))
  exact (either.append (.mark done)).close [skipped, done] (by simp)

mutual

/-- The jumps of an expression stay in it, but for its calls. -/
theorem Expr.aimed_code : (e : Expr) → (n : Nat) → Aimed (entries known) ((e.code known).run n).1
  | .num v, n => by
    rw [Expr.run_code_num]
    exact .straight (straight_loadConst a0 v)
  | .var _, _ => .word _
  | .assign slot value, n => by
    simp only [Expr.run_code_assign]
    exact (value.aimed_code n).append (.word _)
  | .unary op operand, n => by
    simp only [Expr.run_code_unary]
    exact (operand.aimed_code n).append (.straight (straight_operateUnary op))
  | .binary op left right, n => by
    simp only [Expr.run_code_binary]
    have l := (left.aimed_code n).append (.straight straight_push)
    have r := right.aimed_code ((left.code known).run n).2
    exact ((l.append r).append (.straight (straight_pop a1))).append
      (.straight (straight_operate op))
  | .logicalAnd left right, n => by
    simp only [Expr.run_code_logicalAnd]
    exact aimed_shortCircuit (left.aimed_code _) (right.aimed_code _)
      (.gotoIfZero _ List.mem_cons_self)
  | .logicalOr left right, n => by
    simp only [Expr.run_code_logicalOr]
    exact aimed_shortCircuit (left.aimed_code _) (right.aimed_code _)
      (.gotoIfNonzero _ List.mem_cons_self)
  | .call name args, n => by
    by_cases isKnown : name ∈ known
    · simp only [Expr.run_code_call known n isKnown]
      have popped :=
        (aimed_codeOfArgs args n).append (.straight (straight_popArguments args.length))
      exact popped.append (.jump (List.mem_map_of_mem isKnown) .ra)
    · rw [Expr.run_code_call_unknown known n isKnown]
      exact .straight (straight_loadConst a0 0)

/-- The jumps of arguments stay in them, but for their calls. -/
theorem aimed_codeOfArgs : (es : List Expr) → (n : Nat) →
    Aimed (entries known) ((codeOfArgs known es).run n).1
  | [], _ => .nil
  | e :: es, n => by
    simp only [run_codeOfArgs_cons]
    exact ((e.aimed_code n).append (.straight straight_push)).append (aimed_codeOfArgs es _)

end

/-- As `Expr.aimed_code`, for an expression that may be missing. -/
theorem aimed_codeOfExpr? (e : Option Expr) (n : Nat) :
    Aimed (entries known) ((codeOfExpr? known e).run n).1 := by
  cases e with
  | none => exact .nil
  | some e => exact e.aimed_code known n

/-- The test in front of the body of a loop. -/
theorem Assembly.aimed_gotoUnless {outside : List Label} {check : Assembly}
    (cond : Option Expr) (done : Label) (h : Aimed outside check) (mem : done ∈ outside) :
    Aimed outside (gotoUnless cond check done) := by
  unfold gotoUnless
  split
  next => exact h.append (.gotoIfZero done mem)
  next => exact .nil

variable {known} in
/-- The end of the function is one of the places that statements jump to. -/
theorem Exits.ret_mem_outside (exits : Exits) : exits.ret ∈ exits.outside known :=
  List.mem_cons_self

/-- A jump out of a loop is aimed at an end of the innermost one. -/
theorem Exits.aimed_gotoLoop (exits : Exits) {side : Label × Label → Label}
    (isEnd : ∀ ends : Label × Label, side ends ∈ [ends.1, ends.2]) :
    Aimed (exits.outside known) (exits.gotoLoop side) := by
  rw [gotoLoop, Exits.draft, outside]
  cases exits.loop? with
  | none => exact .nil
  | some ends => exact .jump (List.mem_append_left _ (List.mem_cons_of_mem _ (isEnd ends))) .zero

namespace Assembly.Aimed

variable {known} {a : Assembly}

/-- What is aimed at entries is aimed at entries and exits. -/
theorem outside (h : Aimed (entries known) a) (exits : Exits) : Aimed (exits.outside known) a :=
  h.mono (List.subset_append_right ..)

/-- The body of a loop that marks its two ends jumps to these or around the loop. -/
theorem body {exits : Exits} {next done : Nat}
    (h : Aimed ((exits.inside next done).outside known) a) (own : List Label)
    (isNext : .inner next ∈ own) (isDone : .inner done ∈ own) :
    Aimed (own ++ exits.outside known) a := by
  refine h.mono (List.append_subset.mpr ⟨?_, fun l mem => ?_⟩)
  · simp only [Exits.inside, Option.elim_some, List.cons_subset, List.nil_subset, and_true]
    exact ⟨List.mem_append_right _ exits.ret_mem_outside, List.mem_append_left _ isNext,
      List.mem_append_left _ isDone⟩
  · exact List.mem_append_right _ (List.mem_append_right _ mem)

end Assembly.Aimed

mutual

/-- The jumps of a statement stay in it, but for its calls and its exits. -/
theorem Stmt.aimed_code : (s : Stmt) → (exits : Exits) → (n : Nat) →
    Aimed (exits.outside known) ((s.code known exits).run n).1
  | .ret none, exits, n => by
    rw [Stmt.run_code_ret_none]
    exact (Aimed.straight (straight_loadConst a0 0)).append (.jump exits.ret_mem_outside .zero)
  | .ret (some e), exits, n => by
    simp only [Stmt.run_code_ret_some]
    exact ((e.aimed_code known n).outside exits).append (.jump exits.ret_mem_outside .zero)
  | .expr e, exits, n => (e.aimed_code known n).outside exits
  | .decl _ none, _, _ => .word _
  | .decl slot (some e), exits, n => by
    simp only [Stmt.run_code_decl_some]
    exact ((e.aimed_code known n).outside exits).append (.word _)
  | .ifElse cond yes none, exits, n => by
    simp only [Stmt.run_code_ifElse_none]
    have c := ((cond.aimed_code known (n + 1)).outside exits).inside [.inner n]
    have y := yes.aimed_code exits ((cond.code known).run (n + 1)).2
    have all :=
      ((c.append (.gotoIfZero (.inner n) (by simp))).append (y.inside _)).append (.mark (.inner n))
    exact all.close [.inner n] (by simp)
  | .ifElse cond yes (some no), exits, n => by
    simp only [Stmt.run_code_ifElse_some]
    have c := ((cond.aimed_code known (n + 2)).outside exits).inside [.inner n, .inner (n + 1)]
    have y := yes.aimed_code exits ((cond.code known).run (n + 2)).2
    have o := no.aimed_code exits ((yes.code known exits).run ((cond.code known).run (n + 2)).2).2
    have test := (c.append (.gotoIfZero (.inner n) (by simp))).append (y.inside _)
    have join := test.append (.jumpMark (.inner (n + 1)) (.inner n) (by simp))
    have all := (join.append (o.inside _)).append (.mark (.inner (n + 1)))
    exact all.close [.inner n, .inner (n + 1)] (by simp)
  | .whileLoop cond body, exits, n => by
    simp only [Stmt.run_code_whileLoop]
    have c := ((cond.aimed_code known (n + 2)).outside exits).inside [.inner n, .inner (n + 1)]
    have b := body.aimed_code (exits.inside n (n + 1)) ((cond.code known).run (n + 2)).2
    have test := ((Aimed.mark (.inner n)).append c).append (.gotoIfZero (.inner (n + 1)) (by simp))
    have round := test.append (b.body _ (by simp) (by simp))
    have all := round.append (.jumpMark (.inner n) (.inner (n + 1)) (by simp))
    exact all.close [.inner n, .inner (n + 1)] (by simp)
  | .doWhile body cond, exits, n => by
    simp only [Stmt.run_code_doWhile]
    have b := (body.aimed_code (exits.inside (n + 1) (n + 2)) (n + 3)).body
      [.inner n, .inner (n + 1), .inner (n + 2)] (by simp) (by simp)
    have c := cond.aimed_code known ((body.code known (exits.inside (n + 1) (n + 2))).run (n + 3)).2
    have round := ((Aimed.mark (.inner n)).append b).append (.mark (.inner (n + 1)))
    have test :=
      (round.append ((c.outside exits).inside _)).append (.gotoIfNonzero (.inner n) (by simp))
    have all := test.append (.mark (.inner (n + 2)))
    exact all.close [.inner n, .inner (n + 1), .inner (n + 2)] (by simp)
  | .forLoop init cond step body, exits, n => by
    simp only [Stmt.run_code_forLoop]
    have i :=
      (aimed_codeOfStmt? init exits (n + 3)).inside [.inner n, .inner (n + 1), .inner (n + 2)]
    have c := aimed_codeOfExpr? known cond ((codeOfStmt? known exits init).run (n + 3)).2
    have b := body.aimed_code (exits.inside (n + 1) (n + 2))
      ((codeOfExpr? known cond).run ((codeOfStmt? known exits init).run (n + 3)).2).2
    have s := aimed_codeOfExpr? known step ((body.code known (exits.inside (n + 1) (n + 2))).run
      ((codeOfExpr? known cond).run ((codeOfStmt? known exits init).run (n + 3)).2).2).2
    have test := (i.append (.mark (.inner n))).append
      (aimed_gotoUnless cond (.inner (n + 2)) ((c.outside exits).inside _) (by simp))
    have round := (test.append (b.body _ (by simp) (by simp))).append (.mark (.inner (n + 1)))
    have all := (round.append ((s.outside exits).inside _)).append
      (.jumpMark (.inner n) (.inner (n + 2)) (by simp))
    exact all.close [.inner n, .inner (n + 1), .inner (n + 2)] (by simp)
  | .breakLoop, exits, n => exits.aimed_gotoLoop known fun ends => by simp
  | .continueLoop, exits, n => exits.aimed_gotoLoop known fun ends => by simp
  | .block stmts, exits, n => aimed_codeOfStmts stmts exits n
  | .empty, _, _ => .nil

/-- As `Stmt.aimed_code`, for a statement that may be missing. -/
theorem aimed_codeOfStmt? : (s : Option Stmt) → (exits : Exits) → (n : Nat) →
    Aimed (exits.outside known) ((codeOfStmt? known exits s).run n).1
  | none, _, _ => .nil
  | some s, exits, n => s.aimed_code exits n

/-- As `Stmt.aimed_code`, for a block. -/
theorem aimed_codeOfStmts : (ss : List Stmt) → (exits : Exits) → (n : Nat) →
    Aimed (exits.outside known) ((codeOfStmts known exits ss).run n).1
  | [], _, _ => .nil
  | s :: ss, exits, n => by
    simp only [run_codeOfStmts_cons]
    exact (s.aimed_code exits n).append (aimed_codeOfStmts ss exits _)

end

/-! ## Units -/

/-- The return of a function is marked in it, and it begins outside of all loops. -/
theorem Function.aimed_code (f : Function) (n : Nat) :
    Aimed (entries known) ((f.code known).run n).1 := by
  rw [Function.run_code, Function.codeFrom]
  have body : Aimed ([.inner n] ++ entries known) _ :=
    aimed_codeOfStmts known f.body { ret := .inner n } (n + 1)
  have opened :
      Aimed ([.inner n] ++ entries known) (.mark (.entry f.name) :: prologue f.params f.locals) :=
    (Aimed.mark _).append (.straight (straight_prologue f.params f.locals))
  refine .close [.inner n] ?_ (by simp)
  exact (((opened.append body).append (.straight (straight_loadConst a0 0))).append
    (.mark _)).append (.straight straight_epilogue)

/-- The jumps of functions are aimed at their own marks and at entries. -/
theorem aimed_codeOfFunctions (fs : List Function) (n : Nat) :
    Aimed (entries known) ((codeOfFunctions known fs).run n).1 := by
  induction fs generalizing n with
  | nil => exact .nil
  | cons f fs ih =>
    rw [run_codeOfFunctions_cons]
    exact (f.aimed_code known n).append (ih _)

namespace Program

variable {p : Program} {rd : Word} {l : Label}

/-- Every jump of a unit is aimed at a mark of its code or at the entry of one of its functions. -/
theorem aimed_assembly (p : Program) : Aimed (entries (p.functions.map (·.name))) p.assembly := by
  refine Aimed.append ?_ (aimed_codeOfFunctions _ p.functions 0)
  unfold entryStub
  split
  next isKnown =>
    have call : Aimed (entries (p.functions.map (·.name))) [.jump ra (.entry "main")] :=
      .jump (List.mem_map_of_mem (List.contains_iff_mem.mp isKnown)) .ra
    exact call.append (.straight (by simp [Straight]))
  next => exact .nil

/-- Of every label that is jumped to there is a mark. -/
theorem mem_marks_of_jump (mem : .jump rd l ∈ p.assembly) : l ∈ p.assembly.marks := by
  rcases (p.aimed_assembly rd l mem).2 with marked | isEntry
  · exact marked
  · obtain ⟨name, isKnown, rfl⟩ := List.mem_map.mp isEntry
    obtain ⟨f, isFunction, rfl⟩ := List.mem_map.mp isKnown
    obtain ⟨fs, gs, eq⟩ := List.append_of_mem isFunction
    obtain ⟨before, behind, n, whole, -⟩ := assembly_eq_append eq
    rw [whole, marks_append, marks_mark]
    exact List.mem_append_right _ List.mem_cons_self

/-- The word of a jump is aimed at where its label is bound. -/
theorem getElem?_words_jump {before behind : Assembly} {t : Nat}
    (whole : p.assembly = before ++ .jump rd l :: behind) (bound : p.assembly.BoundAt l t) :
    p.words[before.size]? = some (Encode.jal rd (offset before.size t)) := by
  have found := getElem?_link_append before (.jump rd l :: behind) 0
  rwa [← whole, Nat.add_zero, wordsFrom, ← placeOf?, bound.placeOf?_eq] at found

/-- In a unit with not too much code, every jump goes to a label that is bound, at one word of the
code and no other. The word of the jump decodes to a `jal` with the register that was asked for,
over exactly the distance from the jump to that word. -/
theorem jumps_are_linked (short : p.codeLength ≤ 2 ^ 20) {before behind : Assembly}
    (whole : p.assembly = before ++ .jump rd l :: behind) :
    ∃ t, p.assembly.BoundAt l t ∧ p.assembly.placeOf? l = some t ∧ t < p.words.length ∧
      ∃ w r d, p.words[before.size]? = some w ∧ rd = Encode.reg r ∧
        Instr.decode? w = some (.jal r d) ∧ d.toInt = 4 * ((t : Int) - before.size) := by
  have mem : .jump rd l ∈ p.assembly := whole ▸ List.mem_append_right _ List.mem_cons_self
  obtain ⟨t, bound⟩ := exists_boundAt (mem_marks_of_jump mem)
  obtain ⟨r, rfl⟩ := (p.aimed_assembly rd l mem).1
  have word := getElem?_words_jump whole bound
  have near := compact_of_codeLength_le short l t bound.placeOf?_eq
  have here := (List.getElem?_eq_some_iff.mp word).1
  have inside : t < p.words.length := by
    rw [words, length_link]
    exact lt_size_of_placeOf? bound.placeOf?_eq
  rw [codeLength] at short
  exact ⟨t, bound, bound.placeOf?_eq, inside, _, r, _, word, rfl, Instr.decode?_jal ..,
    signed_offset (by omega) near⟩

/-- A unit that no source stands for: a name is defined twice, a `break` is outside of all loops,
and there is a call of nothing. -/
def unruly : Program where
  items := [
    .function { name := "f", params := 0, locals := 0, body := [.breakLoop], line := 1 },
    .function { name := "f", params := 0, locals := 1, line := 2,
                body := [.whileLoop (.logicalAnd (.var 0) (.call "g" [])) .continueLoop] },
    .function { name := "main", params := 0, locals := 0, body :=
      [.expr (.call "f" [])], line := 3 }]

/-- There the call of the name that is defined twice goes back to the later one. -/
theorem jumps_are_linked_unruly :
    unruly.codeLength ≤ 2 ^ 20 ∧
      unruly.assembly = unruly.assembly.take 49 ++
      .jump ra (.entry "f") :: unruly.assembly.drop 50 ∧
      size (unruly.assembly.take 49) = 40 ∧ unruly.assembly.BoundAt (.entry "f") 14 ∧
      ∃ w d, unruly.words[40]? = some w ∧ Instr.decode? w = some (.jal .ra d) ∧ d.toInt = -104 := by
  have short : unruly.codeLength ≤ 2 ^ 20 := by decide +kernel
  have whole : unruly.assembly =
      unruly.assembly.take 49 ++ .jump ra (.entry "f") :: unruly.assembly.drop 50 := by
        decide +kernel
  have start : size (unruly.assembly.take 49) = 40 := by decide +kernel
  have bound : unruly.assembly.BoundAt (.entry "f") 14 :=
    ⟨unruly.assembly.take 16, unruly.assembly.drop 17, by decide +kernel, by decide +kernel,
      by decide +kernel⟩
  obtain ⟨t, -, place, -, w, r, d, word, isReg, decoded, distance⟩ := jumps_are_linked short whole
  obtain rfl : 14 = t := Option.some.inj (bound.placeOf?_eq.symm.trans place)
  have only : ∀ r : Reg, ra = Encode.reg r → r = .ra := by decide
  obtain rfl := only r isReg
  rw [start] at word distance
  exact ⟨short, whole, start, bound, w, d, word, decoded, distance⟩

end Program

end BareC
