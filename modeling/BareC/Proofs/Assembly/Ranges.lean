import BareC.Proofs.Assembly.Drafts
import BareC.Proofs.Grammar.Slots
import BareC.Proofs.Isa.Immediates

/-!
# The generator stays in range

No immediate of a function that keeps inside its frame is cut to its field, and no register runs out
of its own: what the parser promises of slots, parameters and arguments is what the generator needs.

A draft fits if each field of it does (`Draft.Fits`): its registers are among those of generated
code, and an immediate that goes into twelve bits comes back from them. There is one lemma for each
sequence of the generator, and one case for each construct of the trees (`Expr.drafts_fit`,
`Stmt.drafts_fit`), which asks for the number of slots, for the arguments of each call and for
nothing else.

Two things are not settled here. The target of a jump is a label, and whether its distance fits is
known only where the code is linked (`Jumps`). And the upper half of a constant is not looked at;
that it has twenty bits, and that the two halves add up, is shown where constants are loaded
(`Machine/Constants`). Of functions that do not keep inside their frame nothing is said: the
generator would cut their slots without noticing.
-/

namespace BareC

/-! ## What fits -/

namespace Assembly

/-- The registers that pass arguments. -/
def argumentRegisters : List Word :=
  (List.range Grammar.maxParameters).map argument

/-- The registers of generated code. -/
def registers : List Word :=
  [zero, ra, sp, s0] ++ argumentRegisters

end Assembly

open Assembly (zero ra sp s0 a0 a1 argument slotPlace registers argumentRegisters)

namespace Draft

/-- The registers that the draft names. -/
def operands : Draft → List Word
  | .alu _ rd rs1 rs2 => [rd, rs1, rs2]
  | .aluImm _ rd rs1 _ | .jalr rd rs1 _ => [rd, rs1]
  | .loadWord rd base _ => [rd, base]
  | .storeWord rs base _ => [rs, base]
  | .branch _ rs1 rs2 _ => [rs1, rs2]
  | .lui rd _ | .jump rd _ => [rd]
  | .mark _ => []

/-- The immediate that has to fit in twelve bits. -/
def immediate? : Draft → Option Word
  | .aluImm _ _ _ imm => some imm
  | .loadWord _ _ offset | .storeWord _ _ offset | .jalr _ _ offset => some offset
  | .alu .. | .branch .. | .lui .. | .jump .. | .mark _ => none

/-- Nothing of the draft is lost when it is encoded. -/
def Fits (d : Draft) : Prop :=
  (∀ r ∈ d.operands, r ∈ registers) ∧ ∀ imm ∈ d.immediate?, Encode.isImm12 imm = true

instance : DecidablePred Fits := fun d =>
  inferInstanceAs (Decidable (_ ∧ ∀ imm ∈ d.immediate?, Encode.isImm12 imm = true))

theorem zero_mem : zero ∈ registers := by decide
theorem ra_mem : ra ∈ registers := by decide
theorem sp_mem : sp ∈ registers := by decide
theorem s0_mem : s0 ∈ registers := by decide
theorem a0_mem : a0 ∈ registers := by decide
theorem a1_mem : a1 ∈ registers := by decide

/-- The registers of the first eight arguments are among those of generated code. -/
theorem argument_mem {i : Nat} (h : i < Grammar.maxParameters) : argument i ∈ registers :=
  List.mem_append_right _ (List.mem_map_of_mem (List.mem_range.mpr h))

section Instructions

variable {rd rs1 rs2 imm : Word}

/-- Of an operation on registers only the registers can be out of range. -/
theorem fits_alu (op : AluOp) (hd : rd ∈ registers) (h1 : rs1 ∈ registers) (h2 : rs2 ∈ registers) :
    (alu op rd rs1 rs2).Fits := by
  simp [Fits, operands, immediate?, *]

/-- An operation with an immediate needs that in twelve bits. -/
theorem fits_aluImm (op : ImmOp) (hd : rd ∈ registers) (h1 : rs1 ∈ registers)
    (hi : Encode.isImm12 imm = true) : (aluImm op rd rs1 imm).Fits := by
  simp [Fits, operands, immediate?, *]

/-- A load needs its offset in twelve bits. -/
theorem fits_loadWord (hd : rd ∈ registers) (h1 : rs1 ∈ registers)
    (hi : Encode.isImm12 imm = true) : (loadWord rd rs1 imm).Fits := by
  simp [Fits, operands, immediate?, *]

/-- A store needs its offset in twelve bits. -/
theorem fits_storeWord (h2 : rs2 ∈ registers) (h1 : rs1 ∈ registers)
    (hi : Encode.isImm12 imm = true) : (storeWord rs2 rs1 imm).Fits := by
  simp [Fits, operands, immediate?, *]

/-- The offset of a branch is not asked about: the generator has only one, over the next word. -/
theorem fits_branch (op : BranchOp) (h1 : rs1 ∈ registers) (h2 : rs2 ∈ registers) :
    (branch op rs1 rs2 imm).Fits := by
  simp [Fits, operands, immediate?, *]

/-- The upper part of a word has twenty bits by itself. -/
theorem fits_lui (hd : rd ∈ registers) : (lui rd imm).Fits := by
  simp [Fits, operands, immediate?, *]

theorem fits_jalr (hd : rd ∈ registers) (h1 : rs1 ∈ registers)
    (hi : Encode.isImm12 imm = true) : (jalr rd rs1 imm).Fits := by
  simp [Fits, operands, immediate?, *]

/-- Where a jump goes is a matter of linking. -/
theorem fits_jump (target : Label) (hd : rd ∈ registers) : (jump rd target).Fits := by
  simp [Fits, operands, immediate?, *]

theorem fits_mark (l : Label) : (mark l).Fits := by
  simp [Fits, operands, immediate?]

end Instructions

/-! ### Immediates -/

/-- The lower part of a constant is a signed number of twelve bits. -/
theorem isImm12_low (v : Word) : Encode.isImm12 (Encode.upperLower v).2 = true := by
  -- The low twelve bits are what a shift up and back leaves, with the sign of their first bit.
  have low : ((v <<< 20).sshiftRight 20).toInt = (v <<< 20).toInt >>> (20 : Nat) :=
    BitVec.toInt_sshiftRight
  have above : (v <<< 20).toInt < 2 ^ 31 := BitVec.toInt_lt
  have below := BitVec.le_toInt (v <<< 20)
  simp only [Encode.isImm12, Encode.upperLower, low, Int.shiftRight_eq_div_pow, Bool.and_eq_true,
    decide_eq_true_eq]
  omega

/-- The offset of a slot fits, since there are no more than 500 slots. -/
theorem isImm12_slotPlace {slot : Nat} (h : slot < Grammar.maxSlots) :
    Encode.isImm12 (slotPlace slot) = true := by
  simp only [Grammar.maxSlots] at h
  have value : (slotPlace slot).toInt = -((4 * (slot + 1) : Nat) : Int) := by
    rw [Assembly.slotPlace_eq, BitVec.toInt_ofInt_eq_self (by decide) (by omega) (by omega)]
  simp only [Encode.isImm12, value, Bool.and_eq_true, decide_eq_true_eq]
  omega

/-- The size of a frame fits, negative as it is used, since there are no more than 500 slots. -/
theorem isImm12_neg_frameSize {locals : Nat} (h : locals ≤ Grammar.maxSlots) :
    Encode.isImm12 (-BitVec.ofNat 32 (Assembly.frameSize locals)) = true := by
  simp only [Grammar.maxSlots] at h
  have small : Assembly.frameSize locals ≤ 2048 := by
    rw [Assembly.frameSize]
    omega
  have value :
      (-BitVec.ofNat 32 (Assembly.frameSize locals) : Word).toInt = -Assembly.frameSize locals := by
    rw [← BitVec.ofInt_natCast, ← BitVec.ofInt_neg,
      BitVec.toInt_ofInt_eq_self (by decide) (by omega) (by omega)]
  simp only [Encode.isImm12, value, Bool.and_eq_true, decide_eq_true_eq]
  omega

/-! ### Sequences -/

/-- All of the drafts fit. -/
def AllFit (ds : List Draft) : Prop :=
  ∀ d ∈ ds, d.Fits

namespace AllFit

variable {ds ds' : List Draft} {d : Draft}

theorem nil : AllFit [] :=
  List.forall_mem_nil _

theorem cons (h : d.Fits) (hs : AllFit ds) : AllFit (d :: ds) :=
  List.forall_mem_cons.mpr ⟨h, hs⟩

/-- Two lists of drafts fit if both do. -/
theorem append (h : AllFit ds) (h' : AllFit ds') : AllFit (ds ++ ds') :=
  List.forall_mem_append.mpr ⟨h, h'⟩

/-- One more draft behind the others. -/
theorem snoc (h : AllFit ds) (hd : d.Fits) : AllFit (ds ++ [d]) :=
  h.append (.cons hd .nil)

end AllFit

/-- A constant fits whatever it is: if it is too large it is loaded in two parts. -/
theorem allFit_loadConst (v : Word) : AllFit (loadConst a0 v) := by
  rw [loadConst]
  split
  next small => exact .cons (fits_aluImm _ a0_mem zero_mem small) .nil
  next =>
    refine .cons (fits_lui a0_mem) ?_
    split
    · exact .nil
    · exact .cons (fits_aluImm _ a0_mem a0_mem (isImm12_low v)) .nil

/-- Pushing fits. -/
theorem allFit_push : AllFit push :=
  .cons (fits_aluImm _ sp_mem sp_mem rfl) (.cons (fits_storeWord a0_mem sp_mem rfl) .nil)

/-- Popping fits for every register of generated code. -/
theorem allFit_pop {rd : Word} (h : rd ∈ registers) : AllFit (pop rd) :=
  .cons (fits_loadWord h sp_mem rfl) (.cons (fits_aluImm _ sp_mem sp_mem rfl) .nil)

/-- A jump on a condition fits. -/
theorem allFit_gotoUnless (op : BranchOp) (target : Label) : AllFit (gotoUnless op target) :=
  .cons (fits_branch _ a0_mem zero_mem) (.cons (fits_jump _ zero_mem) .nil)

/-- A mark fits. -/
theorem allFit_mark (l : Label) : AllFit [.mark l] :=
  .cons (fits_mark l) .nil

/-- A jump with a mark behind it fits. -/
theorem allFit_jumpMark (target l : Label) : AllFit [goto target, .mark l] :=
  .cons (fits_jump target zero_mem) (allFit_mark l)

/-- Operators fit. -/
theorem allFit_operate (op : BinaryOp) : AllFit (operate op) := by
  have one (op) : AllFit [.alu op a0 a1 a0] := .cons (fits_alu _ a0_mem a1_mem a0_mem) .nil
  cases op with
  | gt => exact .cons (fits_alu _ a0_mem a0_mem a1_mem) .nil
  | le =>
    exact .cons (fits_alu _ a0_mem a0_mem a1_mem) (.cons (fits_aluImm _ a0_mem a0_mem rfl) .nil)
  | ge | eq => exact (one _).snoc (fits_aluImm _ a0_mem a0_mem rfl)
  | ne => exact (one _).snoc (fits_alu _ a0_mem zero_mem a0_mem)
  | _ => exact one _

/-- Unary operators fit. -/
theorem fits_operateUnary (op : UnaryOp) : (operateUnary op).Fits := by
  cases op with
  | neg => exact fits_alu _ a0_mem zero_mem a0_mem
  | not | bitNot => exact fits_aluImm _ a0_mem a0_mem rfl

/-- Popping arguments fits as long as there are registers for them. -/
theorem allFit_popArguments {count : Nat} (h : count ≤ Grammar.maxParameters) :
    AllFit (popArguments count) := by
  intro d mem
  obtain ⟨i, inside, mem⟩ := List.mem_flatMap.mp mem
  have less := List.mem_range.mp (List.mem_reverse.mp inside)
  exact allFit_pop (argument_mem (Nat.lt_of_lt_of_le less h)) d mem

/-- Opening a frame fits within the limits on parameters and slots. -/
theorem allFit_prologue {params locals : Nat} (few : params ≤ Grammar.maxParameters)
    (small : locals ≤ Grammar.maxSlots) : AllFit (prologue params locals) := by
  refine .append (.append ?_ ?_) ?_
  · exact .cons (fits_aluImm _ sp_mem sp_mem rfl) (.cons (fits_storeWord ra_mem sp_mem rfl)
      (.cons (fits_storeWord s0_mem sp_mem rfl) (.cons (fits_aluImm _ s0_mem sp_mem rfl) .nil)))
  · rw [openFrame]
    split
    · exact .cons (fits_aluImm _ sp_mem sp_mem (isImm12_neg_frameSize small)) .nil
    · exact .nil
  · intro d mem
    obtain ⟨i, inside, rfl⟩ := List.mem_map.mp mem
    have less := Nat.lt_of_lt_of_le (List.mem_range.mp inside) few
    have slot : i < Grammar.maxSlots := Nat.lt_of_lt_of_le less (by decide)
    exact fits_storeWord (argument_mem less) s0_mem (isImm12_slotPlace slot)

/-- Closing a frame fits. -/
theorem allFit_epilogue : AllFit epilogue :=
  .cons (fits_aluImm _ sp_mem s0_mem rfl) (.cons (fits_loadWord ra_mem sp_mem rfl)
    (.cons (fits_loadWord s0_mem sp_mem rfl) (.cons (fits_aluImm _ sp_mem sp_mem rfl)
      (.cons (fits_jalr zero_mem ra_mem rfl) .nil))))

end Draft

/-! ## Trees -/

/-- Whatever labels are free, the drafts fit. -/
def Fresh.Drafts (x : Fresh (List Draft)) : Prop :=
  ∀ n, Draft.AllFit (x.run n).1

namespace Fresh.Drafts

open Draft

theorem pure {ds : List Draft} (h : AllFit ds) : Drafts (Pure.pure ds) :=
  fun _ => h

/-- Drafts that fit may be put together to drafts that fit. -/
theorem bind {x : Fresh (List Draft)} {f : List Draft → Fresh (List Draft)} (hx : Drafts x)
    (hf : ∀ ds, AllFit ds → Drafts (f ds)) : Drafts (x >>= f) :=
  fun n => hf _ (hx n) _

/-- A label may be taken first. -/
theorem label {f : Label → Fresh (List Draft)} (hf : ∀ l, Drafts (f l)) : Drafts (fresh >>= f) :=
  fun n => hf _ (n + 1)

end Fresh.Drafts

section Trees

open Draft

/-- A logical operator: the right operand is jumped over if it is not needed. -/
theorem allFit_logical (op : BranchOp) (v : Word) (skipped done : Label) {left right : List Draft}
    (hl : AllFit left) (hr : AllFit right) :
    AllFit (left ++ gotoUnless op skipped ++ right ++
      [.alu .sltu a0 zero a0, goto done, .mark skipped] ++ loadConst a0 v ++ [.mark done]) := by
  have operands := (hl.append (allFit_gotoUnless op skipped)).append hr
  have truth : AllFit [.alu .sltu a0 zero a0, goto done, .mark skipped] :=
    .cons (fits_alu _ a0_mem zero_mem a0_mem)
      (.cons (fits_jump _ zero_mem) (.cons (fits_mark _) .nil))
  exact ((operands.append truth).append (allFit_loadConst v)).snoc (fits_mark done)

variable {slots : Nat} (few : slots ≤ Grammar.maxSlots)

section Slots

include few

/-- Reading a slot of the frame fits. -/
theorem fits_loadSlot {slot : Nat} (h : slot < slots) :
    (loadWord a0 s0 (slotPlace slot)).Fits :=
  fits_loadWord a0_mem s0_mem (isImm12_slotPlace (Nat.lt_of_lt_of_le h few))

/-- Writing a slot of the frame fits. -/
theorem fits_storeSlot {slot : Nat} {rs : Word} (hr : rs ∈ registers) (h : slot < slots) :
    (storeWord rs s0 (slotPlace slot)).Fits :=
  fits_storeWord hr s0_mem (isImm12_slotPlace (Nat.lt_of_lt_of_le h few))

end Slots

variable (known : List String)

mutual

/-- The drafts of an expression fit if its slots are in the frame and its calls have no more
arguments than there are registers. -/
theorem Expr.drafts_fit (few : slots ≤ Grammar.maxSlots) :
    (e : Expr) → e.Within slots → (e.draft known).Drafts
  | .num v, _ => .pure (allFit_loadConst v)
  | .var slot, h => .pure (.cons (fits_loadSlot few h) .nil)
  | .assign slot value, ⟨h, hv⟩ =>
    .bind (value.drafts_fit few hv) fun _ fit => .pure (fit.snoc (fits_storeSlot few a0_mem h))
  | .unary op operand, h =>
    .bind (operand.drafts_fit few h) fun _ fit => .pure (fit.snoc (fits_operateUnary op))
  | .binary op left right, ⟨hl, hr⟩ =>
    .bind (left.drafts_fit few hl) fun _ fitLeft =>
    .bind (right.drafts_fit few hr) fun _ fitRight =>
      .pure ((((fitLeft.append allFit_push).append fitRight).append (allFit_pop a1_mem)).append
        (allFit_operate op))
  | .logicalAnd left right, ⟨hl, hr⟩ | .logicalOr left right, ⟨hl, hr⟩ =>
    .label fun _ => .label fun _ => .bind (left.drafts_fit few hl) fun _ fitLeft =>
      .bind (right.drafts_fit few hr) fun _ fitRight =>
      .pure (allFit_logical _ _ _ _ fitLeft fitRight)
  | .call name args, ⟨short, ha⟩ => by
    rw [Expr.draft]
    split
    next =>
      refine .bind (draftsOfArgs_fit few args ha) fun _ fit => .pure ?_
      exact (fit.append (allFit_popArguments short)).snoc (fits_jump _ ra_mem)
    next => exact .pure (allFit_loadConst 0)

/-- As `Expr.drafts_fit`, for arguments. -/
theorem draftsOfArgs_fit (few : slots ≤ Grammar.maxSlots) :
    (es : List Expr) → ArgsWithin slots es → (draftOfArgs known es).Drafts
  | [], _ => .pure .nil
  | e :: es, ⟨he, hes⟩ =>
    .bind (e.drafts_fit few he) fun _ fit => .bind (draftsOfArgs_fit few es hes) fun _ fits =>
      .pure ((fit.append allFit_push).append fits)

end

include few in
/-- As `Expr.drafts_fit`, for an expression that may be missing. -/
theorem draftsOfExpr?_fit {e? : Option Expr} (h : ∀ e ∈ e?, e.Within slots) :
    (draftOfExpr? known e?).Drafts := by
  cases e? with
  | none => exact .pure .nil
  | some e => exact e.drafts_fit known few (h e rfl)

/-- The jump to an exit fits. -/
theorem Exits.allFit_draft (exits : Exits) (side : Label × Label → Label) :
    AllFit (exits.draft side) := by
  rw [Exits.draft]
  cases exits.loop? with
  | none => exact .nil
  | some ends => exact .cons (fits_jump _ zero_mem) .nil

mutual

/-- The drafts of a statement fit if those of its expressions do and its declarations are in the
frame. -/
theorem Stmt.drafts_fit (few : slots ≤ Grammar.maxSlots) (exits : Exits) :
    (s : Stmt) → (∀ e ∈ s.exprs, e.Within slots) → (∀ d ∈ s.declared, d < slots) →
      (s.draft known exits).Drafts
  | .ret none, _, _ => .pure ((allFit_loadConst 0).snoc (fits_jump _ zero_mem))
  | .ret (some e), he, _ =>
    .bind (e.drafts_fit known few (he e List.mem_cons_self)) fun _ fit =>
      .pure (fit.snoc (fits_jump _ zero_mem))
  | .expr e, he, _ => e.drafts_fit known few (he e List.mem_cons_self)
  | .decl slot none, _, hd =>
    .pure (.cons (fits_storeSlot few zero_mem (hd slot List.mem_cons_self)) .nil)
  | .decl slot (some e), he, hd =>
    .bind (e.drafts_fit known few (he e List.mem_cons_self)) fun _ fit =>
      .pure (fit.snoc (fits_storeSlot few a0_mem (hd slot List.mem_cons_self)))
  | .ifElse cond yes none, he, hd => by
    simp only [Stmt.exprs, Stmt.declared, List.forall_mem_cons, List.forall_mem_append] at he hd
    refine .label fun done => .bind (cond.drafts_fit known few he.1) fun _ fitCond => ?_
    refine .bind (yes.drafts_fit few exits he.2.1 hd.1) fun _ fitYes => .pure ?_
    exact ((fitCond.append (allFit_gotoUnless .bne done)).append fitYes).snoc (fits_mark done)
  | .ifElse cond yes (some no), he, hd => by
    simp only [Stmt.exprs, Stmt.declared, List.forall_mem_cons, List.forall_mem_append] at he hd
    refine .label fun otherwise => .label fun done => ?_
    refine .bind (cond.drafts_fit known few he.1) fun _ fitCond => ?_
    refine .bind (yes.drafts_fit few exits he.2.1 hd.1) fun _ fitYes => ?_
    refine .bind (no.drafts_fit few exits he.2.2 hd.2) fun _ fitNo => .pure ?_
    have test := (fitCond.append (allFit_gotoUnless .bne otherwise)).append fitYes
    exact ((test.append (allFit_jumpMark done otherwise)).append fitNo).snoc (fits_mark done)
  | .whileLoop cond body, he, hd => by
    simp only [Stmt.exprs, Stmt.declared, List.forall_mem_cons] at he hd
    refine .label fun top => .label fun done => ?_
    refine .bind (cond.drafts_fit known few he.1) fun _ fitCond => ?_
    refine .bind (body.drafts_fit few _ he.2 hd) fun _ fitBody => .pure ?_
    have test := ((allFit_mark top).append fitCond).append (allFit_gotoUnless .bne done)
    exact (test.append fitBody).append (allFit_jumpMark top done)
  | .doWhile body cond, he, hd => by
    simp only [Stmt.exprs, Stmt.declared, List.forall_mem_append,
      List.forall_mem_singleton] at he hd
    refine .label fun top => .label fun next => .label fun done => ?_
    refine .bind (body.drafts_fit few _ he.1 hd) fun _ fitBody => ?_
    refine .bind (cond.drafts_fit known few he.2) fun _ fitCond => .pure ?_
    have round := ((allFit_mark top).append fitBody).snoc (fits_mark next)
    exact ((round.append fitCond).append (allFit_gotoUnless .beq top)).snoc (fits_mark done)
  | .forLoop init cond step body, he, hd => by
    simp only [Stmt.exprs, Stmt.declared, List.forall_mem_append, Option.mem_toList] at he hd
    refine .label fun top => .label fun next => .label fun done => ?_
    refine .bind (draftsOfStmt?_fit few exits init he.1 hd.1) fun _ fitInit => ?_
    refine .bind (draftsOfExpr?_fit few known he.2.1) fun check fitCond => ?_
    refine .bind (body.drafts_fit few _ he.2.2.2 hd.2) fun _ fitBody => ?_
    refine .bind (draftsOfExpr?_fit few known he.2.2.1) fun _ fitStep => .pure ?_
    have test : AllFit (if cond.isSome then check ++ gotoIfZero done else []) := by
      split
      · exact fitCond.append (allFit_gotoUnless _ _)
      · exact .nil
    have round :=
      (((fitInit.snoc (fits_mark top)).append test).append fitBody).snoc (fits_mark next)
    exact (round.append fitStep).append (allFit_jumpMark top done)
  | .breakLoop, _, _ | .continueLoop, _, _ => .pure (exits.allFit_draft _)
  | .block stmts, he, hd => draftsOfStmts_fit few exits stmts he hd
  | .empty, _, _ => .pure .nil

/-- As `Stmt.drafts_fit`, for a statement that may be missing. -/
theorem draftsOfStmt?_fit (few : slots ≤ Grammar.maxSlots) (exits : Exits) :
    (s? : Option Stmt) → (∀ e ∈ exprsOfStmt? s?, e.Within slots) →
      (∀ d ∈ declaredByStmt? s?, d < slots) → (draftOfStmt? known exits s?).Drafts
  | none, _, _ => .pure .nil
  | some s, he, hd => s.drafts_fit few exits he hd

/-- As `Stmt.drafts_fit`, for a block. -/
theorem draftsOfStmts_fit (few : slots ≤ Grammar.maxSlots) (exits : Exits) :
    (ss : List Stmt) → (∀ e ∈ exprsOfStmts ss, e.Within slots) →
      (∀ d ∈ declaredByStmts ss, d < slots) → (draftOfStmts known exits ss).Drafts
  | [], _, _ => .pure .nil
  | s :: ss, he, hd => by
    simp only [exprsOfStmts, declaredByStmts, List.forall_mem_append] at he hd
    exact .bind (s.drafts_fit few exits he.1 hd.1) fun _ fit =>
      .bind (draftsOfStmts_fit few exits ss he.2 hd.2) fun _ fits => .pure (fit.append fits)

end

end Trees

/-- The drafts of a function that keeps inside its frame fit. -/
theorem Function.drafts_fit {f : Function} (sound : f.Sound fun slots => Expr.Within slots)
    (known : List String) : (f.draft known).Drafts := by
  refine .label fun ret => ?_
  have body := draftsOfStmts_fit known sound.locals_le { ret } f.body sound.exprs sound.declared
  refine .bind body fun _ fit => .pure ?_
  have front := (Draft.allFit_mark (.entry f.name)).append
    (Draft.allFit_prologue sound.params_le sound.locals_le)
  exact (((front.append fit).append (Draft.allFit_loadConst 0)).snoc (Draft.fits_mark ret)).append
    Draft.allFit_epilogue

end BareC
