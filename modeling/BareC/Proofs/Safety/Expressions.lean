import BareC.Proofs.Grammar.Slots
import BareC.Proofs.Safety.Monitor
import BareC.Proofs.Semantics.Calls

/-!
# Safety of expressions

Code of an expression is safe if whatever comes behind it is. Nothing is known here of the values in
slots, and nothing of whether a call ever returns: all that is asked of what comes behind is that it
is safe for as many steps, in every state that the code can leave.

`Passes` is the form of every lemma: from a state in a frame, if all that the code can come to is
safe for a number of steps, then the state is. It is carried backwards through a sequence by
`Passes.trans`. What the code computes is forgotten; that is `Semantics/Expressions`, which asks for
an evaluation that ends, and this does not.
-/

namespace BareC

open Assembly

/-- Calls of functions are safe for so many steps: coming to the entry of a function from an open
call, the machine is safe if it is where the call resumes, with the two pointers as they were and
nothing changed above the stack pointer. -/
def CallsSafe {η : Type} (h : TrapHandler η) (whole : Assembly) (top : Nat) (known : List String)
    (k : Nat) : Prop :=
  ∀ name ∈ known, ∃ entry, whole.placeOf? (.entry name) = some entry ∧
    ∀ (m : Machine η) (stack r : Nat) (calls : List Call), m.At entry → m.Carries whole.link →
      m.regs[Reg.sp] = BitVec.ofNat 32 stack → m.regs[Reg.ra] = BitVec.ofNat 32 (4 * r) →
      stack ≤ top → top ≤ m.memory.size → m.memory.size < 2 ^ 31 →
      (∀ m' : Machine η, m'.At r → m'.Carries whole.link →
        m'.regs[Reg.sp] = BitVec.ofNat 32 stack → m'.regs[Reg.s0] = m.regs[Reg.s0] →
        m.memory.SameOn (stack ≤ ·) m'.memory → m'.SafeFor h whole.link top k calls) →
      m.SafeFor h whole.link top k
        (⟨BitVec.ofNat 32 (4 * r), m.regs[Reg.sp], m.regs[Reg.s0]⟩ :: calls)

/-- Linked code whose calls are safe for fewer steps than `limit`. -/
structure Guarded (η : Type) where
  handler : TrapHandler η
  whole : Assembly
  /-- The end of the stack. -/
  top : Nat
  known : List String
  compact : whole.Compact
  limit : Nat
  calls : ∀ k < limit, CallsSafe handler whole top known k

namespace Guarded

variable {η : Type} (G : Guarded η) (F : Frame)

abbrev SafeFor (k : Nat) (m : Machine η) (calls : List Call) : Prop :=
  Machine.SafeFor G.handler G.whole.link G.top k m calls

/-- The machine is inside of an activation, whatever its slots hold. -/
abbrev InFrame (waiting : Nat) (m : Machine η) : Prop :=
  m.InFrame G.whole.link G.top F waiting fun _ => none

/-- What is left of a machine that comes to an instruction inside of the same activation. -/
structure Comes (m : Machine η) (j waiting : Nat) (m' : Machine η) : Prop where
  at_ : m'.At j
  frame : G.InFrame F waiting m'
  kept : m.memory.SameOn (F.base ≤ ·) m'.memory

/-- The machine is safe if it is where it passes to. -/
def Passes (m : Machine η) (j waiting : Nat) : Prop :=
  ∀ ⦃k : Nat⦄ ⦃calls : List Call⦄, k ≤ G.limit →
    (∀ m', G.Comes F m j waiting m' → G.SafeFor k m' calls) → G.SafeFor k m calls

variable {G F} {m m' : Machine η} {i j k waiting waiting' : Nat} {slots slots' : Nat → Option Word}

/-- The machine comes to where it is. -/
theorem Comes.refl (hf : G.InFrame F waiting m) (at_ : m.At i) : G.Comes F m i waiting m :=
  ⟨at_, hf, .refl _ _⟩

/-- One coming follows another. -/
theorem Comes.trans {m'' : Machine η} (first : G.Comes F m i waiting m')
    (second : G.Comes F m' j waiting' m'') : G.Comes F m j waiting' m'' :=
  ⟨second.at_, second.frame, first.kept.trans second.kept⟩

/-- What is known of slots may be forgotten. -/
theorem inFrame_of_slots (hf : m.InFrame G.whole.link G.top F waiting slots) :
    G.InFrame F waiting m :=
  { hf with holds := by simp }

/-- What arrives comes. -/
theorem Comes.of_arrives {R : Machine η → Machine η → Prop} {w : Nat}
    (arrives : Machine.Arrives R G.whole.link G.top F w m j waiting slots m') :
    G.Comes F m j waiting m' :=
  ⟨arrives.at_, inFrame_of_slots arrives.frame, arrives.kept.mono fun _ ha => .inl ha⟩

namespace Passes

/-- Nothing needs to be done. -/
theorem refl (hf : G.InFrame F waiting m) (at_ : m.At i) : G.Passes F m i waiting :=
  fun _ _ _ safe => safe m (.refl hf at_)

/-- What follows a path. -/
theorem of_arrives {w : Nat} (arrives : Machine.Arrives (Machine.Path G.handler G.whole.link G.top)
    G.whole.link G.top F w m j waiting slots m') : G.Passes F m j waiting :=
  fun _ _ _ safe => .of_path arrives.way (safe m' (.of_arrives arrives))

/-- A passage may be followed by another from wherever it comes to. -/
theorem trans (first : G.Passes F m i waiting)
    (second : ∀ m', G.Comes F m i waiting m' → G.Passes F m' j waiting') :
    G.Passes F m j waiting' := by
  intro k calls le safe
  refine first le fun m' comes => second m' comes le fun m'' comes' => ?_
  exact safe m'' (comes.trans comes')

end Passes

/-! ## Calls -/

/-- A call inside of a frame: above the stack pointer nothing is changed, so the frame is as it was.
-/
theorem passes_call (hf : G.InFrame F waiting m) (at_ : m.At i) {name : String}
    (known : name ∈ G.known) (placed : G.whole.Placed i [.jump ra (.entry name)]) :
    G.Passes F m (i + 1) waiting := by
  intro k calls le safe
  cases k with
  | zero => trivial
  | succ k =>
    obtain ⟨entry, place, callee⟩ := G.calls k le name known
    rw [placed_jump, place] at placed
    have jump := hf.carries.does_jal (h := G.handler) at_ placed.1 (G.compact _ _ place)
    let m₁ := m.linked Reg.ra (BitVec.ofNat 32 (4 * entry))
    have sp₁ : m₁.regs[Reg.sp] = m.regs[Reg.sp] := Registers.getElem_write_of_ne (by decide)
    have s0₁ : m₁.regs[Reg.s0] = m.regs[Reg.s0] := Registers.getElem_write_of_ne (by decide)
    have resume : m.pc + 4 = BitVec.ofNat 32 (4 * (i + 1)) := by
      rw [at_, Word.ofNat_four_mul_succ]
    have ra₁ : m₁.regs[Reg.ra] = BitVec.ofNat 32 (4 * (i + 1)) :=
      (Registers.getElem_write_self (by decide)).trans resume
    have stack_le : F.bottom waiting ≤ G.top := Nat.le_trans (F.bottom_le_base _) hf.base_le
    have inside : m.Inside G.whole.link := hf.carries.inside at_ placed.1
    refine .of_does jump (fun _ => inside.proper jump (by simp) (by simp)) fun n hn => ?_
    have returned : G.SafeFor k m₁ (⟨BitVec.ofNat 32 (4 * (i + 1)), m₁.regs[Reg.sp],
        m₁.regs[Reg.s0]⟩ :: calls) := by
      refine callee m₁ (F.bottom waiting) (i + 1) calls rfl hf.carries.linked (sp₁.trans hf.sp) ra₁
        stack_le hf.top_le hf.size_lt ?_
      intro m₂ at₂ carries₂ sp₂ s0₂ same
      have frame := hf.of_sameOn carries₂ sp₂ (s0₂.trans s0₁) same
      refine (safe m₂ ⟨at₂, frame, same.mono fun a ha => ?_⟩).mono (Nat.le_succ k)
      exact Nat.le_trans (F.bottom_le_base _) ha
    rw [Machine.callsBehind, if_pos rfl, resume, ← sp₁, ← s0₁]
    exact returned.mono (Nat.le_of_lt_succ hn)

/-! ## Pushing -/

/-- A value begins to wait, or there is no room for it. -/
theorem passes_push (hf : G.InFrame F waiting m) (at_ : m.At i) (placed : G.whole.Placed i push) :
    G.Passes F m (i + 2) (waiting + 1) := by
  by_cases room : 4 * G.whole.link.length + frameSize F.locals + 4 * (waiting + 1) ≤ F.base
  · obtain ⟨m', arrives, -⟩ := Machine.path_push (h := G.handler) hf at_ placed room
    exact .of_arrives arrives
  · intro k calls _ _
    have stack_le : F.bottom waiting ≤ G.top := Nat.le_trans (F.bottom_le_base _) hf.base_le
    refine .of_lower (c := 4) hf.carries at_ placed.1 (by decide) (by decide) hf.sp stack_le
      (Nat.lt_of_le_of_lt hf.top_le hf.size_lt) ?_
    unfold Frame.bottom
    omega

/-! ## One construct at a time -/

variable (G F)

/-- Wherever the code of the expression is placed, the machine passes through it. -/
def PassesExpr (e : Expr) : Prop :=
  ∀ ⦃waiting i n : Nat⦄ ⦃m : Machine η⦄, G.whole.Placed i ((e.code G.known).run n).1 →
    G.InFrame F waiting m → m.At i →
    G.Passes F m (i + size ((e.code G.known).run n).1) waiting

/-- Wherever the code of the arguments is placed, the machine passes through it, and they wait. -/
def PassesArgs (es : List Expr) : Prop :=
  ∀ ⦃waiting i n : Nat⦄ ⦃m : Machine η⦄, G.whole.Placed i ((codeOfArgs G.known es).run n).1 →
    G.InFrame F waiting m → m.At i →
    G.Passes F m (i + size ((codeOfArgs G.known es).run n).1) (waiting + es.length)

variable {G F}

/-- Loading a constant passes. -/
theorem passes_loadConst (v : Word) (hf : G.InFrame F waiting m) (at_ : m.At i)
    (placed : G.whole.Placed i (loadConst a0 v)) :
    G.Passes F m (i + (loadConst a0 v).size) waiting := by
  obtain ⟨m', arrives, -⟩ := Machine.path_loadConst (h := G.handler) hf at_ v placed
  exact .of_arrives arrives

/-- A number passes. -/
theorem passesExpr_num (v : Word) : G.PassesExpr F (.num v) := by
  intro waiting i n m placed hf at_
  exact passes_loadConst v hf at_ placed

/-- A variable of the frame passes. -/
theorem passesExpr_var {slot : Nat} (hs : slot < F.locals) : G.PassesExpr F (.var slot) := by
  intro waiting i n m placed hf at_
  obtain ⟨m', arrives, -⟩ := Machine.path_loadSlot (h := G.handler) hf at_ hs placed
  exact .of_arrives arrives

/-- A value that has been computed is stored to a slot. -/
theorem passes_storeSlot {slot : Nat} (hs : slot < F.locals) {rs : Reg}
    (hf : G.InFrame F waiting m) (at_ : m.At i)
    (placed : G.whole.Placed i [storeWord (Encode.reg rs) Assembly.s0 (slotPlace slot)]) :
    G.Passes F m (i + 1) waiting := by
  obtain ⟨m', arrives, -⟩ := Machine.path_storeSlot (h := G.handler) hf at_ hs placed
  exact .of_arrives arrives

/-- An assignment to a variable of the frame passes. -/
theorem passesExpr_assign {slot : Nat} {value : Expr} (hs : slot < F.locals)
    (hv : G.PassesExpr F value) : G.PassesExpr F (.assign slot value) := by
  intro waiting i n m placed hf at_
  rw [Expr.run_code_assign] at placed ⊢
  simp only [placed_append, size_append, ← Nat.add_assoc] at placed ⊢
  refine (hv placed.1 hf at_).trans fun m₁ comes₁ => ?_
  exact passes_storeSlot hs comes₁.frame comes₁.at_ placed.2

/-- A unary operator passes. -/
theorem passesExpr_unary {op : UnaryOp} {operand : Expr} (ho : G.PassesExpr F operand) :
    G.PassesExpr F (.unary op operand) := by
  intro waiting i n m placed hf at_
  rw [Expr.run_code_unary] at placed ⊢
  simp only [placed_append, size_append, ← Nat.add_assoc] at placed ⊢
  refine (ho placed.1 hf at_).trans fun m₁ comes₁ => ?_
  obtain ⟨m₂, arrives₂, -⟩ := Machine.path_operateUnary (h := G.handler) comes₁.frame comes₁.at_ op
    placed.2
  exact .of_arrives arrives₂

/-- A binary operator passes, the left operand waiting on the stack. -/
theorem passesExpr_binary {op : BinaryOp} {left right : Expr} (hl : G.PassesExpr F left)
    (hr : G.PassesExpr F right) : G.PassesExpr F (.binary op left right) := by
  intro waiting i n m placed hf at_
  rw [Expr.run_code_binary] at placed ⊢
  simp only [placed_append, size_append, ← Nat.add_assoc] at placed ⊢
  obtain ⟨⟨⟨⟨placedLeft, placedPush⟩, placedRight⟩, placedPop⟩, placedOp⟩ := placed
  refine (hl placedLeft hf at_).trans fun m₁ comes₁ => ?_
  refine (passes_push comes₁.frame comes₁.at_ placedPush).trans fun m₂ comes₂ => ?_
  refine (hr placedRight comes₂.frame comes₂.at_).trans fun m₃ comes₃ => ?_
  obtain ⟨m₄, arrives₄, -⟩ := Machine.path_pop (h := G.handler) comes₃.frame comes₃.at_ (by decide)
    (by decide) (by decide) placedPop
  obtain ⟨m₅, arrives₅, -⟩ := Machine.path_operate (h := G.handler) arrives₄.frame arrives₄.at_ op
    placedOp
  exact .of_arrives (arrives₄.trans .trans (Nat.le_refl _) arrives₅)

/-- Both short circuits: the left side leads to the right side or behind the label, and from there
to the end. -/
theorem passes_shortCircuit {left right : Expr} (hl : G.PassesExpr F left)
    (hr : G.PassesExpr F right) {test : Assembly} {c : Word} {n : Nat} (length : test.size = 2)
    (htest : ∀ {m : Machine η} {i j : Nat}, G.InFrame F waiting m → m.At i →
      G.whole.Placed i test → G.whole.placeOf? (.inner n) = some j →
        G.Passes F m j waiting ∨ G.Passes F m (i + 2) waiting)
    (placed : G.whole.Placed i (((left.code G.known).run (n + 2)).1 ++ (test ++
      (((right.code G.known).run ((left.code G.known).run (n + 2)).2).1 ++
        ([alu .sltu a0 zero a0, goto (.inner (n + 1)), .mark (.inner n)] ++
          (loadConst a0 c ++ [.mark (.inner (n + 1))]))))))
    (hf : G.InFrame F waiting m) (at_ : m.At i) :
    G.Passes F m (i + size (((left.code G.known).run (n + 2)).1 ++ (test ++
      (((right.code G.known).run ((left.code G.known).run (n + 2)).2).1 ++
        ([alu .sltu a0 zero a0, goto (.inner (n + 1)), .mark (.inner n)] ++
          (loadConst a0 c ++ [.mark (.inner (n + 1))])))))) waiting := by
  have two : size [alu .sltu a0 zero a0, goto (.inner (n + 1)), .mark (.inner n)] = 2 := rfl
  have none : size [.mark (.inner (n + 1))] = 0 := rfl
  simp only [size_append, length, two, none, ← Nat.add_assoc, Nat.add_zero]
  rw [placed_append, placed_append, placed_append, length] at placed
  obtain ⟨placedLeft, placedTest, placedRight, placedEnd⟩ := placed
  have ends := placedEnd
  rw [placed_append, placed_append, placed_mark] at ends
  obtain ⟨⟨-, -, skipped, -⟩, load, done, -⟩ := ends
  refine (hl placedLeft hf at_).trans fun m₁ comes₁ => ?_
  rcases htest comes₁.frame comes₁.at_ placedTest skipped with skips | continues
  · exact skips.trans fun m₂ comes₂ => passes_loadConst c comes₂.frame comes₂.at_ load
  · refine continues.trans fun m₂ comes₂ => ?_
    refine (hr placedRight comes₂.frame comes₂.at_).trans fun m₃ comes₃ => ?_
    obtain ⟨m₄, arrives₄, -⟩ :=
      Machine.path_truth (h := G.handler) comes₃.frame comes₃.at_ placedEnd (G.compact _ _ done)
    exact .of_arrives arrives₄

/-- A conditional jump goes to its label or on behind it. -/
theorem passes_gotoIfZero {l : Label} (hf : G.InFrame F waiting m) (at_ : m.At i)
    (placed : G.whole.Placed i (gotoIfZero l)) (place : G.whole.placeOf? l = some j) :
    G.Passes F m j waiting ∨ G.Passes F m (i + 2) waiting := by
  obtain ⟨m', arrives, -⟩ := Machine.path_gotoIfZero (h := G.handler) hf at_ placed place
    (G.compact _ _ place)
  by_cases zero : m.regs[Reg.a0] = 0
  · rw [if_pos zero] at arrives
    exact .inl (.of_arrives arrives)
  · rw [if_neg zero] at arrives
    exact .inr (.of_arrives arrives)

/-- A conditional jump passes to its label or over it. -/
theorem passes_gotoIfNonzero {l : Label} (hf : G.InFrame F waiting m) (at_ : m.At i)
    (placed : G.whole.Placed i (gotoIfNonzero l)) (place : G.whole.placeOf? l = some j) :
    G.Passes F m j waiting ∨ G.Passes F m (i + 2) waiting := by
  obtain ⟨m', arrives, -⟩ := Machine.path_gotoIfNonzero (h := G.handler) hf at_ placed place
    (G.compact _ _ place)
  by_cases zero : m.regs[Reg.a0] = 0
  · rw [if_pos zero] at arrives
    exact .inr (.of_arrives arrives)
  · rw [if_neg zero] at arrives
    exact .inl (.of_arrives arrives)

/-- A conjunction passes, whether its right operand is reached or not. -/
theorem passesExpr_logicalAnd {left right : Expr} (hl : G.PassesExpr F left)
    (hr : G.PassesExpr F right) : G.PassesExpr F (.logicalAnd left right) := by
  intro waiting i n m placed hf at_
  rw [Expr.run_code_logicalAnd] at placed ⊢
  simp only [List.append_assoc] at placed ⊢
  exact passes_shortCircuit hl hr rfl passes_gotoIfZero placed hf at_

/-- As `passesExpr_logicalAnd`, for a disjunction. -/
theorem passesExpr_logicalOr {left right : Expr} (hl : G.PassesExpr F left)
    (hr : G.PassesExpr F right) : G.PassesExpr F (.logicalOr left right) := by
  intro waiting i n m placed hf at_
  rw [Expr.run_code_logicalOr] at placed ⊢
  simp only [List.append_assoc] at placed ⊢
  exact passes_shortCircuit hl hr rfl passes_gotoIfNonzero placed hf at_

/-- No arguments pass. -/
theorem passesArgs_nil : G.PassesArgs F [] := by
  intro waiting i n m placed hf at_
  exact .refl hf at_

/-- An argument more passes. -/
theorem passesArgs_cons {e : Expr} {es : List Expr} (he : G.PassesExpr F e)
    (hes : G.PassesArgs F es) : G.PassesArgs F (e :: es) := by
  intro waiting i n m placed hf at_
  rw [run_codeOfArgs_cons] at placed ⊢
  simp only [placed_append, size_append, ← Nat.add_assoc] at placed ⊢
  refine (he placed.1.1 hf at_).trans fun m₁ comes₁ => ?_
  refine (passes_push comes₁.frame comes₁.at_ placed.1.2).trans fun m₂ comes₂ => ?_
  rw [show waiting + (e :: es).length = waiting + 1 + es.length by
    rw [List.length_cons]
    omega]
  exact hes placed.2 comes₂.frame comes₂.at_

/-- A call passes: what it opens is closed when it comes back. -/
theorem passesExpr_call {name : String} {args : List Expr}
    (few : args.length ≤ Grammar.maxParameters) (ha : G.PassesArgs F args) :
    G.PassesExpr F (.call name args) := by
  intro waiting i n m placed hf at_
  by_cases known : name ∈ G.known
  · rw [Expr.run_code_call G.known n known] at placed ⊢
    simp only [placed_append, size_append, ← Nat.add_assoc] at placed ⊢
    refine (ha placed.1.1 hf at_).trans fun m₁ comes₁ => ?_
    obtain ⟨m₂, arrives₂, -⟩ := Machine.path_popArguments (h := G.handler) args.length few
      comes₁.frame comes₁.at_ placed.1.2
    refine (Passes.of_arrives arrives₂).trans fun m₃ comes₃ => ?_
    exact passes_call comes₃.frame comes₃.at_ known placed.2
  · rw [Expr.run_code_call_unknown G.known n known] at placed ⊢
    exact passes_loadConst 0 hf at_ placed

mutual

/-- The code of every expression is passed through safely. -/
theorem passesExpr : (e : Expr) → e.Within F.locals → G.PassesExpr F e
  | .num v, _ => passesExpr_num v
  | .var _, hs => passesExpr_var hs
  | .assign _ value, ⟨hs, hv⟩ => passesExpr_assign hs (passesExpr value hv)
  | .unary _ operand, ho => passesExpr_unary (passesExpr operand ho)
  | .binary _ left right, ⟨hl, hr⟩ =>
    passesExpr_binary (passesExpr left hl) (passesExpr right hr)
  | .logicalAnd left right, ⟨hl, hr⟩ =>
    passesExpr_logicalAnd (passesExpr left hl) (passesExpr right hr)
  | .logicalOr left right, ⟨hl, hr⟩ =>
    passesExpr_logicalOr (passesExpr left hl) (passesExpr right hr)
  | .call _ args, ⟨few, ha⟩ => passesExpr_call few (passesArgs args ha)

/-- Arguments pass, one by one. -/
theorem passesArgs : (es : List Expr) → ArgsWithin F.locals es → G.PassesArgs F es
  | [], _ => passesArgs_nil
  | e :: es, ⟨he, hes⟩ => passesArgs_cons (passesExpr e he) (passesArgs es hes)

end

end Guarded

end BareC
