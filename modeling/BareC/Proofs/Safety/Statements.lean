import BareC.Proofs.Safety.Expressions
import BareC.Proofs.Grammar.Scopes

/-!
# Safety of statements

Code of a statement is safe if what comes behind it is, and what it may jump out to. A jump takes a
step, so where it goes has to be safe for fewer steps only. That is what makes loops safe: by
induction on the number of steps, the next round of a loop may be taken to be.

Exits are labels whose places are known (`Settled`), so that a jump out of a loop needs no case of
its own for each depth. A loop need not end and its condition need not have a value: the proof looks
at the number of steps and at nothing in the slots.
-/

namespace BareC

open Assembly

/-- The labels that a statement may jump out to. -/
def Exits.labels (exits : Exits) : List Label :=
  exits.ret :: match exits.loop? with
    | none => []
    | some (next, done) => [next, done]

theorem Exits.labels_inside (exits : Exits) (next done : Nat) :
    (exits.inside next done).labels = [exits.ret, .inner next, .inner done] :=
  rfl

/-- The end of the function is one of the exits. -/
theorem Exits.ret_mem_labels (exits : Exits) : exits.ret ∈ exits.labels :=
  List.mem_cons_self

namespace Guarded

variable {η : Type} (G : Guarded η) (F : Frame)

/-- The machine is safe if it is where it leads to, and at each of some labels in fewer steps. -/
def Leads (outs : List Label) (j : Nat) (m : Machine η) : Prop :=
  ∀ ⦃k : Nat⦄ ⦃calls : List Call⦄, k ≤ G.limit →
    (∀ m', G.Comes F m j 0 m' → G.SafeFor k m' calls) →
    (∀ l ∈ outs, ∀ p, G.whole.placeOf? l = some p → ∀ n < k, ∀ m', G.Comes F m p 0 m' →
      G.SafeFor n m' calls) → G.SafeFor k m calls

/-- Every label has its place. -/
def Settled (outs : List Label) : Prop :=
  ∀ l ∈ outs, ∃ p, G.whole.placeOf? l = some p

variable {G F} {outs outs' : List Label} {i j : Nat} {m m' : Machine η}

namespace Leads

/-- What passes leads on. -/
theorem of_passes (passes : G.Passes F m j 0) : G.Leads F outs j m :=
  fun _ _ le next _ => passes le next

/-- What comes in front. -/
theorem prepend (passes : G.Passes F m i 0)
    (leads : ∀ m', G.Comes F m i 0 m' → G.Leads F outs j m') : G.Leads F outs j m := by
  intro k calls le next out
  refine passes le fun m' comes => leads m' comes le ?_ ?_
  · exact fun m'' comes' => next m'' (comes.trans comes')
  · exact fun l mem p place n hn m'' comes' => out l mem p place n hn m'' (comes.trans comes')

/-- What comes behind. Some of the labels may lie there, or at its end. -/
theorem extend (leads : G.Leads F outs i m)
    (sub : ∀ l ∈ outs, l ∈ outs' ∨ G.whole.placeOf? l = some i ∨ G.whole.placeOf? l = some j)
    (behind : ∀ m', G.Comes F m i 0 m' → G.Leads F outs' j m') : G.Leads F outs' j m := by
  intro k calls le next out
  have from_i : ∀ n ≤ k, ∀ m', G.Comes F m i 0 m' → G.SafeFor n m' calls := by
    intro n hn m' comes
    refine behind m' comes (Nat.le_trans hn le) ?_ ?_
    · exact fun m'' comes' => (next m'' (comes.trans comes')).mono hn
    · intro l mem p place n' hn' m'' comes'
      exact out l mem p place n' (Nat.lt_of_lt_of_le hn' hn) m'' (comes.trans comes')
  refine leads le (from_i k (Nat.le_refl k)) fun l mem p place n hn m' comes => ?_
  rcases sub l mem with mem' | here | there
  · exact out l mem' p place n hn m' comes
  · rw [place] at here
    cases here
    exact from_i n (Nat.le_of_lt hn) m' comes
  · rw [place] at there
    cases there
    exact (next m' comes).mono (Nat.le_of_lt hn)

/-- What leads on may be followed from wherever it comes to. -/
theorem trans (leads : G.Leads F outs i m)
    (behind : ∀ m', G.Comes F m i 0 m' → G.Leads F outs j m') : G.Leads F outs j m :=
  leads.extend (fun _ mem => .inl mem) behind

end Leads

/-- A jump out. -/
theorem leads_goto {l : Label} (mem : l ∈ outs) (settled : G.Settled outs)
    (hf : G.InFrame F 0 m) (at_ : m.At i) (placed : G.whole.Placed i [goto l]) :
    G.Leads F outs j m := by
  intro k calls le next out
  obtain ⟨p, place⟩ := settled l mem
  rw [goto_eq, placed_jump, place] at placed
  have jump := hf.carries.does_jal (h := G.handler) at_ placed.1 (G.compact _ _ place)
  refine .of_harmless (hf.carries.inside at_ placed.1) jump ⟨?_, by simp, by simp⟩ fun n hn => ?_
  · simp [Reg.zero, Reg.ra]
  · exact out l mem p place n hn _ ⟨rfl, hf.went, .refl _ _⟩

/-- A loop whose rounds lead back to their beginning or on. -/
theorem leads_loop {top : Label} (place : G.whole.placeOf? top = some i)
    (round : ∀ m, G.InFrame F 0 m → m.At i → G.Leads F (top :: outs) j m)
    (hf : G.InFrame F 0 m) (at_ : m.At i) : G.Leads F outs j m := by
  intro k
  induction k using Nat.strongRecOn generalizing m with
  | ind k ih =>
    intro calls le next out
    refine round m hf at_ le next fun l mem p hp n hn m' comes => ?_
    rcases List.mem_cons.mp mem with rfl | mem
    · rw [place] at hp
      cases hp
      refine ih n hn comes.frame comes.at_ (Nat.le_trans (Nat.le_of_lt hn) le) ?_ ?_
      · exact fun m'' comes' => (next m'' (comes.trans comes')).mono (Nat.le_of_lt hn)
      · intro l' mem' p' place' n' hn' m'' comes'
        exact out l' mem' p' place' n' (Nat.lt_trans hn' hn) m'' (comes.trans comes')
    · exact out l mem p hp n hn m' comes

/-! ## One construct at a time -/

variable (G F)

/-- Wherever the code of the statement is placed, the machine leads to its end or out of it. -/
def LeadsStmt (s : Stmt) : Prop :=
  ∀ ⦃exits : Exits⦄ ⦃i n : Nat⦄ ⦃m : Machine η⦄, G.Settled exits.labels →
    G.whole.Placed i ((s.code G.known exits).run n).1 → G.InFrame F 0 m → m.At i →
    G.Leads F exits.labels (i + size ((s.code G.known exits).run n).1) m

def LeadsStmt? (s : Option Stmt) : Prop :=
  ∀ ⦃exits : Exits⦄ ⦃i n : Nat⦄ ⦃m : Machine η⦄, G.Settled exits.labels →
    G.whole.Placed i ((codeOfStmt? G.known exits s).run n).1 → G.InFrame F 0 m → m.At i →
    G.Leads F exits.labels (i + size ((codeOfStmt? G.known exits s).run n).1) m

def LeadsStmts (ss : List Stmt) : Prop :=
  ∀ ⦃exits : Exits⦄ ⦃i n : Nat⦄ ⦃m : Machine η⦄, G.Settled exits.labels →
    G.whole.Placed i ((codeOfStmts G.known exits ss).run n).1 → G.InFrame F 0 m → m.At i →
    G.Leads F exits.labels (i + size ((codeOfStmts G.known exits ss).run n).1) m

variable {G F}

/-- The empty statement leads on. -/
theorem leadsStmt_empty : G.LeadsStmt F .empty :=
  fun _ _ _ _ _ _ hf at_ => .of_passes (.refl hf at_)

/-- An expression leads on as a statement. -/
theorem leadsStmt_expr {e : Expr} (he : G.PassesExpr F e) : G.LeadsStmt F (.expr e) :=
  fun _ _ _ _ _ placed hf at_ => .of_passes (he placed hf at_)

/-- A return leads to the end of the function. -/
theorem leadsStmt_ret_none : G.LeadsStmt F (.ret none) := by
  intro exits i n m settled placed hf at_
  rw [Stmt.run_code_ret_none, placed_append] at placed
  refine .prepend (passes_loadConst 0 hf at_ placed.1) fun m₁ comes₁ => ?_
  exact leads_goto exits.ret_mem_labels settled comes₁.frame comes₁.at_ placed.2

/-- As `leadsStmt_ret_none`, with a value. -/
theorem leadsStmt_ret_some {e : Expr} (he : G.PassesExpr F e) : G.LeadsStmt F (.ret (some e)) := by
  intro exits i n m settled placed hf at_
  rw [Stmt.run_code_ret_some, placed_append] at placed
  refine .prepend (he placed.1 hf at_) fun m₁ comes₁ => ?_
  exact leads_goto exits.ret_mem_labels settled comes₁.frame comes₁.at_ placed.2

/-- A declaration leads on. -/
theorem leadsStmt_decl_none {slot : Nat} (hs : slot < F.locals) :
    G.LeadsStmt F (.decl slot none) :=
  fun _ _ _ _ _ placed hf at_ => .of_passes (passes_storeSlot hs hf at_ placed)

/-- As `leadsStmt_decl_none`, with an initial value. -/
theorem leadsStmt_decl_some {slot : Nat} {e : Expr} (hs : slot < F.locals)
    (he : G.PassesExpr F e) : G.LeadsStmt F (.decl slot (some e)) := by
  intro exits i n m settled placed hf at_
  rw [Stmt.run_code_decl_some] at placed ⊢
  simp only [placed_append, size_append, ← Nat.add_assoc] at placed ⊢
  refine .prepend (he placed.1 hf at_) fun m₁ comes₁ => ?_
  exact .of_passes (passes_storeSlot hs comes₁.frame comes₁.at_ placed.2)

/-- A jump to one of the ends of the innermost loop; outside of loops there is no such jump. -/
theorem leads_gotoLoop {exits : Exits} {side : Label × Label → Label}
    (sides : ∀ ends, side ends = ends.1 ∨ side ends = ends.2) (settled : G.Settled exits.labels)
    (placed : G.whole.Placed i (exits.gotoLoop side)) (hf : G.InFrame F 0 m) (at_ : m.At i) :
    G.Leads F exits.labels (i + (exits.gotoLoop side).size) m := by
  unfold Exits.gotoLoop Exits.draft at placed ⊢
  cases loop : exits.loop? with
  | none => exact .of_passes (.refl hf at_)
  | some ends =>
    rw [loop] at placed
    refine leads_goto ?_ settled hf at_ placed
    rw [Exits.labels, loop]
    rcases sides ends with eq | eq
    · rw [eq]
      exact List.mem_cons_of_mem _ List.mem_cons_self
    · rw [eq]
      exact List.mem_cons_of_mem _ (List.mem_cons_of_mem _ List.mem_cons_self)

/-- Leaving a loop leads to its end. -/
theorem leadsStmt_breakLoop : G.LeadsStmt F .breakLoop :=
  fun _ _ _ _ settled placed hf at_ => leads_gotoLoop (fun _ => .inr rfl) settled placed hf at_

/-- As `leadsStmt_breakLoop`, for its next round. -/
theorem leadsStmt_continueLoop : G.LeadsStmt F .continueLoop :=
  fun _ _ _ _ settled placed hf at_ => leads_gotoLoop (fun _ => .inl rfl) settled placed hf at_

/-- No statements lead on. -/
theorem leadsStmts_nil : G.LeadsStmts F [] :=
  fun _ _ _ _ _ _ hf at_ => .of_passes (.refl hf at_)

/-- A statement more leads on. -/
theorem leadsStmts_cons {s : Stmt} {ss : List Stmt} (hs : G.LeadsStmt F s)
    (hss : G.LeadsStmts F ss) : G.LeadsStmts F (s :: ss) := by
  intro exits i n m settled placed hf at_
  rw [run_codeOfStmts_cons] at placed ⊢
  simp only [placed_append, size_append, ← Nat.add_assoc] at placed ⊢
  refine (hs settled placed.1 hf at_).trans fun m₁ comes₁ => ?_
  exact hss settled placed.2 comes₁.frame comes₁.at_

/-- A conditional leads on, whether its branch is taken or not. -/
theorem leadsStmt_ifElse_none {cond : Expr} {yes : Stmt} (hc : G.PassesExpr F cond)
    (hy : G.LeadsStmt F yes) : G.LeadsStmt F (.ifElse cond yes none) := by
  intro exits i n m settled placed hf at_
  rw [Stmt.run_code_ifElse_none] at placed ⊢
  simp only [placed_append, placed_mark, size_append, ← Nat.add_assoc] at placed ⊢
  obtain ⟨⟨⟨placedCond, placedTest⟩, placedYes⟩, done, -⟩ := placed
  refine .prepend (hc placedCond hf at_) fun m₁ comes₁ => ?_
  rcases passes_gotoIfZero comes₁.frame comes₁.at_ placedTest done with zero | nonzero
  · exact .of_passes zero
  · refine .prepend nonzero fun m₂ comes₂ => ?_
    exact hy settled placedYes comes₂.frame comes₂.at_

/-- As `leadsStmt_ifElse_none`, with another branch. -/
theorem leadsStmt_ifElse_some {cond : Expr} {yes no : Stmt} (hc : G.PassesExpr F cond)
    (hy : G.LeadsStmt F yes) (hn : G.LeadsStmt F no) :
    G.LeadsStmt F (.ifElse cond yes (some no)) := by
  intro exits i n m settled placed hf at_
  rw [Stmt.run_code_ifElse_some] at placed ⊢
  simp only [placed_append, placed_mark, size_append, ← Nat.add_assoc] at placed ⊢
  obtain ⟨⟨⟨⟨⟨placedCond, placedTest⟩, placedYes⟩, skip, otherwise, -⟩, placedNo⟩, done, -⟩ :=
    placed
  refine .prepend (hc placedCond hf at_) fun m₁ comes₁ => ?_
  rcases passes_gotoIfZero comes₁.frame comes₁.at_ placedTest otherwise with zero | nonzero
  · refine .prepend zero fun m₂ comes₂ => ?_
    exact hn settled placedNo comes₂.frame comes₂.at_
  · refine .prepend nonzero fun m₂ comes₂ => ?_
    refine (hy settled placedYes comes₂.frame comes₂.at_).trans fun m₃ comes₃ => ?_
    have jump :=
      Machine.path_gotoLabel (h := G.handler) comes₃.frame comes₃.at_ ⟨skip, trivial⟩ done
      (G.compact _ _ done)
    exact .of_passes (.of_arrives jump)

/-! ## Loops -/

/-- The exits of a body are settled if its loop has its two ends. -/
theorem settled_inside {exits : Exits} {next done : Nat} (settled : G.Settled exits.labels)
    (hn : G.whole.placeOf? (.inner next) = some i) (hd : G.whole.placeOf? (.inner done) = some j) :
    G.Settled (exits.inside next done).labels := by
  intro l mem
  rw [Exits.labels_inside, List.mem_cons, List.mem_cons, List.mem_singleton] at mem
  rcases mem with rfl | rfl | rfl
  · exact settled _ exits.ret_mem_labels
  · exact ⟨i, hn⟩
  · exact ⟨j, hd⟩

/-- A label more is settled. -/
theorem settled_cons {l : Label} (place : G.whole.placeOf? l = some i) (settled : G.Settled outs) :
    G.Settled (l :: outs) := by
  intro l' mem
  rcases List.mem_cons.mp mem with rfl | mem
  · exact ⟨i, place⟩
  · exact settled l' mem

/-- The body of a loop, of whose ends `done` is where the loop ends, leads to where its next round
begins, if that is where the other end is or one of the labels. -/
theorem leads_body {exits : Exits} {next done : Nat} (outer : ∀ l ∈ exits.labels, l ∈ outs)
    (leads : G.Leads F (exits.inside next done).labels i m)
    (hn : .inner next ∈ outs ∨ G.whole.placeOf? (.inner next) = some i)
    (hd : G.whole.placeOf? (.inner done) = some j)
    (behind : ∀ m', G.Comes F m i 0 m' → G.Leads F outs j m') : G.Leads F outs j m := by
  refine leads.extend (fun l mem => ?_) behind
  rw [Exits.labels_inside, List.mem_cons, List.mem_cons, List.mem_singleton] at mem
  rcases mem with rfl | rfl | rfl
  · exact .inl (outer _ exits.ret_mem_labels)
  · exact hn.imp_right .inl
  · exact .inr (.inr hd)

/-- A loop leads on from its top, its test passing on or to its end. -/
theorem leadsStmt_whileLoop {cond : Expr} {body : Stmt} (hc : G.PassesExpr F cond)
    (hb : G.LeadsStmt F body) : G.LeadsStmt F (.whileLoop cond body) := by
  intro exits i n m settled placed hf at_
  rw [Stmt.run_code_whileLoop] at placed ⊢
  simp only [placed_append, placed_mark, size_append, ← Nat.add_assoc] at placed ⊢
  obtain ⟨⟨⟨⟨⟨top, -⟩, placedCond⟩, placedTest⟩, placedBody⟩, again, done, -⟩ := placed
  refine leads_loop top (fun m hf at_ => ?_) hf at_
  refine .prepend (hc placedCond hf at_) fun m₁ comes₁ => ?_
  rcases passes_gotoIfZero comes₁.frame comes₁.at_ placedTest done with zero | nonzero
  · exact .of_passes zero
  · refine .prepend nonzero fun m₂ comes₂ => ?_
    have body := hb (settled_inside settled top done) placedBody comes₂.frame comes₂.at_
    refine leads_body (fun l => List.mem_cons_of_mem _) body (.inl List.mem_cons_self) done ?_
    intro m₃ comes₃
    exact leads_goto List.mem_cons_self (settled_cons top settled) comes₃.frame comes₃.at_
      ⟨again, trivial⟩

/-- The test behind the body of a loop, which goes back to its top or on. -/
theorem leads_gotoIfNonzero {top : Label} (mem : top ∈ outs) (settled : G.Settled outs)
    (hf : G.InFrame F 0 m) (at_ : m.At i) (placed : G.whole.Placed i (gotoIfNonzero top)) :
    G.Leads F outs (i + 2) m := by
  have branch := Machine.path_branch (h := G.handler) G.top hf.carries at_ placed.1
  by_cases holds : BranchOp.beq.holds m.regs[Reg.a0] m.regs[Reg.zero] = true
  · rw [if_pos holds] at branch
    have at₂ : (m.went (m.pc + 8)).At (i + 2) := by
      show m.pc + 8 = _
      rw [at_]
      exact Word.ofNat_add_ofNat _ 8
    exact .of_passes fun _ _ _ next => .of_path branch (next _ ⟨at₂, hf.went, .refl _ _⟩)
  · rw [if_neg holds] at branch
    have at₁ : (m.went (m.pc + 4)).At (i + 1) := by
      rw [Machine.At, ← Word.ofNat_four_mul_succ, ← at_]
      rfl
    have passes : G.Passes F m (i + 1) 0 :=
      fun _ _ _ next => .of_path branch (next _ ⟨at₁, hf.went, .refl _ _⟩)
    refine .prepend passes fun m₁ comes₁ => ?_
    exact leads_goto mem settled comes₁.frame comes₁.at_ placed.2

/-- As `leadsStmt_whileLoop`, the condition being looked at last. -/
theorem leadsStmt_doWhile {body : Stmt} {cond : Expr} (hb : G.LeadsStmt F body)
    (hc : G.PassesExpr F cond) : G.LeadsStmt F (.doWhile body cond) := by
  intro exits i n m settled placed hf at_
  rw [Stmt.run_code_doWhile] at placed ⊢
  simp only [placed_append, placed_mark, size_append, ← Nat.add_assoc] at placed ⊢
  obtain ⟨⟨⟨⟨⟨⟨top, -⟩, placedBody⟩, next, -⟩, placedCond⟩, placedTest⟩, done, -⟩ := placed
  refine leads_loop top (fun m hf at_ => ?_) hf at_
  have body := hb (settled_inside settled next done) placedBody hf at_
  refine leads_body (fun l => List.mem_cons_of_mem _) body (.inr next) done fun m₁ comes₁ => ?_
  refine .prepend (hc placedCond comes₁.frame comes₁.at_) fun m₂ comes₂ => ?_
  exact leads_gotoIfNonzero List.mem_cons_self (settled_cons top settled) comes₂.frame comes₂.at_
    placedTest

/-- The test in front of the body of a `for`, which may be missing. -/
theorem leads_gotoUnless {cond : Option Expr} (hc : ∀ e, cond = some e → G.PassesExpr F e)
    {n : Nat} {done : Label}
    (placed : G.whole.Placed i (gotoUnless cond ((codeOfExpr? G.known cond).run n).1 done))
    (place : G.whole.placeOf? done = some j) (hf : G.InFrame F 0 m) (at_ : m.At i)
    (behind : ∀ m', G.Comes F m
      (i + (gotoUnless cond ((codeOfExpr? G.known cond).run n).1 done).size) 0 m' →
        G.Leads F outs j m') : G.Leads F outs j m := by
  cases cond with
  | none => exact behind m (.refl hf at_)
  | some e =>
    rw [gotoUnless, Option.isSome_some, if_pos rfl] at placed behind
    simp only [placed_append, size_append, ← Nat.add_assoc] at placed behind
    refine .prepend (hc e rfl placed.1 hf at_) fun m₁ comes₁ => ?_
    rcases passes_gotoIfZero comes₁.frame comes₁.at_ placed.2 place with zero | nonzero
    · exact .of_passes zero
    · exact .prepend nonzero fun m₂ comes₂ => behind m₂ (comes₁.trans comes₂)

/-- The step of a loop passes, where there is one. -/
theorem passes_step {step : Option Expr} (hs : ∀ e, step = some e → G.PassesExpr F e) {n : Nat}
    (placed : G.whole.Placed i ((codeOfExpr? G.known step).run n).1) (hf : G.InFrame F 0 m)
    (at_ : m.At i) : G.Passes F m (i + size ((codeOfExpr? G.known step).run n).1) 0 := by
  cases step with
  | none => exact .refl hf at_
  | some e => exact hs e rfl placed hf at_

/-- As `leadsStmt_whileLoop`, with the parts of the header. -/
theorem leadsStmt_forLoop {init : Option Stmt} {cond step : Option Expr} {body : Stmt}
    (hi : G.LeadsStmt? F init) (hc : ∀ e, cond = some e → G.PassesExpr F e)
    (hs : ∀ e, step = some e → G.PassesExpr F e) (hb : G.LeadsStmt F body) :
    G.LeadsStmt F (.forLoop init cond step body) := by
  intro exits i n m settled placed hf at_
  rw [Stmt.run_code_forLoop] at placed ⊢
  simp only [placed_append, placed_mark, size_append, ← Nat.add_assoc] at placed ⊢
  obtain ⟨⟨⟨⟨⟨⟨placedInit, top, -⟩, placedCheck⟩, placedBody⟩, next, -⟩, placedStep⟩,
    again, done, -⟩ :=
    placed
  refine (hi settled placedInit hf at_).trans fun m₁ comes₁ => ?_
  refine leads_loop top (fun m hf at_ => ?_) comes₁.frame comes₁.at_
  refine leads_gotoUnless hc placedCheck done hf at_ fun m₂ comes₂ => ?_
  have body := hb (settled_inside settled next done) placedBody comes₂.frame comes₂.at_
  refine leads_body (fun l => List.mem_cons_of_mem _) body (.inr next) done fun m₃ comes₃ => ?_
  refine .prepend (passes_step hs placedStep comes₃.frame comes₃.at_) fun m₄ comes₄ => ?_
  exact leads_goto List.mem_cons_self (settled_cons top settled) comes₄.frame comes₄.at_
    ⟨again, trivial⟩

/-! ## All statements -/

mutual

/-- The code of every statement leads safely to its end or out of it. -/
theorem leadsStmt : (s : Stmt) → (∀ e ∈ s.exprs, e.Within F.locals) →
    (∀ d ∈ s.declared, d < F.locals) → G.LeadsStmt F s
  | .ret none, _, _ => leadsStmt_ret_none
  | .ret (some e), he, _ => leadsStmt_ret_some (passesExpr e (he e List.mem_cons_self))
  | .expr e, he, _ => leadsStmt_expr (passesExpr e (he e List.mem_cons_self))
  | .decl _ none, _, hd => leadsStmt_decl_none (hd _ List.mem_cons_self)
  | .decl _ (some e), he, hd =>
    leadsStmt_decl_some (hd _ List.mem_cons_self) (passesExpr e (he e List.mem_cons_self))
  | .ifElse cond yes none, he, hd => by
    simp only [Stmt.exprs, Stmt.declared, List.mem_cons, List.mem_append] at he hd
    exact leadsStmt_ifElse_none (passesExpr cond (he cond (.inl rfl)))
      (leadsStmt yes (fun e mem => he e (.inr (.inl mem))) fun d mem => hd d (.inl mem))
  | .ifElse cond yes (some no), he, hd => by
    simp only [Stmt.exprs, Stmt.declared, List.mem_cons, List.mem_append] at he hd
    exact leadsStmt_ifElse_some (passesExpr cond (he cond (.inl rfl)))
      (leadsStmt yes (fun e mem => he e (.inr (.inl mem))) fun d mem => hd d (.inl mem))
      (leadsStmt no (fun e mem => he e (.inr (.inr mem))) fun d mem => hd d (.inr mem))
  | .whileLoop cond body, he, hd => by
    simp only [Stmt.exprs, Stmt.declared, List.mem_cons] at he hd
    exact leadsStmt_whileLoop (passesExpr cond (he cond (.inl rfl)))
      (leadsStmt body (fun e mem => he e (.inr mem)) hd)
  | .doWhile body cond, he, hd => by
    simp only [Stmt.exprs, Stmt.declared, List.mem_append, List.mem_singleton] at he hd
    exact leadsStmt_doWhile (leadsStmt body (fun e mem => he e (.inl mem)) hd)
      (passesExpr cond (he cond (.inr rfl)))
  | .forLoop init cond step body, he, hd => by
    simp only [Stmt.exprs, Stmt.declared, List.mem_append, Option.mem_toList] at he hd
    exact leadsStmt_forLoop
      (leadsStmt? init (fun e mem => he e (.inl mem)) fun d mem => hd d (.inl mem))
      (fun e eq => passesExpr e (he e (.inr (.inl eq))))
      (fun e eq => passesExpr e (he e (.inr (.inr (.inl eq)))))
      (leadsStmt body (fun e mem => he e (.inr (.inr (.inr mem)))) fun d mem => hd d (.inr mem))
  | .breakLoop, _, _ => leadsStmt_breakLoop
  | .continueLoop, _, _ => leadsStmt_continueLoop
  | .block stmts, he, hd => leadsStmts stmts he hd
  | .empty, _, _ => leadsStmt_empty

/-- A statement that may be missing leads on. -/
theorem leadsStmt? : (s : Option Stmt) → (∀ e ∈ exprsOfStmt? s, e.Within F.locals) →
    (∀ d ∈ declaredByStmt? s, d < F.locals) → G.LeadsStmt? F s
  | none, _, _ => leadsStmt_empty
  | some s, he, hd => leadsStmt s he hd

/-- Statements lead on, one by one. -/
theorem leadsStmts : (ss : List Stmt) → (∀ e ∈ exprsOfStmts ss, e.Within F.locals) →
    (∀ d ∈ declaredByStmts ss, d < F.locals) → G.LeadsStmts F ss
  | [], _, _ => leadsStmts_nil
  | s :: ss, he, hd => by
    simp only [exprsOfStmts, declaredByStmts, List.mem_append] at he hd
    exact leadsStmts_cons
      (leadsStmt s (fun e mem => he e (.inl mem)) fun d mem => hd d (.inl mem))
      (leadsStmts ss (fun e mem => he e (.inr mem)) fun d mem => hd d (.inr mem))

end

end Guarded

end BareC
