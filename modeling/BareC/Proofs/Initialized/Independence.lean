import BareC.Proofs.Initialized.Sheltered
import BareC.Proofs.Semantics.Functions

/-!
# Results do not depend on what was left in the stack

The parameters of a function have been saved when its body begins, so it is left to look at the
slots that the body declares. If they are all sheltered, then a call returns what the reference
evaluator finds, and so does its code on any machine, whatever the memory holds below the stack
pointer.

A slot that is not sheltered may be read before it is written, and two units at the end do it: one
passes over a declaration, the other names a variable in its own initial value. What they return is
what an earlier call left there. That a declared variable should start at zero is what the language
says; the code generated for it does so where control passes the declaration, and not elsewhere.

An execution of the evaluator that does not end has no code to be compared with, so it is only the
order of its accesses that is known.
-/

namespace BareC

/-! ## Functions -/

mutual

/-- A part of a statement declares slots the statement does. -/
theorem declared_subset (t : Stmt) : (s : Stmt) → t ∈ s.parts → t.declared ⊆ s.declared
  | .ifElse cond yes no, mem => by
    rcases List.mem_cons.mp mem with rfl | mem
    · exact List.Subset.refl _
    · rcases List.mem_append.mp mem with mem | mem
      · exact List.subset_append_of_subset_left _ (declared_subset t yes mem)
      · exact List.subset_append_of_subset_right _ (declaredByStmt?_subset t no mem)
  | .whileLoop cond body, mem | .doWhile body cond, mem => by
    rcases List.mem_cons.mp mem with rfl | mem
    · exact List.Subset.refl _
    · exact declared_subset t body mem
  | .forLoop init cond step body, mem => by
    rcases List.mem_cons.mp mem with rfl | mem
    · exact List.Subset.refl _
    · rcases List.mem_append.mp mem with mem | mem
      · exact List.subset_append_of_subset_left _ (declaredByStmt?_subset t init mem)
      · exact List.subset_append_of_subset_right _ (declared_subset t body mem)
  | .block stmts, mem => by
    rcases List.mem_cons.mp mem with rfl | mem
    · exact List.Subset.refl _
    · exact declaredByStmts_subset t stmts mem
  | .ret _, mem | .expr _, mem | .decl _ _, mem | .breakLoop, mem | .continueLoop,
      mem | .empty, mem => by
    rw [List.mem_singleton.mp mem]
    exact List.Subset.refl _

/-- As `declared_subset`, for a statement that may be missing. -/
theorem declaredByStmt?_subset (t : Stmt) : (s? : Option Stmt) → t ∈ partsOfStmt? s? →
    t.declared ⊆ declaredByStmt? s?
  | none, mem => nomatch mem
  | some s, mem => declared_subset t s mem

/-- As `declared_subset`, for a list. -/
theorem declaredByStmts_subset (t : Stmt) : (ss : List Stmt) → t ∈ partsOfStmts ss →
    t.declared ⊆ declaredByStmts ss
  | [], mem => nomatch mem
  | s :: ss, mem => by
    rcases List.mem_append.mp mem with mem | mem
    · exact List.subset_append_of_subset_left _ (declared_subset t s mem)
    · exact List.subset_append_of_subset_right _ (declaredByStmts_subset t ss mem)

end

/-- A branch of a statement declares slots the statement does. -/
theorem Stmt.declared_subset_of_branch {s b : Stmt} (h : b ∈ s.branches) :
    b.declared ⊆ s.declared := by
  cases s with
  | ifElse cond yes no =>
    rcases List.mem_cons.mp h with rfl | h
    · exact List.subset_append_left _ _
    · cases Option.mem_toList.mp h
      exact List.subset_append_right _ _
  | whileLoop cond body =>
    rw [List.mem_singleton.mp h]
    exact List.Subset.refl _
  | _ => cases h

/-- A slot that nothing declares is sheltered. -/
theorem Function.shelters_of_not_declared {f : Function} {slot : Nat}
    (h : slot ∉ declaredByStmts f.body) : f.Shelters slot where
  initial s mem := by
    cases s with
    | decl s init =>
      have other : s ≠ slot := fun same =>
        h (declaredByStmts_subset _ f.body mem (same ▸ List.mem_singleton_self _))
      cases init <;> simp [Stmt.readsOwn, other]
    | _ => rfl
  branch s mem b branch declares :=
    absurd (declaredByStmts_subset s f.body mem (Stmt.declared_subset_of_branch branch declares)) h

/-- A sheltered slot of a function whose reads are in scope is written before it is read, whatever
the calls answer. -/
theorem Function.Sees.writtenFirst {f : Function} (sees : f.Sees) {slot : Nat}
    (sheltered : f.Shelters slot) (replies : Replies) (fuel : Nat) (left : Nat → Word)
    (args : List Word) :
    WrittenFirst slot (f.observe replies fuel left args).2 := by
  obtain ⟨seen, behind, params, all⟩ := sees
  rw [Function.observe]
  split
  next few =>
    have unread : WrittenFirst slot (Observation.opened left args).record :=
      .of_not_mem (by simp [Observation.opened])
    by_cases isParam : slot < f.params
    · have saved : .wrote slot ∈ (Observation.opened left args).record := by
        simpa [Observation.opened, few] using isParam
      have guards : Guards slot True (observeStmts replies fuel f.body) fun _ => False :=
        guards_stmts fuel f.body fun _ _ _ => trivial
      exact guards.orders _ unread fun _ => saved
    · have guarded : GuardedAll slot _ replies fuel f.body behind :=
        all.guarded (fun mem => isParam (params slot mem)) (Nat.le_refl _) sheltered
      exact guarded.orders _ unread False.elim
  next => exact .of_not_mem List.not_mem_nil

/-! ## Units -/

namespace Program

/-- With enough stack the code of the function returns this value: any machine that comes to its
entry with the arguments in their registers comes back with the value, whatever its memory holds
besides the code. -/
def Returns (p : Program) (name : String) (args : List Word) (v : Word) : Prop :=
  ∃ bytes entry, p.assembly.placeOf? (.entry name) = some entry ∧
    ∀ (η : Type) (h : TrapHandler η) (m : Machine η) (stack r : Nat), m.At entry →
      m.Carries p.words →
      m.regs[Reg.sp] = BitVec.ofNat 32 stack → m.regs[Reg.ra] = BitVec.ofNat 32 (4 * r) →
      (∀ k (hk : k < Grammar.maxParameters) w,
        args[k]? = some w → m.regs[Machine.argumentReg k hk] = w) →
      p.codeLength + bytes ≤ stack → stack ≤ m.memory.size → m.memory.size < 2 ^ 31 →
        ∃ m', Machine.Reaches h m m' ∧ m'.At r ∧ m'.regs[Reg.a0] = v

/-- What the evaluation of a short program gives, the machine returns. -/
theorem returns_of_eval {ts : List Token} (short : (ofTokens ts).codeLength ≤ 2 ^ 20)
    {fuel bytes : Nat} {name : String} {args : List Word} {v : Word}
    (eval : (ofTokens ts).eval fuel name args = some (v, bytes)) :
    (ofTokens ts).Returns name args v := by
  have runs {η : Type} (h : TrapHandler η) (top : Nat) : RunsCalls h (ofTokens ts).assembly top
      ((ofTokens ts).functions.map (·.name)) ((ofTokens ts).eval fuel) :=
    runsCalls (fun _ mem => within_of_mem_functions mem) (compact_of_codeLength_le short) h top fuel
  obtain ⟨-, entry, place, -⟩ := runs TrapHandler.halting 0 name args v bytes eval
  refine ⟨bytes, entry, place,
    fun η h m stack r at_ carries sp ra passed room stack_le size_lt => ?_⟩
  obtain ⟨-, entry', place', returns⟩ := runs h m.memory.size name args v bytes eval
  rw [place] at place'
  cases place'
  obtain ⟨m', reaches, at', -, -, -, value, -⟩ :=
    returns m stack r at_ carries sp ra passed room stack_le (Nat.le_refl _) size_lt
  exact ⟨m', reaches, at', value⟩

/-- **No activation sees what earlier calls have left in the stack.** In any execution of a function
of a unit, whatever its calls answer and whatever was left in its frame, a sheltered slot is only
read behind a writing of it. If all slots that the functions declare are sheltered, then what a call
returns does not depend on what was left in any frame: it is what the reference evaluator finds,
which knows of no frames, and what the code returns on every machine. -/
theorem reads_stand_behind_writes (ts : List Token) :
    (∀ f ∈ (ofTokens ts).functions, ∀ slot, f.Shelters slot → ∀ replies fuel left args,
        WrittenFirst slot (f.observe replies fuel left args).2) ∧
      ((∀ f ∈ (ofTokens ts).functions, ∀ slot ∈ declaredByStmts f.body, f.Shelters slot) →
        ∀ left fuel callers name args,
          (ofTokens ts).observe left fuel callers name args =
              ((ofTokens ts).eval fuel name args).map Prod.fst ∧
            ((ofTokens ts).codeLength ≤ 2 ^ 20 →
              ∀ v ∈ (ofTokens ts).observe left fuel callers name args,
              (ofTokens ts).Returns name args v)) := by
  have ordered : ∀ f ∈ (ofTokens ts).functions, ∀ slot, f.Shelters slot → ∀ replies fuel left args,
      WrittenFirst slot (f.observe replies fuel left args).2 :=
    fun f isFunction slot sheltered => (sees_of_mem_functions isFunction).writtenFirst sheltered
  refine ⟨ordered, fun sheltered left fuel callers name args => ?_⟩
  have allOrdered : ∀ f ∈ (ofTokens ts).functions, ∀ replies fuel left args slot,
      WrittenFirst slot (f.observe replies fuel left args).2 := by
    intro f isFunction replies fuel left args slot
    refine ordered f isFunction slot ?_ replies fuel left args
    by_cases declared : slot ∈ declaredByStmts f.body
    · exact sheltered f isFunction slot declared
    · exact f.shelters_of_not_declared declared
  have found := observe_eq allOrdered left fuel callers name args
  refine ⟨found, fun short v returned => ?_⟩
  obtain ⟨⟨v', bytes⟩, eval, rfl⟩ := Option.map_eq_some_iff.mp (found.symm.trans returned)
  exact returns_of_eval short eval

/-- Tokens on one line. -/
def onOneLine (texts : List String) : List Token :=
  let signs := ["(", ")", "\x7b", "\x7d", ";", "=", "!=", "+="]
  texts.map fun text => { kind := if text ∈ signs then .punct else .ident, text, line := 1 }

/-- Variables are declared without a value, below a `do` and between the braces of a branch. -/
def declaring : List Token :=
  onOneLine
    ["int", "f", "(", "int", "n", ")", "\x7b", "int", "s", ";",
      "do", "int", "m", "=", "n", ";", "while", "(", "m", "!=", "n", ")", ";",
      "if", "(", "n", ")", "\x7b", "int", "d", "=", "n", ";", "s", "+=", "d", ";", "\x7d",
      "return", "s", ";", "\x7d"]

/-- A function whose declarations stand in front of their readers, and whose answer does not depend
on what its frame held before. -/
theorem reads_stand_behind_writes_declaring :
    (∀ f ∈ (ofTokens declaring).functions, ∀ slot ∈ declaredByStmts f.body, f.Shelters slot) ∧
      (ofTokens declaring).codeLength ≤ 2 ^ 20 ∧
        (∀ left callers, (ofTokens declaring).observe left 3 callers "f" [7] = some 7) ∧
          (ofTokens declaring).Returns "f" [7] 7 := by
  have sheltered : ∀ f ∈ (ofTokens declaring).functions, ∀ slot ∈ declaredByStmts f.body,
      f.Shelters slot := by
    decide +kernel
  have short : (ofTokens declaring).codeLength ≤ 2 ^ 20 := by
    have size : (ofTokens declaring).assembly.size ≤ 2 ^ 18 := by decide +kernel
    rw [codeLength, words, Assembly.length_link]
    omega
  have eval : ((ofTokens declaring).eval 3 "f" [7]).map Prod.fst = some 7 := by decide +kernel
  have independent := (reads_stand_behind_writes declaring).2 sheltered
  have returned : ∀ left callers, (ofTokens declaring).observe left 3 callers "f" [7] = some 7 :=
    fun left callers => (independent left 3 callers "f" [7]).1.trans eval
  exact ⟨sheltered, short, returned,
    (independent (fun _ _ => 0) 3 [] "f" [7]).2 short 7 (returned _ _)⟩

/-- A declaration that is passed over if `n` is zero. -/
def passingOver : List Token :=
  onOneLine ["int", "f", "(", "int", "n", ")", "\x7b",
    "if", "(", "n", ")", "int", "x", ";", "return", "x", ";", "\x7d"]

/-- A variable whose initial value is its own. -/
def ownValue : List Token :=
  onOneLine ["int", "f", "(", "int", "n", ")", "\x7b", "int", "x", "=", "x", ";", "return", "x",
    ";", "\x7d"]

/-- Some function of the unit reads a slot that it has not written, and what some call returns
depends on what was left in a slot. -/
def ReadsLeft (ts : List Token) : Prop :=
  (∃ f ∈ (ofTokens ts).functions, ∃ slot replies fuel left args,
      ¬WrittenFirst slot (f.observe replies fuel left args).2) ∧
    ∃ left left' fuel callers name args,
      (ofTokens ts).observe left fuel callers name args ≠
        (ofTokens ts).observe left' fuel callers name args

/-- In both units the second slot is read where only the first one has been written. -/
theorem reads_what_was_left : ReadsLeft passingOver ∧ ReadsLeft ownValue := by
  have seen : ∀ ts ∈ [passingOver, ownValue],
      (∃ f ∈ (ofTokens ts).functions,
        ∃ before ∈ [[.wrote 0], [.wrote 0, .read 0]], ∃ behind ∈ [[], [.wrote 1, .read 1]],
          (f.observe (fun _ _ _ => none) 0 (fun _ => 7) [0]).2 = before ++ .read 1 :: behind) ∧
        (ofTokens ts).observe (fun _ _ => 7) 1 [] "f" [0] = some 7 ∧
          (ofTokens ts).observe (fun _ _ => 8) 1 [] "f" [0] = some 8 := by
    decide +kernel
  have both : ∀ ts ∈ [passingOver, ownValue], ReadsLeft ts := by
    intro ts mem
    obtain ⟨⟨f, isFunction, before, only, behind, -, record⟩, seven, eight⟩ := seen ts mem
    constructor
    · have unwritten : .wrote 1 ∉ before := by
        rcases List.mem_pair.mp only with rfl | rfl <;> decide
      exact ⟨f, isFunction, 1, fun _ _ _ => none, 0, fun _ => 7, [0], fun first =>
        unwritten (first _ _ record)⟩
    · refine ⟨fun _ _ => 7, fun _ _ => 8, 1, [], "f", [0], fun same => ?_⟩
      rw [seven, eight] at same
      exact absurd same (by decide)
  exact ⟨both _ List.mem_cons_self, both _ (List.mem_cons_of_mem _ List.mem_cons_self)⟩

end Program

end BareC
