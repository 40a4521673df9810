import BareC.Proofs.Assembly.Labels
import BareC.Proofs.Isa.Immediates
import BareC.Proofs.Linking.Greatest
import BareC.Token.Scan

/-!
# Which definition a call reaches

A name is looked up in two ways. `Program.function?` finds the first definition of it, and the code
of a call jumps to where the last one begins, since that is the mark that counts. A unit may define
a name more than once, as long as the definitions agree on the number of parameters, so the two can
differ; they agree on exactly those names that have one definition (`calls_reach_definition`).

That a call jumps to the last definition is found in three steps: each call of a tree leaves a jump
to the entry of its name in the code (`Stmt.Has.jump_mem_code`), the jump is linked to where that
entry was marked last, and where a function begins tells which function it is (`eq_of_startOf_eq`).

Which of two definitions a call ought to reach is not decided here, and neither is what the two of
them do. All that is said is where they part, and that a second definition is all it takes.
-/

namespace BareC

open Assembly

/-! ## Calls in trees and in code -/

section

variable {known : List String} {name : String} {args : List Expr}

/-- The names of the calls are known. -/
def Targeted (known : List String) (calls : List (String × Nat)) : Prop :=
  ∀ call ∈ calls, call.1 ∈ known

/-- Calls are among those of a longer list. -/
theorem Targeted.left {calls calls' : List (String × Nat)} (h : Targeted known (calls ++ calls')) :
    Targeted known calls := fun call mem => h call (List.mem_append_left _ mem)

/-- As `left`, for the calls behind. -/
theorem Targeted.right {calls calls' : List (String × Nat)} (h : Targeted known (calls ++ calls')) :
    Targeted known calls' := fun call mem => h call (List.mem_append_right _ mem)

/-- What every code of an argument has in it, the code of all arguments has in it. -/
theorem jump_mem_codeOfArgs {es : List Expr} {e : Expr} (mem : e ∈ es)
    (jumps : ∀ n, .jump ra (.entry name) ∈ ((e.code known).run n).1) (n : Nat) :
    .jump ra (.entry name) ∈ ((codeOfArgs known es).run n).1 := by
  induction mem generalizing n with
  | head es =>
    rw [run_codeOfArgs_cons]
    exact List.mem_append_left _ (List.mem_append_left _ (jumps n))
  | tail e' _ ih =>
    rw [run_codeOfArgs_cons]
    exact List.mem_append_right _ (ih _)

/-- Every call in an expression jumps to the entry of its name. -/
theorem Expr.In.jump_mem_code {e : Expr} (h : (Expr.call name args).In e)
    (linked : Targeted known e.calls) (n : Nat) :
    .jump ra (.entry name) ∈ ((e.code known).run n).1 := by
  induction h generalizing n with
  | self =>
    rw [run_code_call known n (linked _ List.mem_cons_self)]
    exact List.mem_append_right _ List.mem_cons_self
  | assign _ ih =>
    rw [run_code_assign]
    exact List.mem_append_left _ (ih linked n)
  | unary _ ih =>
    rw [run_code_unary]
    exact List.mem_append_left _ (ih linked n)
  | binaryLeft _ ih =>
    simp only [run_code_binary, List.mem_append]
    exact .inl (.inl (.inl (.inl (ih linked.left n))))
  | binaryRight _ ih =>
    simp only [run_code_binary, List.mem_append]
    exact .inl (.inl (.inr (ih linked.right _)))
  | andLeft _ ih =>
    simp only [run_code_logicalAnd, List.mem_append]
    exact .inl (.inl (.inl (.inl (.inl (ih linked.left _)))))
  | andRight _ ih =>
    simp only [run_code_logicalAnd, List.mem_append]
    exact .inl (.inl (.inl (.inr (ih linked.right _))))
  | orLeft _ ih =>
    simp only [run_code_logicalOr, List.mem_append]
    exact .inl (.inl (.inl (.inl (.inl (ih linked.left _)))))
  | orRight _ ih =>
    simp only [run_code_logicalOr, List.mem_append]
    exact .inl (.inl (.inl (.inr (ih linked.right _))))
  | argument mem _ ih =>
    have inside : Targeted known (Expr.calls _) := fun call isCall =>
      linked call (List.mem_cons_of_mem _ (mem_callsOfArgs.mpr ⟨_, mem, isCall⟩))
    rw [run_code_call known n (linked _ List.mem_cons_self)]
    exact List.mem_append_left _ (List.mem_append_left _ (jump_mem_codeOfArgs mem (ih inside) n))

/-- What every code of a statement has in it, the code of a block has in it. -/
theorem jump_mem_codeOfStmts {exits : Exits} {ss : List Stmt} {s : Stmt} (mem : s ∈ ss)
    (jumps : ∀ n, .jump ra (.entry name) ∈ ((s.code known exits).run n).1) (n : Nat) :
    .jump ra (.entry name) ∈ ((codeOfStmts known exits ss).run n).1 := by
  induction mem generalizing n with
  | head ss =>
    rw [run_codeOfStmts_cons]
    exact List.mem_append_left _ (jumps n)
  | tail s' _ ih =>
    rw [run_codeOfStmts_cons]
    exact List.mem_append_right _ (ih _)

/-- So does every call in a statement. -/
theorem Stmt.Has.jump_mem_code {s : Stmt} (h : s.Has (.call name args))
    (linked : Targeted known s.calls) (exits : Exits) (n : Nat) :
    .jump ra (.entry name) ∈ ((s.code known exits).run n).1 := by
  induction h generalizing exits n with
  | ret h | decl h =>
    first | rw [run_code_ret_some] | rw [run_code_decl_some]
    exact List.mem_append_left _ (h.jump_mem_code linked n)
  | expr h => exact h.jump_mem_code linked n
  | @ifCond cond yes no h =>
    have inCond := fun n => h.jump_mem_code linked.left.left n
    cases no <;> simp only [run_code_ifElse_none, run_code_ifElse_some, List.mem_append,
      inCond, true_or]
  | @ifYes cond yes no _ ih =>
    have inYes := fun n => ih linked.left.right exits n
    cases no <;> simp only [run_code_ifElse_none, run_code_ifElse_some, List.mem_append,
      inYes, true_or, or_true]
  | ifNo _ ih =>
    simp only [run_code_ifElse_some, List.mem_append]
    exact .inl (.inr (ih linked.right exits _))
  | whileCond h =>
    simp only [run_code_whileLoop, List.mem_append]
    exact .inl (.inl (.inl (.inr (h.jump_mem_code linked.left _))))
  | whileBody _ ih =>
    simp only [run_code_whileLoop, List.mem_append]
    exact .inl (.inr (ih linked.right _ _))
  | doBody _ ih =>
    simp only [run_code_doWhile, List.mem_append]
    exact .inl (.inl (.inl (.inl (.inr (ih linked.right _ _)))))
  | doCond h =>
    simp only [run_code_doWhile, List.mem_append]
    exact .inl (.inl (.inr (h.jump_mem_code linked.left _)))
  | forInit _ ih =>
    simp only [run_code_forLoop, run_codeOfStmt?_some, List.mem_append]
    exact .inl (.inl (.inl (.inl (.inl (.inl (ih linked.left.left.left exits _))))))
  | forCond h =>
    have inCond := fun n => h.jump_mem_code linked.left.left.right n
    simp only [run_code_forLoop, gotoUnless, Option.isSome_some, if_true, run_codeOfExpr?_some,
      List.mem_append]
    exact .inl (.inl (.inl (.inl (.inr (.inl (inCond _))))))
  | forStep h =>
    simp only [run_code_forLoop, run_codeOfExpr?_some, List.mem_append]
    exact .inl (.inr (h.jump_mem_code linked.left.right _))
  | forBody _ ih =>
    simp only [run_code_forLoop, List.mem_append]
    exact .inl (.inl (.inl (.inr (ih linked.right _ _))))
  | block mem _ ih =>
    have inside : Targeted known (Stmt.calls _) := fun call isCall =>
      linked call (mem_callsOfStmts.mpr ⟨_, mem, isCall⟩)
    exact jump_mem_codeOfStmts mem (ih inside exits) n

end

namespace Program

variable {p : Program} {name : String}

/-- The item at word `i` of the code calls the name. -/
def CallAt (p : Program) (name : String) (i : Nat) : Prop :=
  ∃ before behind : Assembly, p.assembly = before ++ .jump ra (.entry name) :: behind ∧
    before.size = i

/-- Word `i` of the code is a jump to word `place` that leaves the return address in `ra`. The
offset has room in the instruction if the code is not longer than a jump reaches. -/
structure JumpsTo (p : Program) (i place : Nat) : Prop where
  word : p.words[i]? = some (Encode.jal ra (offset i place))
  lands : p.codeLength ≤ 2 ^ 20 → ∃ d,
    Instr.decode? (Encode.jal ra (offset i place)) = some (.jal .ra d) ∧
    BitVec.ofNat 32 (4 * i) + d = BitVec.ofNat 32 (4 * place)

/-- A call goes to the entry of its name. -/
theorem CallAt.jumpsTo {i place : Nat} (h : p.CallAt name i)
    (entry : p.assembly.placeOf? (.entry name) = some place) : p.JumpsTo i place := by
  obtain ⟨before, behind, whole, rfl⟩ := h
  have word : p.words[before.size]? = some (Encode.jal ra (offset before.size place)) := by
    have found := getElem?_link_append before (.jump ra (.entry name) :: behind) 0
    rw [← whole, Nat.add_zero, wordsFrom, ← placeOf?, entry] at found
    exact found
  refine ⟨word, fun short => ⟨_, Instr.decode?_jal .ra _, ?_⟩⟩
  have inside := (List.getElem?_eq_some_iff.mp word).1
  rw [codeLength] at short
  exact pc_add_offset (by omega) (compact_of_codeLength_le (p := p) short _ _ entry)

/-- A call in a function stands somewhere in the code. -/
theorem exists_callAt {fs gs : List Function} {f : Function} (eq : p.functions = fs ++ f :: gs)
    (linked : Targeted (p.functions.map (·.name)) f.calls) {args : List Expr}
    (calls : f.Calls name args) :
    ∃ i, p.CallAt name i := by
  obtain ⟨before, behind, n, whole, -⟩ := assembly_eq_append eq
  obtain ⟨s, mem, has⟩ := calls
  have jumps : .jump ra (.entry name) ∈ f.codeFrom (p.functions.map (·.name)) n := by
    have targetedHere : Targeted (p.functions.map (·.name)) s.calls := fun call isCall =>
      linked call (mem_callsOfStmts.mpr ⟨s, mem, isCall⟩)
    have inside :=
      jump_mem_codeOfStmts mem (has.jump_mem_code targetedHere { ret := .inner n }) (n + 1)
    simp only [Function.codeFrom, List.mem_append, inside, true_or, or_true]
  obtain ⟨front, back, own⟩ := List.append_of_mem jumps
  exact ⟨_, before ++ .mark (.entry f.name) :: front, back ++ behind, by rw [whole, own]; simp, rfl⟩

/-- The first words of a unit with a `main` are a call of it. -/
theorem callAt_zero (known : "main" ∈ p.functions.map (·.name)) : p.CallAt "main" 0 := by
  refine ⟨[], haltCode.map .word ++
    ((codeOfFunctions (p.functions.map (·.name)) p.functions).run 0).1, ?_, rfl⟩
  rw [assembly, entryStub, if_pos (List.contains_iff_mem.mpr known)]
  rfl

/-- A later function begins at a later word. -/
theorem startOf_lt {fs gs : List Function} {f : Function}
    (eq : p.functions = fs ++ f :: gs) {k : Nat}
    (later : fs.length < k) : p.startOf fs.length < p.startOf k := by
  obtain ⟨d, rfl⟩ : ∃ d, k = fs.length + (d + 1) := ⟨k - fs.length - 1, by omega⟩
  have some : ∀ n, 0 < size ((f.code (p.functions.map (·.name))).run n).1 := by
    intro n
    obtain ⟨a, own⟩ := f.codeFrom_eq_concat (p.functions.map (·.name)) n
    simp only [Function.run_code, own, size_cons, size_append, AsmItem.size]
    omega
  simp only [startOf, eq, List.take_left, List.take_length_add_append, List.take_succ_cons,
    codeOfFunctions_append, run_codeOfFunctions_cons, size_append]
  rw [← eq]
  have := some ((codeOfFunctions (p.functions.map (·.name)) fs).run 0).2
  omega

/-- Where a function begins tells which one it is. -/
theorem eq_of_startOf_eq {fs fs' gs gs' : List Function} {f f' : Function}
    (eq : p.functions = fs ++ f :: gs) (eq' : p.functions = fs' ++ f' :: gs')
    (same : p.startOf fs'.length = p.startOf fs.length) :
    fs = fs' ∧ f :: gs = f' :: gs' := by
  refine List.append_inj (eq.symm.trans eq') ?_
  rcases Nat.lt_trichotomy fs.length fs'.length with less | equal | greater
  · exact absurd same (Nat.ne_of_gt (startOf_lt eq less))
  · exact equal
  · exact absurd same (Nat.ne_of_lt (startOf_lt eq' greater))

/-- The look-up of a name finds the first definition of it. -/
theorem functions_eq_of_function? {g : Function} (h : p.function? name = some g) :
    g.name = name ∧ ∃ fs gs, p.functions = fs ++ g :: gs ∧ ∀ h ∈ fs, h.name ≠ name := by
  obtain ⟨found, fs, gs, eq, before⟩ := List.find?_eq_some_iff_append.mp h
  exact ⟨by simpa using found, fs, gs, eq, fun h mem => by simpa using before h mem⟩

/-- A name that a function has is found. -/
theorem exists_function? {g : Function}
    (mem : g ∈ p.functions) : ∃ f, p.function? g.name = some f :=
  Option.isSome_iff_exists.mp (List.find?_isSome.mpr ⟨g, mem, beq_self_eq_true _⟩)

/-- Both ways to look a name up lead to the same code exactly if it is defined once. Every call of a
name in a function stands in the code and names a function. If there is a `main`, the code begins
with a call of it. All calls of a name jump to one place, where its last definition begins, which
takes as many parameters as the first; and where the first definition begins is that place if and
only if no other follows it. -/
theorem calls_reach_definition (ts : List Token) (name : String) :
    let p := ofTokens ts
    let known := p.functions.map (·.name)
    (∀ f ∈ p.functions, ∀ args, f.Calls name args →
      (∃ g, p.function? name = some g) ∧ ∃ i, p.CallAt name i) ∧
    (∀ g, p.function? "main" = some g → p.CallAt "main" 0) ∧
    ∀ g, p.function? name = some g → ∃ fs gs n, p.functions = fs ++ g :: gs ∧
      p.assembly.Placed (p.startOf fs.length) (g.codeFrom known n) ∧
      ∃ last place n', p.lastDefinition? name = some last ∧ last.params = g.params ∧
        p.assembly.Placed place (last.codeFrom known n') ∧
        (∀ i, p.CallAt name i → p.JumpsTo i place) ∧
        (place = p.startOf fs.length ↔ ∀ h ∈ fs ++ gs, h.name ≠ name) := by
  intro p known
  have same : p.SameArity := (sameArity_read ts).link
  obtain ⟨targets, -⟩ := isGreatest_functions_link (sameArity_read ts)
  refine ⟨fun f mem args calls => ?_, fun g found => ?_, fun g found => ?_⟩
  · obtain ⟨g, isFunction, rfl, -⟩ := (targets f mem).2 name args calls
    refine ⟨exists_function? isFunction, ?_⟩
    obtain ⟨fs, gs, eq⟩ := List.append_of_mem mem
    refine exists_callAt eq (fun call isCall => ?_) calls
    obtain ⟨others, -, called⟩ := Function.mem_calls.mp isCall
    obtain ⟨callee, isFunction, eq, -⟩ := (targets f mem).2 call.1 others called
    exact List.mem_map.mpr ⟨callee, isFunction, eq⟩
  · obtain ⟨isMain, fs, gs, eq, -⟩ := functions_eq_of_function? found
    refine callAt_zero (List.mem_map.mpr ⟨g, ?_, isMain⟩)
    rw [eq]
    exact List.mem_append_right _ List.mem_cons_self
  · obtain ⟨rfl, fs, gs, eq, before⟩ := functions_eq_of_function? found
    have isFunction : g ∈ p.functions := eq ▸ List.mem_append_right _ List.mem_cons_self
    obtain ⟨n, placed⟩ := placed_codeFrom eq
    obtain ⟨last, foundLast⟩ := exists_lastDefinition? (List.mem_map_of_mem isFunction)
    obtain ⟨sameName, fs', gs', eq', later⟩ := functions_eq_of_lastDefinition? foundLast
    have isLast : last ∈ p.functions := eq' ▸ List.mem_append_right _ List.mem_cons_self
    obtain ⟨n', placedLast⟩ := placed_codeFrom eq'
    rw [← sameName] at later
    have entry := placeOf?_entry eq' later
    rw [sameName] at entry later
    refine ⟨fs, gs, n, eq, placed, last, p.startOf fs'.length, n', foundLast,
      same last isLast g isFunction sameName, placedLast, fun i call => call.jumpsTo entry, ?_⟩
    constructor
    · intro sameStart
      obtain ⟨rfl, behind⟩ := eq_of_startOf_eq eq eq' sameStart
      obtain ⟨-, rfl⟩ := List.cons.inj behind
      exact List.forall_mem_append.mpr ⟨before, later⟩
    · intro once
      rw [placeOf?_entry eq fun h mem => once h (List.mem_append_right _ mem)] at entry
      exact (Option.some.inj entry).symm

/-- A unit that defines a name twice, and calls it. -/
def definedTwice : List Token :=
  Token.ofSource
    "int f() \x7b return 1; \x7d int f() \x7b return 2; \x7d
    int main() \x7b return f(); \x7d".toUTF8.toList

/-- There the call passes over the function that is found. -/
theorem call_passes_over_definedTwice :
    let p := ofTokens definedTwice
    ∃ g h gs i, p.function? "f" = some g ∧ p.functions = g :: h :: gs ∧ h.name = "f" ∧
      p.CallAt "f" i ∧ p.JumpsTo i (p.startOf 1) ∧ ¬p.JumpsTo i (p.startOf 0) := by
  intro p
  have names : p.functions.map (·.name) = ["f", "f", "main"] := by decide +kernel
  have starts : p.startOf 0 = 4 ∧ p.startOf 1 = 16 := by decide +kernel
  have call : p.CallAt "f" 32 :=
    ⟨p.assembly.take 37, p.assembly.drop 38, by decide +kernel, by decide +kernel⟩
  obtain ⟨g, h, main, functions⟩ : ∃ g h main, p.functions = [g] ++ h :: [main] :=
    List.length_eq_three.mp (by simpa using congrArg List.length names)
  simp only [functions, List.cons_append, List.nil_append, List.map_cons, List.map_nil,
    List.cons.injEq, and_true] at names
  obtain ⟨isF, isF', isMain⟩ := names
  have found : p.function? "f" = some g := by
    rw [function?, functions, List.cons_append, List.find?_cons_of_pos (by simp [isF])]
  have entry := placeOf?_entry functions (by simp [isMain, isF'])
  rw [isF'] at entry
  have jumps : p.JumpsTo 32 (p.startOf 1) := call.jumpsTo entry
  refine ⟨g, h, [main], 32, found, functions, isF', call, jumps, fun other => ?_⟩
  have same := Option.some.inj (jumps.word.symm.trans other.word)
  rw [starts.1, starts.2] at same
  exact absurd same (by decide)

end Program

end BareC
