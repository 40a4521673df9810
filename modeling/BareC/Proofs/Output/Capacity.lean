import BareC.Proofs.Output.Verdicts
import Mathlib.Algebra.Group.Nat.Defs

/-!
# Capacities at which a source compiles

For the compiler of this library the verdict on a source is a matter of two numbers, the capacity
and the length of the code, which is known exactly before anything is written
(`Program.length_code`). So the capacities that there is room in without being too large are an
interval, and what is written is the same at all of them, with zeros behind it
(`Toolchain.compile_at_every_capacity`).

Errors in a source do not keep it from being compiled: code is made of the functions that are left
of it. How the length of the code depends on the source is not described, only that it is known in
advance and that it is the length of what is written.
-/

namespace BareC

variable {σ : Type}

/-- The code is as long as it is said to be. -/
theorem Program.length_code (p : Program) : p.code.length = p.codeLength := by
  rw [code, codeLength, List.length_flatMap]
  simp [Word.toBytes]
  omega

/-! ## Two numbers -/

/-- What is wrong with a capacity for code of a length. -/
def CompileError.ofLengths? (required capacity : Nat) : Option CompileError :=
  if capacity = 0 then some .zeroCapacity
  else if 2 ^ 20 < capacity then some (.capacityExceedsCeiling capacity (2 ^ 20))
  else if capacity < required then some (.capacityTooSmall required capacity)
  else none

/-- The lengths that are accepted. -/
theorem CompileError.ofLengths?_eq_none_iff {required capacity : Nat} :
    ofLengths? required capacity = none ↔ max 1 required ≤ capacity ∧ capacity ≤ 2 ^ 20 := by
  grind [ofLengths?]

/-- The lengths at which the capacity is too small, with what would do. -/
theorem CompileError.ofLengths?_eq_tooSmall_iff {required capacity required' capacity' : Nat} :
    ofLengths? required capacity = some (.capacityTooSmall required' capacity') ↔
      required' = required ∧ capacity' = capacity ∧
        0 < capacity ∧ capacity < required ∧ capacity ≤ 2 ^ 20 := by
  grind [ofLengths?]

namespace Toolchain

/-- If the length of the code is always known, the verdict is a matter of it and the capacity. -/
theorem judged_result {t : Toolchain σ} {size : t.frontend.Tree → Nat}
    (sized : ∀ tree s, (t.frontend.codeLength tree s).1 = some (size tree))
    (source : Bytes) (capacity : Nat) (s : σ) :
    (t.judged source capacity s).1 =
      match CompileError.ofLengths? (size (t.treeOf source s).1) capacity with
      | some e => .error e
      | none => .ok (t.treeOf source s).1 := by
  have refused :
      ∀ tree s, (t.refusal? tree capacity s).1 = CompileError.ofLengths? (size tree) capacity := by
    intro tree s
    have ceiling : Settings.maxCapacity = 2 ^ 20 := rfl
    rw [refusal?, CompileError.ofLengths?, ceiling]
    split
    next => rfl
    next =>
      split
      next => rfl
      next => rw [bind_apply, sized]; rfl
  rw [judged]
  split
  next zero => rw [CompileError.ofLengths?, if_pos zero]; rfl
  next =>
    rw [bind_apply, bind_apply, refused]
    cases CompileError.ofLengths? (size (t.treeOf source s).1) capacity <;> rfl

/-- The program that the compiler of this library takes a source for. -/
def programOf (host : Host σ) (settings : Settings) (source : Bytes) : StateM σ Program :=
  (standard host settings).treeOf source

variable {host : Host σ} {settings : Settings}

/-- Where calls are answered in the same way, the same program is parsed. -/
theorem programOf_alike {s s' : σ} (alike : host.Alike False s s') (source : Bytes) :
    (programOf host settings source s).1 = (programOf host settings source s').1 := by
  have h := host.respects_alike False
  have agree := treeOf_agree (Frontend.standard_respects h) rfl (log_agree h _ settings) source
  exact (agree s s' alike).1

/-- What compiling comes to at a capacity. -/
theorem compile_standard (source : Bytes) (capacity : Nat) (s : σ) :
    ((standard host settings).compile source capacity s).1 =
      let program := (programOf host settings source s).1
      match CompileError.ofLengths? program.codeLength capacity with
      | some e => .error e
      | none => .ok (.ofCode program.code capacity) := by
  have sized :
      ∀ program s, ((Frontend.standard host).codeLength program s).1 = some program.codeLength :=
    fun _ _ => rfl
  rw [compile_result (t := standard host settings) (Frontend.standard_writes host),
    judged_result sized]
  change Except.map _
    (match CompileError.ofLengths? (programOf host settings source s).1.codeLength capacity with
    | some e => _ | none => .ok (programOf host settings source s).1) = _
  generalize (programOf host settings source s).1 = program
  dsimp only
  cases verdict : CompileError.ofLengths? program.codeLength capacity with
  | some e => rfl
  | none =>
    have fits : program.code.length ≤ capacity := by
      have := CompileError.ofLengths?_eq_none_iff.mp verdict
      rw [program.length_code]
      omega
    dsimp only [Except.map]
    rw [List.take_of_length_le fits]

/-- A capacity that is reported to be too small is so for the code of the program. -/
theorem lt_of_compile_tooSmall {source : Bytes} {capacity required tried : Nat} {s : σ}
    (refused : ((standard host settings).compile source capacity s).1 =
      .error (.capacityTooSmall required tried)) :
    required = (programOf host settings source s).1.codeLength ∧ capacity < required ∧
    0 < capacity := by
  have verdict := (compile_standard source capacity s).symm.trans refused
  dsimp only at verdict
  split at verdict
  next e found =>
    cases verdict
    obtain ⟨rfl, -, positive, short, -⟩ := CompileError.ofLengths?_eq_tooSmall_iff.mp found
    exact ⟨rfl, short, positive⟩
  next => cases verdict

/-- A source has code of some length. It compiles at every capacity from this length on, though not
at zero and not beyond the largest region, into this code with zeros behind it; at any other
capacity what comes back tells what is wrong with it. So it compiles if tried again at the length
that was reported. -/
theorem compile_at_every_capacity (host : Host σ) (settings : Settings) (source : Bytes) (s : σ) :
    let program := (programOf host settings source s).1
    let required := program.codeLength
    let result (capacity : Nat) (s : σ) := ((standard host settings).compile source capacity s).1
    program.code.length = required ∧
    ∀ s', host.Alike False s s' →
      (∀ capacity,
        if capacity = 0 then result capacity s' = .error .zeroCapacity
        else if 2 ^ 20 < capacity then result capacity s' =
          .error (.capacityExceedsCeiling capacity (2 ^ 20))
        else if capacity < required then result capacity s' =
          .error (.capacityTooSmall required capacity)
        else ∃ buffer, result capacity s' = .ok buffer ∧ buffer.capacity = capacity ∧
          buffer.length = required ∧ buffer.code = program.code ∧
          ∀ i, required ≤ i → i < capacity → buffer.region[i]? = some 0) ∧
      (∀ capacity, (∃ buffer, result capacity s' = .ok buffer) ↔
        max 1 required ≤ capacity ∧ capacity ≤ 2 ^ 20) ∧
      ∀ capacity reported tried, result capacity s = .error (.capacityTooSmall reported tried) →
        reported ≤ 2 ^ 20 →
        ∃ buffer, result reported s' = .ok buffer ∧ buffer.length = reported ∧
        buffer.code = program.code := by
  intro program required result
  have length : program.code.length = required := program.length_code
  refine ⟨length, ?_⟩
  intro s' alike
  have same : (programOf host settings source s').1 = program := (programOf_alike alike source).symm
  have results : ∀ capacity, result capacity s' =
      match CompileError.ofLengths? required capacity with
      | some e => .error e
      | none => .ok (.ofCode program.code capacity) := fun capacity =>
    (compile_standard source capacity s').trans (by rw [same])
  have reports : ∀ capacity reported tried,
    result capacity s = .error (.capacityTooSmall reported tried) →
      reported = required ∧ capacity < reported ∧ 0 < capacity :=
    fun _ _ _ => lt_of_compile_tooSmall
  -- From here on it does not matter which program it is.
  clear_value required program result
  have compiles : ∀ capacity, max 1 required ≤ capacity ∧ capacity ≤ 2 ^ 20 →
      result capacity s' = .ok (.ofCode program.code capacity) := by
    intro capacity within
    rw [results, CompileError.ofLengths?_eq_none_iff.mpr within]
  refine ⟨?_, ?_, ?_⟩
  · intro capacity
    split
    next zero => rw [results, CompileError.ofLengths?, if_pos zero]
    next nonzero =>
      split
      next large => rw [results, CompileError.ofLengths?, if_neg nonzero, if_pos large]
      next small =>
        split
        next short =>
          rw [results, CompileError.ofLengths?, if_neg nonzero, if_neg small, if_pos short]
        next roomy =>
          have fits : program.code.length ≤ capacity := by omega
          refine ⟨_, compiles capacity (by omega), CodeBuffer.capacity_ofCode fits, length,
            CodeBuffer.code_ofCode _ _, ?_⟩
          intro i behind inside
          exact CodeBuffer.region_ofCode_behind (by omega) inside
  · intro capacity
    constructor
    · rintro ⟨buffer, compiled⟩
      rw [results] at compiled
      split at compiled
      next => cases compiled
      next fits => exact CompileError.ofLengths?_eq_none_iff.mp fits
    · intro within
      exact ⟨_, compiles capacity within⟩
  · intro capacity reported tried refused ceiling
    obtain ⟨rfl, short, positive⟩ := reports capacity reported tried refused
    exact ⟨_, compiles reported (by omega), length, CodeBuffer.code_ofCode _ _⟩

/-- A unit with 92 bytes of code. -/
def answering : Bytes :=
  "#include <stdio.h>
   int main(int n) \x7b if (n) return n; return 42; \x7d".toUTF8.toList

/-- It does not compile into a byte less, which tells how much it takes. -/
theorem compile_answering_again :
    ((standard Host.bare { verbose := true }).compile answering 91 ()).1 =
      .error (.capacityTooSmall 92 91) ∧
      ∃ buffer, ((standard Host.bare { verbose := true }).compile answering 92 ()).1 = .ok buffer ∧
        buffer.length = 92 := by
  have required : (programOf Host.bare { verbose := true } answering ()).1.codeLength = 92 := by
    decide +kernel
  obtain ⟨-, law⟩ := compile_at_every_capacity Host.bare { verbose := true } answering ()
  obtain ⟨results, -, retried⟩ := law () (.refl _ _ _)
  have refused := results 91
  rw [required] at refused
  obtain ⟨buffer, compiled, length, -⟩ := retried 91 92 91 refused (by decide)
  exact ⟨refused, buffer, compiled, length⟩

end Toolchain

end BareC
