import BareC.Proofs.Machine.Faults
import BareC.Proofs.Machine.Operations

/-!
# Runs in slices

A run makes steps that go on until one of them halts or fails, or until none is left, and `Course`
says which of these it was. A run that fails leaves the machine that its last successful step led to
(`unchanged_of_fault`). The steps of two runs, one taking up where the other was cut off, are the
steps of one run. So a run that has come to an end is not changed by a higher limit, and one that
was cut off can be taken up again and ends as it would have ended at once (`run_in_slices`). Only
the number of steps and the notices in which it is printed tell the two apart.

A limit is a number of steps, and a run that meets it fails with the step limit and can be taken up
again from its last machine. Programs that never halt have runs at every limit and no end; nothing
more is said of them. How long a step takes is not counted.
-/

namespace BareC.Machine

variable {η : Type} {h : TrapHandler η} {m m' m'' : Machine η}

/-! ## What is printed -/

/-- A quiet machine takes no notices. -/
theorem noteIfVerbose_of_quiet (quiet : m.verbose = false) (n : Notice) :
    m.noteIfVerbose n = m := by
  rw [noteIfVerbose, quiet]
  rfl

/-- A notice does not make a machine quiet or verbose. -/
theorem verbose_noteIfVerbose (m : Machine η) (n : Notice) :
    (m.noteIfVerbose n).verbose = m.verbose := by
  unfold noteIfVerbose
  split <;> rfl

/-- Which of two notices a machine prints makes no other difference. -/
theorem sameButNotices_of_noted (m : Machine η) (n n' : Notice) :
    (m.noteIfVerbose n).SameButNotices (m.noteIfVerbose n') := by
  unfold noteIfVerbose SameButNotices
  split <;> rfl

/-- No step makes a machine print more or less. -/
theorem verbose_step (h : TrapHandler η) (m : Machine η) : (m.step h).2.verbose = m.verbose := by
  unfold step
  split
  next => rfl
  next i _ =>
    have noted := m.verbose_noteIfVerbose (.executing m.pc i)
    dsimp only
    split
    next => exact noted
    next e _ => cases e <;> exact noted

/-! ## Steps that go on -/

/-- Resumed steps follow one another. -/
theorem Resumes.trans {j k : Nat} (first : Resumes h j m m') (second : Resumes h k m' m'') :
    Resumes h (j + k) m m'' := by
  induction first with
  | refl m => rwa [Nat.zero_add]
  | step goesOn _ ih =>
    rw [Nat.succ_add]
    exact .step goesOn (ih second)

/-- Resumed steps do not change whether a machine is verbose. -/
theorem Resumes.verbose_eq {k : Nat} (resumes : Resumes h k m m') : m'.verbose = m.verbose := by
  induction resumes with
  | refl => rfl
  | @step _ m _ _ goesOn _ ih =>
    have kept := verbose_step h m
    rw [goesOn] at kept
    exact ih.trans kept

/-- Behind steps that go on, a run is what is left of it. -/
theorem runFrom_of_resumes {k : Nat} (resumes : Resumes h k m m') (taken left : Nat) :
    m.runFrom h taken (k + left) = m'.runFrom h (taken + k) left := by
  induction resumes generalizing taken with
  | refl m => rw [Nat.zero_add, Nat.add_zero]
  | @step k _ _ _ goesOn _ ih =>
    have one : k + 1 + left = k + left + 1 := by omega
    have later : taken + (k + 1) = taken + 1 + k := by omega
    rw [one, later, runFrom, goesOn]
    exact ih (taken + 1)

/-! ## Courses -/

/-- How a run with a limit went: so many steps that went on, and what came then. -/
inductive Course (h : TrapHandler η) (m : Machine η) (limit : Nat) :
    Except MachineFault Exit × Machine η → Prop
  | cutOff {m' : Machine η} : Resumes h limit m m' →
      Course h m limit (.error (.stepLimit m'.pc limit), m')
  | failed {k : Nat} {f : MachineFault} {m' m'' : Machine η} : k < limit → Resumes h k m m' →
    m'.step h = (.error f, m'') → Course h m limit (.error f, m'')
  | halted {k : Nat} {code : Word} {m' m'' : Machine η} : k < limit → Resumes h k m m' →
    m'.step h = (.ok (.halt code), m'') →
    Course h m limit (.ok ⟨code, k + 1, m'.pc⟩, m''.noteIfVerbose (.halted code (k + 1)))

variable {limit : Nat} {r : Except MachineFault Exit × Machine η}

/-- A course tells what the run gives. -/
theorem Course.run_eq (course : Course h m limit r) : m.run h limit = r := by
  cases course with
  | @cutOff m' resumes =>
    have cut := runFrom_of_resumes resumes 0 0
    rw [Nat.add_zero, Nat.zero_add] at cut
    rw [run, cut, runFrom]
  | @failed k f m' m'' lt resumes fails =>
    obtain ⟨left, rfl⟩ : ∃ left, limit = k + (left + 1) := ⟨limit - k - 1, by omega⟩
    rw [run, runFrom_of_resumes resumes, runFrom, fails]
  | @halted k code m' m'' lt resumes halts =>
    obtain ⟨left, rfl⟩ : ∃ left, limit = k + (left + 1) := ⟨limit - k - 1, by omega⟩
    rw [run, runFrom_of_resumes resumes, runFrom, halts]
    dsimp only
    rw [Nat.zero_add]

/-- From any machine, some steps go on: all of them, or those before one that does not. -/
theorem exists_resumes (h : TrapHandler η) (m : Machine η) (limit : Nat) :
    (∃ m', Resumes h limit m m') ∨
      ∃ k < limit, ∃ m', Resumes h k m m' ∧ (m'.step h).1 ≠ .ok .resume := by
  induction limit generalizing m with
  | zero => exact .inl ⟨m, .refl m⟩
  | succ limit ih =>
    by_cases on : (m.step h).1 = .ok .resume
    · have goesOn : m.step h = (.ok .resume, (m.step h).2) := Prod.ext on rfl
      rcases ih (m.step h).2 with ⟨m', all⟩ | ⟨k, lt, m', some, stops⟩
      · exact .inl ⟨m', .step goesOn all⟩
      · exact .inr ⟨k + 1, Nat.succ_lt_succ lt, m', .step goesOn some, stops⟩
    · exact .inr ⟨0, Nat.succ_pos limit, m, .refl m, on⟩

/-- Every run has a course: it ends by a fault, by a halt or at its limit. -/
theorem exists_course (h : TrapHandler η) (m : Machine η) (limit : Nat) :
    ∃ r, Course h m limit r := by
  rcases exists_resumes h m limit with ⟨m', all⟩ | ⟨k, lt, m', some, stops⟩
  · exact ⟨_, .cutOff all⟩
  · cases last : (m'.step h).1 with
    | error f => exact ⟨_, .failed lt some (Prod.ext last rfl)⟩
    | ok trap =>
      cases trap with
      | resume => exact absurd last stops
      | halt code => exact ⟨_, .halted lt some (Prod.ext last rfl)⟩

/-- Every run goes one of these ways. -/
theorem course_run (h : TrapHandler η) (m : Machine η) (limit : Nat) :
    Course h m limit (m.run h limit) := by
  obtain ⟨r, course⟩ := exists_course h m limit
  rwa [course.run_eq]

/-- A run that has come to an end takes the same course under a higher limit. -/
theorem Course.of_le {limit' : Nat} (course : Course h m limit r) (le : limit ≤ limit')
    (ends : ∀ pc steps, r.1 ≠ .error (.stepLimit pc steps)) : Course h m limit' r := by
  cases course with
  | cutOff => exact absurd rfl (ends _ _)
  | failed lt resumes fails => exact .failed (Nat.lt_of_lt_of_le lt le) resumes fails
  | halted lt resumes halts => exact .halted (Nat.lt_of_lt_of_le lt le) resumes halts

/-! ## Ends -/

/-- What a step fails with is never the limit of a run. -/
theorem step_ne_stepLimit {pc : Word} {steps : Nat} :
    (m.step h).1 ≠ .error (.stepLimit pc steps) := by
  intro fails
  exact (step_eq_error_iff.mp fails).ne_stepLimit pc steps rfl

/-- A run that fails has come to a machine whose next step fails, and leaves it as it was. -/
theorem exists_cause_of_run {f : MachineFault} (fails : (m.run h limit).1 = .error f)
    (other : ∀ pc steps, f ≠ .stepLimit pc steps) :
    ∃ k < limit, ∃ m', Resumes h k m m' ∧ m'.Cause f ∧ (m.run h limit).2.SameButNotices m' := by
  generalize run_eq : m.run h limit = r at fails
  have course := course_run h m limit
  rw [run_eq] at course
  cases course with
  | cutOff =>
    cases fails
    exact absurd rfl (other _ _)
  | @failed k f' m' m'' lt resumes last =>
    cases fails
    have left : m'' = (m'.step h).2 := (congrArg Prod.snd last).symm
    rw [left]
    have failing : (m'.step h).1 = .error f := congrArg Prod.fst last
    exact ⟨k, lt, m', resumes, step_eq_error_iff.mp failing, sameButNotices_of_fails failing⟩
  | halted => cases fails

/-- A step fails for the causes that the machine in front of it has, and for no others, and changes
nothing but what is printed. A run that fails, other than at its limit, leaves the machine that its
successful steps led to. -/
theorem unchanged_of_fault (h : TrapHandler η) (m : Machine η) :
    (∀ f, (m.step h).1 = .error f ↔ m.Cause f) ∧
      (∀ f, (m.step h).1 = .error f → (m.step h).2.SameButNotices m) ∧
      ∀ n f, (m.run h n).1 = .error f → (∀ pc steps, f ≠ .stepLimit pc steps) →
        ∃ k < n, ∃ m', Resumes h k m m' ∧ m'.Cause f ∧ (m.run h n).2.SameButNotices m' := by
  refine ⟨fun _ => step_eq_error_iff, fun _ => sameButNotices_of_fails, ?_⟩
  intro n f fails other
  exact exists_cause_of_run fails other

/-- A step that halts is an `ecall`. -/
theorem fetch_of_halts {code : Word} (halts : (m.step h).1 = .ok (.halt code)) :
    m.fetch = .ok .ecall ∧ (m.step h).2.pc = m.pc + 4 := by
  cases fetched : m.fetch with
  | error f =>
    rw [step_of_fetch_error fetched] at halts
    cases halts
  | ok i =>
    cases effect : i.effect m.pc m.regs m.memory with
    | error f =>
      rw [step_of_effect_error fetched effect] at halts
      cases halts
    | ok e =>
      obtain ⟨trap, status⟩ := step_of_fetch (h := h) fetched effect
      rw [trap] at halts
      cases e with
      | trap =>
        obtain rfl := effect_eq_trap_iff.mp effect
        exact ⟨rfl, congrArg Prod.fst status⟩
      | _ => cases halts

/-- A run that halts made its last step at an `ecall`, and stands behind it. -/
theorem exists_ecall_of_run {e : Exit} (halts : (m.run h limit).1 = .ok e) :
    1 ≤ e.steps ∧ e.steps ≤ limit ∧ ∃ m', Resumes h (e.steps - 1) m m' ∧ m'.pc = e.pc ∧
      m'.fetch = .ok .ecall ∧ (m'.step h).1 = .ok (.halt e.code) ∧
      (m.run h limit).2.pc.toNat = (e.pc.toNat + 4) % 2 ^ 32 := by
  generalize run_eq : m.run h limit = r at halts
  have course := course_run h m limit
  rw [run_eq] at course
  cases course with
  | cutOff | failed => cases halts
  | @halted k code m' m'' lt resumes last =>
    cases halts
    have halting : (m'.step h).1 = .ok (.halt code) := congrArg Prod.fst last
    obtain ⟨fetch, behind⟩ := fetch_of_halts halting
    rw [last] at behind
    refine ⟨Nat.succ_pos k, lt, m', resumes, rfl, fetch, halting, ?_⟩
    have kept := congrArg Prod.fst (m''.noteIfVerbose_status (.halted code (k + 1)))
    have pc : (m''.noteIfVerbose (.halted code (k + 1))).pc = m'.pc + 4 := kept.trans behind
    rw [pc]
    exact BitVec.toNat_add ..

/-! ## Slices -/

/-- The end of a run that is taken up so many steps later. -/
def laterBy (n : Nat) : Except MachineFault Exit → Except MachineFault Exit
  | .ok e => .ok { e with steps := n + e.steps }
  | .error (.stepLimit pc steps) => .error (.stepLimit pc (n + steps))
  | .error f => .error f

/-- The steps that were taken before are counted, and that is all. -/
theorem runFrom_later (n taken left : Nat) (m : Machine η) :
    (m.runFrom h (n + taken) left).1 = laterBy n (m.runFrom h taken left).1 ∧
      (m.runFrom h (n + taken) left).2.SameButNotices (m.runFrom h taken left).2 ∧
      (m.verbose = false → (m.runFrom h (n + taken) left).2 = (m.runFrom h taken left).2) := by
  induction left generalizing m taken with
  | zero => exact ⟨rfl, .refl m, fun _ => rfl⟩
  | succ left ih =>
    have kept := verbose_step h m
    rw [runFrom, runFrom]
    split
    next f m' fails =>
      refine ⟨?_, .refl m', fun _ => rfl⟩
      cases f with
      | stepLimit => exact absurd (congrArg Prod.fst fails) step_ne_stepLimit
      | _ => rfl
    next m' goesOn =>
      rw [goesOn] at kept
      rw [← kept]
      exact ih (taken + 1) m'
    next code m' halts =>
      rw [halts] at kept
      refine ⟨rfl, sameButNotices_of_noted m' _ _, ?_⟩
      intro quiet
      rw [noteIfVerbose_of_quiet (kept.trans quiet), noteIfVerbose_of_quiet (kept.trans quiet)]

/-- A run that was cut off has made all its steps. -/
theorem resumes_of_stepLimit {pc : Word} {steps : Nat}
    (cut : (m.run h limit).1 = .error (.stepLimit pc steps)) :
    steps = limit ∧ pc = (m.run h limit).2.pc ∧ Resumes h limit m (m.run h limit).2 := by
  generalize run_eq : m.run h limit = r at cut
  have course := course_run h m limit
  rw [run_eq] at course
  cases course with
  | cutOff resumes =>
    cases cut
    exact ⟨rfl, rfl, resumes⟩
  | failed lt resumes fails =>
    cases cut
    exact absurd (congrArg Prod.fst fails) step_ne_stepLimit
  | halted => cases cut

/-- A run that has come to an end comes to the same end under any higher limit. One that was cut off
made as many steps as it was allowed, and when it is taken up again it ends as it would have ended
at once, with its steps counted in. One that halts did so with its last step, at an `ecall`, and the
machine stands behind it. -/
theorem run_in_slices (h : TrapHandler η) (m : Machine η) (n k : Nat) :
    ((∀ pc steps, (m.run h n).1 ≠ .error (.stepLimit pc steps)) → m.run h (n + k) = m.run h n) ∧
      (∀ pc steps, (m.run h n).1 = .error (.stepLimit pc steps) →
        steps = n ∧ pc = (m.run h n).2.pc ∧ Resumes h n m (m.run h n).2 ∧
        (m.run h (n + k)).1 = laterBy n ((m.run h n).2.run h k).1 ∧
        (m.run h (n + k)).2.SameButNotices ((m.run h n).2.run h k).2 ∧
        (m.verbose = false → (m.run h (n + k)).2 = ((m.run h n).2.run h k).2)) ∧
      ∀ e, (m.run h n).1 = .ok e →
        1 ≤ e.steps ∧ e.steps ≤ n ∧ ∃ m', Resumes h (e.steps - 1) m m' ∧ m'.pc = e.pc ∧
          m'.fetch = .ok .ecall ∧ (m'.step h).1 = .ok (.halt e.code) ∧
          (m.run h n).2.pc.toNat = (e.pc.toNat + 4) % 2 ^ 32 := by
  refine ⟨?_, ?_, fun _ => exists_ecall_of_run⟩
  · intro ends
    exact ((course_run h m n).of_le (Nat.le_add_right n k) ends).run_eq
  · intro pc steps cut
    obtain ⟨all, at_, resumes⟩ := resumes_of_stepLimit cut
    obtain ⟨result, same, quietly⟩ := runFrom_later (h := h) n 0 k (m.run h n).2
    have whole : m.run h (n + k) = (m.run h n).2.runFrom h (n + 0) k := by
      have behind := runFrom_of_resumes resumes 0 k
      rwa [Nat.zero_add] at behind
    refine ⟨all, at_, resumes, ?_, ?_, ?_⟩
    · rw [whole, result]
      rfl
    · rw [whole]
      exact same
    · intro quiet
      rw [whole]
      exact quietly (resumes.verbose_eq.trans quiet)

end BareC.Machine
