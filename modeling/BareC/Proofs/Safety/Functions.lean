import BareC.Proofs.Safety.Statements
import BareC.Proofs.Semantics.Preservation

/-!
# Safety of units

A function that is called returns to where it was called from, with the pointers as they were, or it
goes on for as long as one looks. Since every call takes a step, the functions that a function calls
may be taken to be safe for fewer steps. With the stub in front of the functions this makes the code
of a whole unit safe for ever, whatever its slots hold when they are read.

The stack is watched and not assumed: as long as the stack pointer has stayed in its bounds, what
the next step does is proper. A program that recurses too deeply leaves the bounds, and from then on
nothing is promised, as the machine itself does not check.

That a unit comes to an end, or returns anything in particular, is not shown here.
-/

namespace BareC

open Assembly

namespace Guarded

variable {η : Type} {G : Guarded η} {F : Frame} {m : Machine η} {i r stack : Nat}
    {calls : List Call}

/-- The open call that a function returns from. -/
def openCall (r : Nat) (m : Machine η) : Call :=
  ⟨BitVec.ofNat 32 (4 * r), m.regs[Reg.sp], m.regs[Reg.s0]⟩

/-- What comes behind a call is safe. -/
def Resumes (G : Guarded η) (m : Machine η) (r stack : Nat) (calls : List Call) : Prop :=
  ∀ m', m'.At r → m'.Carries G.whole.link → m'.regs[Reg.sp] = BitVec.ofNat 32 stack →
    m'.regs[Reg.s0] = m.regs[Reg.s0] → m.memory.SameOn (stack ≤ ·) m'.memory →
      G.SafeFor G.limit m' calls

/-- Closing a frame: what was saved above it leads back to the call. -/
theorem safeFor_epilogue {m₁ m₄ : Machine η} (resumes : G.Resumes m r (F.base + 8) calls)
    (sp : m.regs[Reg.sp] = BitVec.ofNat 32 (F.base + 8))
    (same : m.memory.SameOn (F.base + 8 ≤ ·) m₁.memory)
    (savedRa : m₁.memory.wordAt (F.base + 4) = BitVec.ofNat 32 (4 * r))
    (savedS0 : m₁.memory.wordAt F.base = m.regs[Reg.s0])
    (kept : m₁.memory.SameOn (F.base ≤ ·) m₄.memory) (high : F.base + 8 ≤ G.top)
    (hf : G.InFrame F 0 m₄) (at_ : m₄.At i) (placed : G.whole.Placed i epilogue) :
    G.SafeFor G.limit m₄ (openCall r m :: calls) := by
  rw [epilogue_eq, placed_append] at placed
  obtain ⟨placedClose, placedReturn, -⟩ := placed
  obtain ⟨m₅, way, at₅, carries₅, sp₅, ra₅, s0₅, -, memory₅⟩ :=
    Machine.path_closeFrame (h := G.handler) hf at_ placedClose high
  have ra : m₅.regs[Reg.ra] = BitVec.ofNat 32 (4 * r) := by
    rw [ra₅, kept.wordAt fun a low _ => Nat.le_trans (Nat.le_add_right ..) low, savedRa]
  have s0 : m₅.regs[Reg.s0] = m.regs[Reg.s0] := by
    rw [s0₅, kept.wordAt fun a low _ => low, savedS0]
  have jump := carries₅.does_jalr (h := G.handler) at₅ placedReturn
  let m₆ := m₅.linked Reg.zero (m₅.regs[Reg.ra] &&& ~~~1)
  have at₆ : m₆.At r := by
    show m₅.regs[Reg.ra] &&& ~~~1 = _
    rw [ra, Machine.four_mul_even]
  have sp₆ : m₆.regs[Reg.sp] = BitVec.ofNat 32 (F.base + 8) :=
    (Registers.getElem_write_of_ne (by decide)).trans sp₅
  have s0₆ : m₆.regs[Reg.s0] = m.regs[Reg.s0] :=
    (Registers.getElem_write_of_ne (by decide)).trans s0
  refine .of_path way (.of_does jump (fun _ => ?_) fun n hn => ?_)
  · refine (carries₅.inside at₅ placedReturn).proper jump (by simp) fun _ _ _ _ => ?_
    exact ⟨_, calls, rfl, at₆, sp₆.trans sp.symm, s0₆⟩
  · have above : m.memory.SameOn (F.base + 8 ≤ ·) m₅.memory := by
      rw [memory₅]
      exact same.trans (kept.mono fun a ha => Nat.le_trans (Nat.le_add_right ..) ha)
    exact (resumes m₆ at₆ carries₅.linked sp₆ s0₆ above).mono (Nat.le_of_lt hn)

/-- The part of a function between the two ends of its frame. -/
def bodyCode (known : List String) (n : Nat) (f : Function) : Assembly :=
  storeParams f.params ++ (((codeOfStmts known { ret := .inner n } f.body).run (n + 1)).1 ++
    (loadConst a0 0 ++ [.mark (.inner n)]))

/-- The code of a function: saving the frame, opening it, the body, and the end. -/
theorem codeFrom_eq (known : List String) (n : Nat) (f : Function) :
    f.codeFrom known n = saveFrame ++ (openFrame f.locals ++ (bodyCode known n f ++ epilogue)) := by
  rw [Function.codeFrom, prologue_eq, bodyCode]
  simp only [List.append_assoc]

/-- A sound body is safe up to the end of its function. -/
theorem safeFor_body {f : Function} (sound : f.Sound fun slots => Expr.Within slots) {n : Nat}
    (locals : F.locals = f.locals) (placed : G.whole.Placed i (bodyCode G.known n f))
    (hf : G.InFrame F 0 m) (at_ : m.At i)
    (safe : ∀ m', G.Comes F m (i + (bodyCode G.known n f).size) 0 m' →
      G.SafeFor G.limit m' calls) : G.SafeFor G.limit m calls := by
  unfold bodyCode at placed safe
  have none : size [.mark (.inner n)] = 0 := rfl
  simp only [placed_append, placed_mark, size_append, none, Nat.add_zero, ← Nat.add_assoc]
    at placed safe
  obtain ⟨placedStore, placedBody, placedLoad, ret, -⟩ := placed
  obtain ⟨m₁, arrives₁, -⟩ := Machine.path_storeParams (h := G.handler) f.params sound.params_le
    (locals ▸ sound.params_le_locals) hf at_ placedStore
  have settled : G.Settled { ret := .inner n : Exits }.labels := by
    intro l mem
    rw [List.mem_singleton.mp mem]
    exact ⟨_, ret⟩
  refine Passes.of_arrives arrives₁ (Nat.le_refl _) fun m₁ comes₁ => ?_
  have leads := leadsStmts f.body (locals ▸ sound.exprs) (locals ▸ sound.declared) settled
    placedBody comes₁.frame comes₁.at_
  refine leads (Nat.le_refl _) (fun m₂ comes₂ => ?_) ?_
  · refine passes_loadConst 0 comes₂.frame comes₂.at_ placedLoad (Nat.le_refl _) fun m₃ comes₃ => ?_
    exact safe m₃ (comes₁.trans (comes₂.trans comes₃))
  · intro l mem p place k hk m₂ comes₂
    rw [List.mem_singleton.mp mem, ret] at place
    cases place
    exact (safe m₂ (comes₁.trans comes₂)).mono (Nat.le_of_lt hk)

/-- Opening a frame, if there is room for its slots. -/
theorem safeFor_openFrame {k : Nat} (carries : m.Carries G.whole.link) (at_ : m.At i)
    (placed : G.whole.Placed i (openFrame F.locals)) (sp : m.regs[Reg.sp] = BitVec.ofNat 32 F.base)
    (s0 : m.regs[Reg.s0] = BitVec.ofNat 32 F.base) (base_le : F.base ≤ G.top)
    (top_le : G.top ≤ m.memory.size) (size_lt : m.memory.size < 2 ^ 31)
    (locals_le : F.locals ≤ Grammar.maxSlots) (room : 4 * G.whole.link.length ≤ F.base)
    (safe : ∀ m', m'.At (i + (openFrame F.locals).size) → G.InFrame F 0 m' →
      m'.memory = m.memory → G.SafeFor k m' calls) : G.SafeFor k m calls := by
  by_cases fits : 4 * G.whole.link.length + frameSize F.locals ≤ F.base
  · obtain ⟨m', way, at', frame, -, memory⟩ := Machine.path_openFrame (h := G.handler) carries at_
      placed sp s0 fits base_le top_le size_lt locals_le
    exact .of_path way (safe m' at' frame memory)
  · have small := frameSize_le locals_le
    rw [openFrame_eq locals_le, if_pos (by omega)] at placed
    exact .of_lower carries at_ placed.1 (signed_neg_frameSize locals_le) (by omega) sp base_le
      (Nat.lt_of_le_of_lt top_le size_lt) (by omega)

/-- A function is safe to call if what comes behind the call is safe. -/
theorem safeFor_call {f : Function} (sound : f.Sound fun slots => Expr.Within slots) {n : Nat}
    (placed : G.whole.Placed i (f.codeFrom G.known n)) (at_ : m.At i)
    (carries : m.Carries G.whole.link) (sp : m.regs[Reg.sp] = BitVec.ofNat 32 stack)
    (ra : m.regs[Reg.ra] = BitVec.ofNat 32 (4 * r)) (stack_le : stack ≤ G.top)
    (top_le : G.top ≤ m.memory.size) (size_lt : m.memory.size < 2 ^ 31)
    (resumes : G.Resumes m r stack calls) : G.SafeFor G.limit m (openCall r m :: calls) := by
  rw [codeFrom_eq, placed_append, placed_append, placed_append] at placed
  obtain ⟨placedSave, placedOpen, placedBody, placedEpilogue⟩ := placed
  by_cases enough : 4 * G.whole.link.length + 8 ≤ stack
  · obtain ⟨base, rfl⟩ : ∃ base, stack = base + 8 := ⟨stack - 8, by omega⟩
    have room : 4 * G.whole.link.length ≤ base := by omega
    obtain ⟨m₁, way₁, at₁, carries₁, sp₁, s0₁, -, savedRa, savedS0, same₁⟩ :=
      Machine.path_saveFrame (h := G.handler) carries at_ placedSave sp room stack_le top_le size_lt
    refine .of_path way₁ ?_
    refine safeFor_openFrame (F := ⟨base, f.locals⟩) carries₁ at₁ placedOpen sp₁ s0₁
      (Nat.le_of_add_right_le stack_le) (same₁.size ▸ top_le) (same₁.size ▸ size_lt) sound.locals_le
      room fun m₂ at₂ frame₂ memory₂ => ?_
    refine safeFor_body sound rfl placedBody frame₂ at₂ fun m₃ comes₃ => ?_
    have kept : m₁.memory.SameOn (base ≤ ·) m₃.memory := by
      rw [← memory₂]
      exact comes₃.kept
    exact safeFor_epilogue (F := ⟨base, f.locals⟩) resumes sp same₁ (savedRa.trans ra) savedS0 kept
      stack_le comes₃.frame comes₃.at_ placedEpilogue
  · exact .of_lower (c := 8) carries at_ placedSave.1 (by decide) (by decide) sp stack_le
      (Nat.lt_of_le_of_lt top_le size_lt) (by omega)

end Guarded

/-! ## Units -/

/-- The halt is proper, and nothing comes behind it. -/
theorem Machine.Carries.safeFor_halt {m : Machine Nat} {words : List Word} {top k : Nat}
    {calls : List Call} (hm : m.Carries words) (at_ : m.At 2) (hw : words[2]? = some Encode.ecall)
    (t0 : m.regs[Reg.t0] = haltSelector) : m.SafeFor .halting words top k calls := by
  cases k with
  | zero => trivial
  | succ k =>
    have fetch := hm.fetch at_ hw Instr.decode?_ecall
    obtain ⟨m', halts⟩ := hm.step_halt at_ hw t0
    have inside := hm.inside at_ hw
    intro _
    refine ⟨⟨inside.word, inside.code, ?_, ?_, .inr ⟨_, m', halts, at_⟩⟩, ?_⟩
    · intro instr address length v fetch' effect
      rw [fetch] at fetch'
      cases fetch'
      cases effect
    · intro rd rs1 offset m'' fetch' _
      rw [fetch] at fetch'
      cases fetch'
    · intro instr m'' _ step
      rw [halts] at step
      cases step

namespace Program

/-- Calls of the functions of a unit are safe for any number of steps. -/
theorem callsSafe {p : Program} (sound : ∀ f ∈ p.functions, f.Sound fun slots => Expr.Within slots)
    (compact : p.assembly.Compact) {η : Type} (h : TrapHandler η) (top k : Nat) :
    CallsSafe h p.assembly top (p.functions.map (·.name)) k := by
  induction k using Nat.strongRecOn with
  | ind k ih =>
    intro name known
    obtain ⟨f, last⟩ := exists_lastDefinition? known
    obtain ⟨-, fs, gs, functions, -⟩ := functions_eq_of_lastDefinition? last
    have mem : f ∈ p.functions := functions ▸ List.mem_append_right fs List.mem_cons_self
    obtain ⟨entry, n, place, placed⟩ := placed_lastDefinition last
    refine ⟨entry, place,
      fun m stack r calls at_ carries sp ra stack_le top_le size_lt resumes => ?_⟩
    let G : Guarded η := ⟨h, p.assembly, top, p.functions.map (·.name), compact, k, ih⟩
    exact Guarded.safeFor_call (G := G) (sound f mem) placed at_ carries sp ra stack_le
      top_le size_lt resumes

/-- A machine that is about to run a unit with a `main` is safe for any number of steps. -/
theorem safeFor_of_ready {p : Program} {f : Function} (last : p.lastDefinition? "main" = some f)
    (sound : ∀ f ∈ p.functions, f.Sound fun slots => Expr.Within slots)
    (compact : p.assembly.Compact) {m : Machine Nat} {size k : Nat} {argc argv : Word}
    (ready : m.Ready p.words size argc argv) (small : size < 2 ^ 31) :
    m.SafeFor .halting p.words (Memory.zeros size).stackStart.toNat k [] := by
  cases k with
  | zero => trivial
  | succ k =>
    have stack_le : (Memory.zeros size).stackStart.toNat ≤ size :=
      Nat.le_trans (Memory.toNat_stackStart_le _) (Nat.le_of_eq Array.size_replicate)
    obtain ⟨name, fs, gs, functions, -⟩ := functions_eq_of_lastDefinition? last
    have known : "main" ∈ p.functions.map (·.name) := by
      rw [← name, functions]
      exact List.mem_map_of_mem (List.mem_append_right fs List.mem_cons_self)
    obtain ⟨entry, place, callee⟩ := callsSafe sound compact TrapHandler.halting
      (Memory.zeros size).stackStart.toNat k "main" known
    obtain ⟨call, select, ecall, -⟩ := placed_entryStub last
    rw [place] at call
    have jump := ready.carries.does_jal (h := .halting) ready.at_ call (compact _ _ place)
    let m₁ := m.linked Reg.ra (BitVec.ofNat 32 (4 * entry))
    have sp₁ : m₁.regs[Reg.sp] = m.regs[Reg.sp] := Registers.getElem_write_of_ne (by decide)
    have s0₁ : m₁.regs[Reg.s0] = m.regs[Reg.s0] := Registers.getElem_write_of_ne (by decide)
    have resume : m.pc + 4 = BitVec.ofNat 32 (4 * 1) := by
      rw [ready.at_]
      rfl
    have ra₁ : m₁.regs[Reg.ra] = BitVec.ofNat 32 (4 * 1) :=
      (Registers.getElem_write_self (by decide)).trans resume
    have sp : m₁.regs[Reg.sp] = BitVec.ofNat 32 (Memory.zeros size).stackStart.toNat := by
      rw [sp₁, ready.sp, BitVec.ofNat_toNat, BitVec.setWidth_eq]
    refine .of_does jump (fun _ => ?_) fun n hn => ?_
    · exact (ready.carries.inside ready.at_ call).proper jump (by simp) (by simp)
    · have returned := callee m₁ _ 1 [] rfl ready.carries.linked sp ra₁ (Nat.le_refl _)
        (ready.memory_size ▸ stack_le) (ready.memory_size ▸ small) ?_
      · rw [Machine.callsBehind, if_pos rfl, resume, ← sp₁, ← s0₁]
        exact returned.mono (Nat.le_of_lt_succ hn)
      · intro m₂ at₂ carries₂ _ _ _
        refine .of_path (Machine.path_aluImm _ carries₂ at₂ select (by decide)) ?_
        refine carries₂.wrote.safeFor_halt at₂.wrote ecall ?_
        rw [Machine.getElem_wrote_self (by decide), carries₂.zero]
        rfl

/-- Whatever a unit with a `main` does, as long as its stack pointer stays between the code and the
start of the stack: it is at an instruction of its code, which is as it was loaded, it stores
between the stack pointer and the start of the stack, it returns from calls to where they were made
and as they were made, and its next step does not fail and halts only behind the call of `main`. -/
theorem proper_of_watched {ts : List Token} {size : Nat} {argc argv : Word}
    (main : ((ofTokens ts).function? "main").isSome) (short : (ofTokens ts).codeLength ≤ 2 ^ 20)
    (small : size < 2 ^ 31)
    (fits : (ofTokens ts).codeLength ≤ (Memory.zeros size).stackStart.toNat) :
    ∃ loaded, (Machine.create size 0).load (ofTokens ts).code = (.ok (), loaded) ∧
      ∀ k m calls, Machine.Watched .halting (ofTokens ts).codeLength
        (Memory.zeros size).stackStart.toNat (loaded.setArgs argc argv) k m calls →
          m.Proper .halting (ofTokens ts).words (Memory.zeros size).stackStart.toNat calls := by
  have stack_le : (Memory.zeros size).stackStart.toNat ≤ size :=
    Nat.le_trans (Memory.toNat_stackStart_le _) (Nat.le_of_eq Array.size_replicate)
  obtain ⟨f, mem, name⟩ := List.find?_isSome.mp main
  have known : "main" ∈ (ofTokens ts).functions.map (·.name) :=
    List.mem_map.mpr ⟨f, mem, eq_of_beq name⟩
  obtain ⟨f, last⟩ := exists_lastDefinition? known
  obtain ⟨loaded, load, ready⟩ := Machine.ready_of_load 0 size (ofTokens ts).words argc argv short
    (Nat.le_trans fits stack_le)
  refine ⟨loaded, load, fun k m calls watched => ?_⟩
  exact watched.proper fun k => safeFor_of_ready last (fun f mem => within_of_mem_functions mem)
    (compact_of_codeLength_le short) ready small

/-- A machine that adds up numbers is proper at the start, and inside of the second call of `sum`,
which is 37 steps on. -/
theorem proper_summing :
    ∃ loaded, (Machine.create 352 0).load (ofTokens summing).code = (.ok (), loaded) ∧
      (loaded.setArgs 5 0).Proper .halting (ofTokens summing).words 352 [] ∧
      ∃ m calls, Machine.Watched .halting 236 352 (loaded.setArgs 5 0) 37 m calls ∧
        calls.map (·.resume) = [112, 208, 4] ∧
        m.Proper .halting (ofTokens summing).words 352 calls := by
  have main : ((ofTokens summing).function? "main").isSome := by decide +kernel
  have stack : (Memory.zeros 352).stackStart.toNat = 352 := by decide +kernel
  have length := codeLength_summing
  obtain ⟨loaded, load, proper⟩ := @proper_of_watched summing 352 5 0 main
    (by rw [length]; decide) (by decide) (by rw [length, stack]; decide)
  rw [length, stack] at proper
  have room : (ofTokens summing).code.length ≤ 352 := by
    rw [code, length_flatMap_toBytes, ← codeLength, length]
    decide
  have created : loaded = _ := congrArg Prod.snd (load.symm.trans (Machine.load_create 0 room))
  have within : Machine.StackWithin 236 352 (loaded.setArgs 5 0) := by
    rw [created]
    decide +kernel
  have steps : (Machine.watch? .halting 236 352 37 (loaded.setArgs 5 0) []).map
      (fun seen => seen.2.map (·.resume)) = some [112, 208, 4] := by
    rw [created, code, words, link_eq_wordsAt]
    decide +kernel
  obtain ⟨⟨m, calls⟩, seen, resumes⟩ := Option.map_eq_some_iff.mp steps
  have inside := (Machine.Watched.start within).of_watch? seen
  exact ⟨_, load, proper 0 _ [] (.start within), m, calls, inside, resumes, proper _ m calls inside⟩

end Program

end BareC
