import BareC.Proofs.Assembly.Equations
import BareC.Proofs.Semantics.Frames
import BareC.Proofs.Semantics.Operators

/-!
# Sequences of instructions

What the sequences that generated code is put together from do inside of a frame: load a constant,
push and pop, read and write a slot, apply an operator, and jump.

Each sequence has a lemma from the invariant of the frame to the invariant of the frame, with what
has changed in registers, slots and waiting values. The steps in between are not seen from outside,
but for what a path records of them.
-/

namespace BareC.Machine

open Assembly

variable {η : Type}

/-- The machine comes to an instruction in the way `R` inside of the same frame, and has left alone
what is kept in it. -/
structure Arrives (R : Machine η → Machine η → Prop) (words : List Word) (top : Nat) (F : Frame)
    (waiting : Nat) (m : Machine η) (j waiting' : Nat) (slots : Nat → Option Word)
    (m' : Machine η) : Prop where
  way : R m m'
  at_ : m'.At j
  frame : m'.InFrame words top F waiting' slots
  kept : m.memory.SameOn (F.Kept waiting) m'.memory

variable {h : TrapHandler η} {words : List Word} {top : Nat} {F : Frame}
  {waiting waiting' waiting'' : Nat} {slots slots' slots'' : Nat → Option Word}
  {m m' m'' : Machine η} {i j k : Nat}

/-- One arrival follows another. -/
theorem Arrives.trans {R : Machine η → Machine η → Prop}
    (trans : ∀ {a b c}, R a b → R b c → R a c) {w w' : Nat} (le : w ≤ w')
    (first : Arrives R words top F w m j waiting' slots' m')
    (second : Arrives R words top F w' m' k waiting'' slots'' m'') :
    Arrives R words top F w m k waiting'' slots'' m'' :=
  ⟨trans first.way second.way, second.at_, second.frame,
    first.kept.trans (second.kept.mono fun _ ha => ha.mono le)⟩

/-- What is kept while more values wait is kept while fewer do. -/
theorem Arrives.weaken {R : Machine η → Machine η → Prop} {w w' : Nat} (le : w ≤ w')
    (arrives : Arrives R words top F w' m j waiting' slots' m') :
    Arrives R words top F w m j waiting' slots' m' :=
  { arrives with kept := arrives.kept.mono fun _ ha => ha.mono le }

/-- A value that waits is the same later on. -/
theorem Arrives.wordAt_waiting {R : Machine η → Machine η → Prop} {w : Nat}
    (arrives : Arrives R words top F w m j waiting' slots' m') (hf : m.InFrame words top F w slots)
    (hk : k < w) : m'.memory.wordAt (F.bottom (k + 1)) = m.memory.wordAt (F.bottom (k + 1)) := by
  have room := hf.room
  exact arrives.kept.wordAt fun a low high => Frame.kept_of_waiting hk (by omega) low high

theorem getElem_wrote_self {rd : Reg} {v : Word} (hrd : rd ≠ .zero) : (m.wrote rd v).regs[rd] = v :=
  Registers.getElem_write_self hrd

theorem getElem_wrote_of_ne {r rd : Reg} {v : Word} (hr : r ≠ rd) :
    (m.wrote rd v).regs[r] = m.regs[r] :=
  Registers.getElem_write_of_ne hr

section Single

variable (hf : m.InFrame words top F waiting slots) (at_ : m.At i)

include hf at_

/-- A single instruction that writes a register other than the two pointers. -/
theorem InFrame.arrives_wrote {rd : Reg} {v : Word} (sp : Reg.sp ≠ rd) (s0 : Reg.s0 ≠ rd)
    (way : Path h words top m (m.wrote rd v)) :
    Arrives (Path h words top) words top F waiting m (i + 1) waiting slots (m.wrote rd v) :=
  ⟨way, at_.wrote, hf.wrote sp s0, .refl _ _⟩

/-- An operation on registers arrives at the next word, if it spares the pointers. -/
theorem InFrame.arrives_alu {op : AluOp} {rd rs1 rs2 : Reg} (sp : Reg.sp ≠ rd) (s0 : Reg.s0 ≠ rd)
    (hw : words[i]? = some (Encode.alu op (Encode.reg rd) (Encode.reg rs1) (Encode.reg rs2))) :
    Arrives (Path h words top) words top F waiting m (i + 1) waiting slots
      (m.wrote rd (op.eval m.regs[rs1] m.regs[rs2])) :=
  hf.arrives_wrote at_ sp s0 (path_alu top hf.carries at_ hw)

/-- As `arrives_alu`, for an operation on an immediate. -/
theorem InFrame.arrives_aluImm {op : ImmOp} {rd rs1 : Reg} {imm : Word} (sp : Reg.sp ≠ rd)
    (s0 : Reg.s0 ≠ rd)
    (hw : words[i]? = some (Encode.aluImm op (Encode.reg rd) (Encode.reg rs1) imm))
    (fits : imm.signed 12 = imm) :
    Arrives (Path h words top) words top F waiting m (i + 1) waiting slots
      (m.wrote rd (op.eval m.regs[rs1] imm)) :=
  hf.arrives_wrote at_ sp s0 (path_aluImm top hf.carries at_ hw fits)

end Single

section Placed

variable {whole : Assembly} (hf : m.InFrame whole.link top F waiting slots) (at_ : m.At i)

include hf at_

/-! ## Constants and operators -/

/-- Loading a constant leaves it in the register. -/
theorem path_loadConst (v : Word) (placed : whole.Placed i (loadConst a0 v)) :
    ∃ m', Arrives (Path h whole.link top) whole.link top F waiting m
      (i + (loadConst a0 v).size) waiting slots m' ∧ m'.regs[Reg.a0] = v := by
  rw [loadConst_eq] at placed ⊢
  split at placed
  next small =>
    rw [if_pos small]
    refine ⟨_, hf.arrives_aluImm at_ (by decide) (by decide) placed.1
      (Word.signed_of_isImm12 small), ?_⟩
    rw [getElem_wrote_self (by decide), hf.carries.zero]
    exact BitVec.zero_add v
  next large =>
    rw [if_neg large]
    have sum := Word.upperLower_add v
    have first := hf.arrives_wrote at_ (by decide) (by decide)
      (path_lui (h := h) top hf.carries at_ placed.1)
    split at placed
    next zero =>
      rw [if_pos zero]
      rw [zero] at sum
      exact ⟨_, first, (getElem_wrote_self (by decide)).trans ((BitVec.add_zero _).symm.trans sum)⟩
    next nonzero =>
      rw [if_neg nonzero]
      have second := first.frame.arrives_aluImm (h := h) first.at_ (by decide) (by decide)
        placed.2.1 (Word.upperLower_signed v)
      refine ⟨_, first.trans .trans (Nat.le_refl _) second, ?_⟩
      rw [getElem_wrote_self (by decide)]
      exact (congrArg (· + _) (getElem_wrote_self (by decide))).trans sum

/-- A unary operator leaves its result in the register. -/
theorem path_operateUnary (op : UnaryOp) (placed : whole.Placed i [operateUnary op]) :
    ∃ m', Arrives (Path h whole.link top) whole.link top F waiting m
      (i + size [operateUnary op]) waiting slots m' ∧
      m'.regs[Reg.a0] = op.eval m.regs[Reg.a0] := by
  cases op with
  | neg =>
    refine ⟨_, hf.arrives_alu at_ (by decide) (by decide) placed.1, ?_⟩
    rw [getElem_wrote_self (by decide), hf.carries.zero]
    exact eval_neg _
  | not =>
    refine ⟨_, hf.arrives_aluImm at_ (by decide) (by decide) placed.1 (by decide), ?_⟩
    rw [getElem_wrote_self (by decide)]
    exact eval_not _
  | bitNot =>
    refine ⟨_, hf.arrives_aluImm at_ (by decide) (by decide) placed.1 (by decide), ?_⟩
    rw [getElem_wrote_self (by decide)]
    exact eval_bitNot _

/-- As `path_operateUnary`, for a binary one. -/
theorem path_operate (op : BinaryOp) (placed : whole.Placed i (operate op)) :
    ∃ m', Arrives (Path h whole.link top) whole.link top F waiting m
      (i + (operate op).size) waiting slots m' ∧
      m'.regs[Reg.a0] = op.eval m.regs[Reg.a1] m.regs[Reg.a0] := by
  have one : ∀ {o : AluOp} {x y : Reg},
      whole.link[i]? = some (Encode.alu o a0 (Encode.reg x) (Encode.reg y)) →
      ∃ m', Arrives (Path h whole.link top) whole.link top F waiting m (i + 1) waiting slots m' ∧
        m'.regs[Reg.a0] = o.eval m.regs[x] m.regs[y] :=
    fun hw => ⟨_, hf.arrives_alu at_ (by decide) (by decide) hw, getElem_wrote_self (by decide)⟩
  have two : ∀ {o : AluOp} {x y : Reg} {o' : ImmOp},
      whole.link[i]? = some (Encode.alu o a0 (Encode.reg x) (Encode.reg y)) →
      whole.link[i + 1]? = some (Encode.aluImm o' a0 a0 1) →
      ∃ m', Arrives (Path h whole.link top) whole.link top F waiting m (i + 2) waiting slots m' ∧
        m'.regs[Reg.a0] = o'.eval (o.eval m.regs[x] m.regs[y]) 1 := by
    intro o x y o' hw hw'
    have first := hf.arrives_alu (h := h) at_ (by decide) (by decide) hw
    have second := first.frame.arrives_aluImm (h := h) first.at_ (by decide) (by decide) hw'
      (by decide)
    refine ⟨_, first.trans .trans (Nat.le_refl _) second, ?_⟩
    rw [getElem_wrote_self (by decide)]
    exact congrArg (o'.eval · 1) (getElem_wrote_self (by decide))
  cases op with
  | add => rw [← eval_add]; exact one placed.1
  | sub => rw [← eval_sub]; exact one placed.1
  | mul => rw [← eval_mul]; exact one placed.1
  | div => rw [← eval_div]; exact one placed.1
  | rem => rw [← eval_rem]; exact one placed.1
  | bitAnd => exact one placed.1
  | bitOr => exact one placed.1
  | bitXor => exact one placed.1
  | shl => rw [← eval_shl]; exact one placed.1
  | shr => rw [← eval_shr]; exact one placed.1
  | lt => rw [← eval_lt]; exact one placed.1
  | gt => rw [← eval_gt]; exact one placed.1
  | le => rw [← eval_le]; exact two placed.1 placed.2.1
  | ge => rw [← eval_ge]; exact two placed.1 placed.2.1
  | eq => rw [← eval_eq]; exact two placed.1 placed.2.1
  | ne =>
    have first := hf.arrives_alu (h := h) at_ (by decide) (by decide) placed.1
    have second := first.frame.arrives_alu (h := h) first.at_ (by decide) (by decide) placed.2.1
    refine ⟨_, first.trans .trans (Nat.le_refl _) second, ?_⟩
    rw [getElem_wrote_self (by decide), first.frame.carries.zero, getElem_wrote_self (by decide)]
    exact eval_ne _ _

/-! ## Slots -/

/-- Loading a slot leaves its word in the register. -/
theorem path_loadSlot {s : Nat} (hs : s < F.locals)
    (placed : whole.Placed i [loadWord a0 Assembly.s0 (slotPlace s)]) :
    ∃ m', Arrives (Path h whole.link top) whole.link top F waiting m (i + 1) waiting slots m' ∧
      m'.regs[Reg.a0] = m.memory.wordAt (F.slot s) := by
  have inside : F.slot s + 4 ≤ m.memory.size :=
    Nat.le_trans (hf.slot_bounds hs).2 (Nat.le_trans hf.base_le hf.top_le)
  have way := path_load (h := h) top hf.carries at_ placed.1 (hf.slotPlace_signed hs)
    (hf.toNat_slot hs) inside
  exact ⟨_, hf.arrives_wrote at_ (by decide) (by decide) way, getElem_wrote_self (by decide)⟩

/-- Storing to a slot changes that slot only. -/
theorem path_storeSlot {s : Nat} (hs : s < F.locals) {rs : Reg}
    (placed : whole.Placed i [storeWord (Encode.reg rs) Assembly.s0 (slotPlace s)]) :
    ∃ m', Arrives (Path h whole.link top) whole.link top F waiting m (i + 1) waiting
        (fun s' => if s' = s then some m.regs[rs] else slots s') m' ∧
      m'.regs = m.regs := by
  have bounds := hf.slot_bounds hs
  have address := hf.toNat_slot hs
  have way := path_store (h := h) top hf.carries at_ placed.1 (hf.slotPlace_signed hs)
    (by rw [hf.toNat_sp, address]; exact bounds.1)
    (by rw [address]; exact Nat.le_trans bounds.2 hf.base_le) hf.top_le
  exact ⟨_, ⟨way, at_.stored, hf.storedSlot hs, sameOn_storedSlot hf hs⟩, rfl⟩

/-! ## Waiting values -/

/-- Pushing makes the value in `a0` the last one that waits. -/
theorem path_push (placed : whole.Placed i push)
    (room : 4 * whole.link.length + frameSize F.locals + 4 * (waiting + 1) ≤ F.base) :
    ∃ m',
      Arrives (Path h whole.link top) whole.link top F waiting m (i + 2) (waiting + 1) slots m' ∧
      m'.memory.wordAt (F.bottom (waiting + 1)) = m.regs[Reg.a0] := by
  have low := hf.base_le
  have high := hf.top_le
  have below : F.bottom (waiting + 1) + 4 = F.bottom waiting := Frame.bottom_succ (by omega)
  have le : F.bottom waiting ≤ F.base - frameSize F.locals := Nat.sub_le ..
  have locals := F.four_mul_locals_le
  have value : m.regs[Reg.sp] + (-4) = BitVec.ofNat 32 (F.bottom (waiting + 1)) := by
    rw [hf.sp, ← below]
    exact Word.ofNat_add_neg _ 4
  let lowered := m.wrote Reg.sp (m.regs[Reg.sp] + (-4))
  have frame : lowered.InFrame whole.link top F (waiting + 1) slots := hf.moved value room
  have address : (lowered.regs[Reg.sp] + 0).toNat = F.bottom (waiting + 1) := by
    rw [show lowered.regs[Reg.sp] + 0 = lowered.regs[Reg.sp] from BitVec.add_zero _]
    exact frame.toNat_sp
  have first := path_aluImm (h := h) top hf.carries at_ placed.1 (by decide)
  have second := path_store (h := h) top frame.carries at_.wrote placed.2.1 (by decide)
    (Nat.le_of_eq (frame.toNat_sp.trans address.symm)) (by rw [address]; omega) high
  refine ⟨_, ⟨first.trans second, at_.wrote.stored,
    frame.storedOutside (Nat.le_of_eq address.symm) (.inl ?_), .put ?_⟩, ?_⟩
  · rw [address]
    omega
  · intro a ha
    rw [address]
    unfold Frame.Kept at ha
    omega
  · rw [memory_stored, ← address]
    refine (Memory.wordAt_put_self ?_).trans (getElem_wrote_of_ne (by decide))
    rw [address]
    exact Nat.le_trans (by omega) high

end Placed

/-- Popping takes the last value that waits. -/
theorem path_pop {whole : Assembly} (hf : m.InFrame whole.link top F (waiting + 1) slots)
    (at_ : m.At i) {rd : Reg} (zero : rd ≠ .zero) (sp : Reg.sp ≠ rd) (s0 : Reg.s0 ≠ rd)
    (placed : whole.Placed i (pop (Encode.reg rd))) :
    ∃ m', Arrives (Path h whole.link top) whole.link top F waiting m (i + 2) waiting slots m' ∧
      m'.memory = m.memory ∧ m'.regs[rd] = m.memory.wordAt (F.bottom (waiting + 1)) ∧
      ∀ r, r ≠ rd → r ≠ Reg.sp → m'.regs[r] = m.regs[r] := by
  have low := hf.base_le
  have high := hf.top_le
  have room := hf.room
  have below : F.bottom (waiting + 1) + 4 = F.bottom waiting := Frame.bottom_succ (by omega)
  have le := F.bottom_le_base waiting
  have address : (m.regs[Reg.sp] + 0).toNat = F.bottom (waiting + 1) := by
    rw [show m.regs[Reg.sp] + 0 = m.regs[Reg.sp] from BitVec.add_zero _]
    exact hf.toNat_sp
  have first := path_load (h := h) top hf.carries at_ placed.1 (by decide) address (by omega)
  let loaded := m.wrote rd (m.memory.wordAt (F.bottom (waiting + 1)))
  have frame : loaded.InFrame whole.link top F (waiting + 1) slots := hf.wrote sp s0
  have second := path_aluImm (h := h) top frame.carries at_.wrote placed.2.1 (by decide)
  have value : loaded.regs[Reg.sp] + 4 = BitVec.ofNat 32 (F.bottom waiting) := by
    rw [frame.sp, ← below]
    exact Word.ofNat_add_ofNat _ _
  refine ⟨_, ⟨first.trans second, at_.wrote.wrote, frame.moved value (by omega), .refl _ _⟩, rfl,
    ?_, ?_⟩
  · exact (getElem_wrote_of_ne (Ne.symm sp)).trans (getElem_wrote_self zero)
  · intro r hrd hsp
    exact (getElem_wrote_of_ne hsp).trans (getElem_wrote_of_ne hrd)

/-! ## Arguments -/

/-- The register that passes the argument with this number. -/
def argumentReg (k : Nat) (hk : k < Grammar.maxParameters) : Reg :=
  ⟨10 + k, Nat.lt_of_lt_of_le (Nat.add_lt_add_left hk 10) (by decide)⟩

/-- The registers of the arguments. -/
theorem argument_eq {k : Nat} (hk : k < Grammar.maxParameters) :
    argument k = Encode.reg (argumentReg k hk) :=
  Word.ofNat_add_ofNat 10 k

/-- The registers of different arguments differ. -/
theorem argumentReg_ne {k n : Nat} {hk : k < Grammar.maxParameters} {hn : n < Grammar.maxParameters}
    (h : k ≠ n) : argumentReg k hk ≠ argumentReg n hn := by
  intro eq
  have := Fin.val_eq_of_eq eq
  simp only [argumentReg] at this
  omega

/-- No register of an argument is among the first ten. -/
theorem ne_argumentReg {r : Reg} (low : r < 10) {k : Nat} (hk : k < Grammar.maxParameters) :
    r ≠ argumentReg k hk := by
  rintro rfl
  exact absurd (Fin.lt_def.mp low) (Nat.not_lt.mpr (Nat.le_add_right 10 k))

/-- The registers of arguments are filled with the values that wait, the last one first. -/
theorem path_popArguments {whole : Assembly} (count : Nat) (few : count ≤ Grammar.maxParameters)
    (hf : m.InFrame whole.link top F (waiting + count) slots) (at_ : m.At i)
    (placed : whole.Placed i (popArguments count)) :
    ∃ m', Arrives (Path h whole.link top) whole.link top F waiting m
        (i + (popArguments count).size) waiting slots m' ∧
      ∀ k (hk : k < count), m'.regs[argumentReg k (Nat.lt_of_lt_of_le hk few)] =
        m.memory.wordAt (F.bottom (waiting + k + 1)) := by
  -- The registers above those still to be filled have their values already and keep them.
  suffices all : ∃ m', Arrives (Path h whole.link top) whole.link top F waiting m
        (i + (popArguments count).size) waiting slots m' ∧
      (∀ k (hk : k < count), m'.regs[argumentReg k (Nat.lt_of_lt_of_le hk few)] =
        m.memory.wordAt (F.bottom (waiting + k + 1))) ∧
      ∀ k (hk : k < Grammar.maxParameters), count ≤ k →
        m'.regs[argumentReg k hk] = m.regs[argumentReg k hk] by
    obtain ⟨m', arrives, filled, -⟩ := all
    exact ⟨m', arrives, filled⟩
  induction count generalizing m i with
  | zero => exact ⟨m, ⟨.refl m, at_, hf, .refl _ _⟩, by simp, by simp⟩
  | succ count ih =>
    have split : popArguments (count + 1) = pop (argument count) ++ popArguments count := by
      simp [popArguments_eq, List.range_succ]
    rw [split, placed_append] at placed
    rw [argument_eq few] at placed
    obtain ⟨m₁, first, memory, value, others⟩ := path_pop (h := h) hf at_
      (Ne.symm (ne_argumentReg (by decide) few)) (ne_argumentReg (by decide) few)
      (ne_argumentReg (by decide) few) placed.1
    obtain ⟨m₂, second, filled, kept⟩ := ih (Nat.le_of_succ_le few) first.frame first.at_ placed.2
    refine ⟨m₂, ?_, ?_, ?_⟩
    · rw [split, size_append, ← Nat.add_assoc]
      exact (first.weaken (Nat.le_add_right ..)).trans .trans (Nat.le_refl _) second
    · intro k hk
      rcases Nat.lt_succ_iff_lt_or_eq.mp hk with below | rfl
      · rw [filled k below, memory]
      · rw [kept k few (Nat.le_refl k), value]
        rfl
    · intro k hk above
      rw [kept k hk (Nat.le_of_succ_le above)]
      exact others _ (argumentReg_ne (Nat.ne_of_gt above)) (Ne.symm (ne_argumentReg (by decide) hk))

/-! ## Jumps -/

section Jumps

variable {whole : Assembly} (hf : m.InFrame whole.link top F waiting slots) (at_ : m.At i)

include hf

/-- A path that jumps arrives at the word it jumps to. -/
theorem InFrame.arrives_went (way : Path h whole.link top m (m.went (BitVec.ofNat 32 (4 * j)))) :
    Arrives (Path h whole.link top) whole.link top F waiting m j waiting slots
      (m.went (BitVec.ofNat 32 (4 * j))) :=
  ⟨way, rfl, hf.went, .refl _ _⟩

include at_

/-- A jump to a label arrives at its place. -/
theorem path_gotoLabel {l : Label} (placed : whole.Placed i [goto l])
    (hl : whole.placeOf? l = some j) (hj : 4 * j < 2 ^ 20) :
    Arrives (Path h whole.link top) whole.link top F waiting m j waiting slots
      (m.went (BitVec.ofNat 32 (4 * j))) := by
  apply hf.arrives_went
  apply path_goto top hf.carries at_ _ hj
  rw [goto_eq, placed_jump, hl] at placed
  exact placed.1

/-- A branch around a jump. -/
theorem path_branchAround {op : BranchOp} {l : Label}
    (placed : whole.Placed i [.word (Encode.branch op a0 zero 8), goto l])
    (hl : whole.placeOf? l = some j) (hj : 4 * j < 2 ^ 20) :
    ∃ m', Arrives (Path h whole.link top) whole.link top F waiting m
        (if op.holds m.regs[Reg.a0] 0 then i + 2 else j) waiting slots m' ∧
      m'.regs = m.regs ∧ m'.memory = m.memory := by
  have way := path_branch (h := h) top hf.carries at_ placed.1
  rw [hf.carries.zero] at way
  split
  next holds =>
    rw [if_pos holds] at way
    refine ⟨_, ⟨way, ?_, hf.went, .refl _ _⟩, rfl, rfl⟩
    show m.pc + 8 = _
    rw [at_]
    exact Word.ofNat_add_ofNat _ 8
  next fails =>
    rw [if_neg fails] at way
    have first : Arrives (Path h whole.link top) whole.link top F waiting m (i + 1) waiting slots
        (m.went (m.pc + 4)) := by
      refine ⟨way, ?_, hf.went, .refl _ _⟩
      rw [At, ← Word.ofNat_four_mul_succ, ← at_]
      rfl
    have second := path_gotoLabel (h := h) first.frame first.at_ placed.2 hl hj
    exact ⟨_, first.trans .trans (Nat.le_refl _) second, rfl, rfl⟩

/-- A jump where the value is zero arrives at the label or behind it. -/
theorem path_gotoIfZero {l : Label} (placed : whole.Placed i (gotoIfZero l))
    (hl : whole.placeOf? l = some j) (hj : 4 * j < 2 ^ 20) :
    ∃ m', Arrives (Path h whole.link top) whole.link top F waiting m
        (if m.regs[Reg.a0] = 0 then j else i + 2) waiting slots m' ∧
      m'.regs = m.regs ∧ m'.memory = m.memory := by
  have around := path_branchAround (h := h) hf at_ placed hl hj
  simpa [BranchOp.holds] using around

/-- As `path_gotoIfZero`, where it is not. -/
theorem path_gotoIfNonzero {l : Label} (placed : whole.Placed i (gotoIfNonzero l))
    (hl : whole.placeOf? l = some j) (hj : 4 * j < 2 ^ 20) :
    ∃ m', Arrives (Path h whole.link top) whole.link top F waiting m
        (if m.regs[Reg.a0] = 0 then i + 2 else j) waiting slots m' ∧
      m'.regs = m.regs ∧ m'.memory = m.memory := by
  have around := path_branchAround (h := h) hf at_ placed hl hj
  simpa [BranchOp.holds] using around

/-- The end of a chain of conditions, for a value that decides it. -/
theorem path_truth {v : Word} {done other : Label}
    (placed : whole.Placed i ([alu .sltu a0 zero a0, goto done, .mark other] ++
      (loadConst a0 v ++ [.mark done]))) (hj : 4 * (i + 2 + (loadConst a0 v).size) < 2 ^ 20) :
    ∃ m', Arrives (Path h whole.link top) whole.link top F waiting m
        (i + 2 + (loadConst a0 v).size) waiting slots m' ∧
      m'.regs[Reg.a0] = Word.truth (m.regs[Reg.a0] ≠ 0) := by
  rw [placed_append, placed_append, placed_mark] at placed
  obtain ⟨first, -, place, -⟩ := placed
  have step := hf.arrives_alu (h := h) at_ (by decide) (by decide) first.1
  have jump := path_gotoLabel (h := h) step.frame step.at_ ⟨first.2.1, trivial⟩ place hj
  refine ⟨_, step.trans .trans (Nat.le_refl _) jump, ?_⟩
  refine (getElem_wrote_self (by decide)).trans ?_
  rw [hf.carries.zero]
  exact Word.ofBool_zero_ult _

end Jumps

end BareC.Machine
