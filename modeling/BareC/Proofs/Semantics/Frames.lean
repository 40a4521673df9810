import BareC.Grammar.Statement
import BareC.Proofs.Assembly.Placement
import BareC.Proofs.Machine.Instructions

/-!
# Frames on the stack

The invariant of generated code between two of its constructs (`Machine.InFrame`): the frame pointer
is where the activation has its frame, the stack pointer is below the frame and the values that are
waiting, and a slot holds what the activation has written to it. Below the stack pointer anything
may stand, and so may in slots that nothing was written to.

Every sequence of instructions that always comes together is followed once, from the invariant to
the invariant. The steps on the way are recorded (`Machine.Path`), with what makes each of them
harmless: it stores nothing below the stack pointer or above the stack, and neither calls nor
returns.

Paths keep what a monitor would want to know of each step, so that the same lemmas serve the meaning
of a program and its safety. What stands in waiting values is not named: they are words above the
stack pointer, and are found again by their place.
-/

namespace BareC

open Assembly

/-! ## Frames -/

/-- Where an activation has its frame: the address behind its slots, and their number. -/
structure Frame where
  base : Nat
  locals : Nat

namespace Frame

/-- The stack pointer while so many values are waiting. -/
def bottom (F : Frame) (waiting : Nat) : Nat :=
  F.base - frameSize F.locals - 4 * waiting

/-- The address of a slot. -/
def slot (F : Frame) (s : Nat) : Nat :=
  F.base - 4 * (s + 1)

/-- The addresses that code of the activation leaves alone while so many values are waiting: those
of the waiting values, and all that lies above the frame. -/
def Kept (F : Frame) (waiting : Nat) (a : Nat) : Prop :=
  F.base ≤ a ∨ F.bottom waiting ≤ a ∧ a < F.bottom 0

/-- A frame holds its locals. -/
theorem four_mul_locals_le (F : Frame) : 4 * F.locals ≤ frameSize F.locals := by
  unfold frameSize
  omega

/-- A value that begins to wait takes the next four bytes. -/
theorem bottom_succ {F : Frame} {waiting : Nat}
    (room : frameSize F.locals + 4 * (waiting + 1) ≤ F.base) :
    F.bottom (waiting + 1) + 4 = F.bottom waiting := by
  unfold bottom
  omega

/-- What is kept with more waiting is kept with less. -/
theorem Kept.mono {F : Frame} {waiting waiting' a : Nat} (h : waiting ≤ waiting')
    (ha : F.Kept waiting a) : F.Kept waiting' a := by
  unfold Kept bottom at *
  omega

/-- The place of a value that waits is kept. -/
theorem kept_of_waiting {F : Frame} {waiting k a : Nat} (hk : k < waiting)
    (room : frameSize F.locals + 4 * waiting ≤ F.base) (low : F.bottom (k + 1) ≤ a)
    (high : a < F.bottom (k + 1) + 4) : F.Kept waiting a := by
  unfold Kept bottom at *
  omega

/-- What is kept lies above the bottom. -/
theorem bottom_le_of_kept {F : Frame} {waiting a : Nat} (ha : F.Kept waiting a) :
    F.bottom waiting ≤ a := by
  unfold Kept bottom at *
  omega

/-- The bottom of a frame lies below its base. -/
theorem bottom_le_base (F : Frame) (waiting : Nat) : F.bottom waiting ≤ F.base :=
  Nat.le_trans (Nat.sub_le ..) (Nat.sub_le ..)

end Frame

namespace Machine

variable {η : Type}

/-! ## Paths -/

/-- The instruction is neither a call nor a return, and stores nothing outside of the stack. -/
structure Harmless (top : Nat) (m : Machine η) (instr : Instr) (e : Effect) : Prop where
  call : ∀ offset, instr ≠ .jal Reg.ra offset
  ret : ∀ rd rs1 offset, instr ≠ .jalr rd rs1 offset
  store : ∀ a length v, e = .store a length v →
    m.regs[Reg.sp].toNat ≤ a.toNat ∧ a.toNat + length ≤ top

/-- The machine carries the code and is at one of its instructions. -/
def Inside (m : Machine η) (words : List Word) : Prop :=
  m.Carries words ∧ ∃ i, i < words.length ∧ m.At i

/-- The machine comes from one state to another by harmless instructions of the code. -/
inductive Path (h : TrapHandler η) (words : List Word) (top : Nat) :
    Machine η → Machine η → Prop where
  | refl (m : Machine η) : Path h words top m m
  | step {m m' m'' : Machine η} {instr : Instr} {e : Effect} (inside : m.Inside words)
      (does : m.Does h instr e m') (harmless : m.Harmless top instr e)
      (rest : Path h words top m' m'') : Path h words top m m''

variable {h : TrapHandler η} {words : List Word} {top : Nat} {m m' m'' : Machine η}

namespace Path

/-- Paths follow one another. -/
theorem trans (p : Path h words top m m') (q : Path h words top m' m'') :
    Path h words top m m'' := by
  induction p with
  | refl => exact q
  | step inside does harmless _ ih => exact .step inside does harmless (ih q)

/-- A harmless instruction is a path. -/
theorem one {instr : Instr} {e : Effect} (inside : m.Inside words) (does : m.Does h instr e m')
    (harmless : m.Harmless top instr e) : Path h words top m m' :=
  .step inside does harmless (.refl m')

end Path

variable {i : Nat} {w : Word}

/-- A machine at a word of its program is inside it. -/
theorem Carries.inside (hm : m.Carries words) (at_ : m.At i) (hw : words[i]? = some w) :
    m.Inside words :=
  ⟨hm, i, (List.getElem?_eq_some_iff.mp hw).1, at_⟩

/-! ## Single instructions on paths -/

section Single

variable (top) (hm : m.Carries words) (at_ : m.At i)

include hm at_

/-- An operation on registers is a path. -/
theorem path_alu {op : AluOp} {rd rs1 rs2 : Reg}
    (hw : words[i]? = some (Encode.alu op (Encode.reg rd) (Encode.reg rs1) (Encode.reg rs2))) :
    Path h words top m (m.wrote rd (op.eval m.regs[rs1] m.regs[rs2])) :=
  .one (hm.inside at_ hw) (hm.does_alu at_ hw) ⟨by simp, by simp, by simp⟩

/-- As `path_alu`, for an operation on an immediate that fits. -/
theorem path_aluImm {op : ImmOp} {rd rs1 : Reg} {imm : Word}
    (hw : words[i]? = some (Encode.aluImm op (Encode.reg rd) (Encode.reg rs1) imm))
    (fits : imm.signed 12 = imm) :
    Path h words top m (m.wrote rd (op.eval m.regs[rs1] imm)) :=
  .one (hm.inside at_ hw) (hm.does_aluImm at_ hw fits) ⟨by simp, by simp, by simp⟩

/-- As `path_alu`, for an upper immediate. -/
theorem path_lui {rd : Reg} {imm20 : Word}
    (hw : words[i]? = some (Encode.lui (Encode.reg rd) imm20)) :
    Path h words top m (m.wrote rd (imm20 <<< 12)) :=
  .one (hm.inside at_ hw) (hm.does_lui at_ hw) ⟨by simp, by simp, by simp⟩

/-- As `path_alu`, for a load inside the memory. -/
theorem path_load {rd rs1 : Reg} {offset : Word} {a : Nat}
    (hw : words[i]? = some (Encode.load .lw (Encode.reg rd) (Encode.reg rs1) offset))
    (fits : offset.signed 12 = offset) (address : (m.regs[rs1] + offset).toNat = a)
    (inside : a + 4 ≤ m.memory.size) :
    Path h words top m (m.wrote rd (m.memory.wordAt a)) := by
  subst address
  exact .one (hm.inside at_ hw) (hm.does_load at_ hw fits inside) ⟨by simp, by simp, by simp⟩

/-- As `path_alu`, for a store into the stack. -/
theorem path_store {rs1 rs2 : Reg} {offset : Word}
    (hw : words[i]? = some (Encode.store .sw (Encode.reg rs2) (Encode.reg rs1) offset))
    (fits : offset.signed 12 = offset) (low : m.regs[Reg.sp].toNat ≤ (m.regs[rs1] + offset).toNat)
    (high : (m.regs[rs1] + offset).toNat + 4 ≤ top) (size : top ≤ m.memory.size) :
    Path h words top m (m.stored (m.regs[rs1] + offset) m.regs[rs2]) := by
  refine .one (hm.inside at_ hw) (hm.does_store at_ hw fits (Nat.le_trans high size)) ?_
  refine ⟨by simp, by simp, ?_⟩
  rintro a length v ⟨⟩
  exact ⟨low, high⟩

/-- As `path_alu`, for a branch over the next word. -/
theorem path_branch {op : BranchOp} {rs1 rs2 : Reg}
    (hw : words[i]? = some (Encode.branch op (Encode.reg rs1) (Encode.reg rs2) 8)) :
    Path h words top m
      (m.went (if op.holds m.regs[rs1] m.regs[rs2] then m.pc + 8 else m.pc + 4)) :=
  .one (hm.inside at_ hw) (hm.does_branch at_ hw) ⟨by simp, by simp, by simp⟩

/-- A jump that leaves nothing behind. -/
theorem path_goto {j : Nat}
    (hw : words[i]? = some (Encode.jal (Encode.reg .zero) (Assembly.offset i j)))
    (hj : 4 * j < 2 ^ 20) : Path h words top m (m.went (BitVec.ofNat 32 (4 * j))) :=
  .one (hm.inside at_ hw) (hm.does_jal at_ hw hj) ⟨by simp [Reg.zero, Reg.ra], by simp, by simp⟩

end Single

/-! ## The invariant -/

/-- The machine is inside of an activation whose slots hold what was written to them, with so many
values waiting on its stack. -/
structure InFrame (words : List Word) (top : Nat) (F : Frame) (waiting : Nat)
    (slots : Nat → Option Word) (m : Machine η) : Prop where
  carries : m.Carries words
  sp : m.regs[Reg.sp] = BitVec.ofNat 32 (F.bottom waiting)
  s0 : m.regs[Reg.s0] = BitVec.ofNat 32 F.base
  /-- The stack does not reach into the code. -/
  room : 4 * words.length + frameSize F.locals + 4 * waiting ≤ F.base
  base_le : F.base ≤ top
  top_le : top ≤ m.memory.size
  size_lt : m.memory.size < 2 ^ 31
  locals_le : F.locals ≤ Grammar.maxSlots
  holds : ∀ s v, s < F.locals → slots s = some v → m.memory.wordAt (F.slot s) = v

namespace InFrame

variable {F : Frame} {waiting : Nat} {slots : Nat → Option Word} {rd : Reg} {v target : Word}

/-- The stack pointer is at the bottom of the frame. -/
theorem toNat_sp (hf : m.InFrame words top F waiting slots) :
    m.regs[Reg.sp].toNat = F.bottom waiting := by
  have := hf.base_le
  have := hf.top_le
  have := hf.size_lt
  rw [hf.sp, Word.toNat_ofNat_of_lt]
  unfold Frame.bottom
  omega

/-- The address that the offset of a slot leads to. -/
theorem toNat_slot (hf : m.InFrame words top F waiting slots) {s : Nat} (hs : s < F.locals) :
    (m.regs[Reg.s0] + slotPlace s).toNat = F.slot s := by
  have := hf.base_le
  have := hf.top_le
  have := hf.size_lt
  have := hf.room
  have := F.four_mul_locals_le
  rw [hf.s0, slotPlace_eq, BitVec.ofInt_neg, BitVec.ofInt_natCast, ← BitVec.sub_eq_add_neg,
    Word.ofNat_sub_ofNat (by omega), Word.toNat_ofNat_of_lt (by omega)]
  rfl

/-- The slots lie within the frame. -/
theorem slot_bounds (hf : m.InFrame words top F waiting slots) {s : Nat} (hs : s < F.locals) :
    F.bottom waiting ≤ F.slot s ∧ F.slot s + 4 ≤ F.base := by
  have := hf.room
  have := F.four_mul_locals_le
  unfold Frame.bottom Frame.slot
  omega

/-- The places of the slots fit the immediate. -/
theorem slotPlace_signed (hf : m.InFrame words top F waiting slots) {s : Nat} (hs : s < F.locals) :
    (slotPlace s).signed 12 = slotPlace s := by
  have few := hf.locals_le
  simp only [Grammar.maxSlots] at few
  exact Assembly.slotPlace_signed (by omega)

/-- Writing a register other than the two pointers keeps the invariant. -/
theorem wrote (hf : m.InFrame words top F waiting slots) (sp : Reg.sp ≠ rd) (s0 : Reg.s0 ≠ rd) :
    (m.wrote rd v).InFrame words top F waiting slots :=
  { hf with
    carries := hf.carries.wrote
    sp := (Registers.getElem_write_of_ne sp).trans hf.sp
    s0 := (Registers.getElem_write_of_ne s0).trans hf.s0 }

/-- A jump stays in the frame. -/
theorem went (hf : m.InFrame words top F waiting slots) :
    (m.went target).InFrame words top F waiting slots :=
  { hf with carries := hf.carries.went }

/-- The stack pointer moves to where it is when another number of values is waiting. -/
theorem moved (hf : m.InFrame words top F waiting slots) {waiting' : Nat}
    (hv : v = BitVec.ofNat 32 (F.bottom waiting'))
    (room : 4 * words.length + frameSize F.locals + 4 * waiting' ≤ F.base) :
    (m.wrote Reg.sp v).InFrame words top F waiting' slots :=
  { hf with
    carries := hf.carries.wrote
    sp := (Registers.getElem_write_self (by decide)).trans hv
    s0 := (Registers.getElem_write_of_ne (by decide)).trans hf.s0
    room }

/-- Storing outside of the slots keeps the invariant. -/
theorem storedOutside (hf : m.InFrame words top F waiting slots) {address : Word}
    (low : F.bottom waiting ≤ address.toNat)
    (outside : address.toNat + 4 ≤ F.base - 4 * F.locals ∨ F.base ≤ address.toNat) :
    (m.stored address v).InFrame words top F waiting slots := by
  have := hf.room
  have := F.four_mul_locals_le
  refine { hf with
    carries := hf.carries.stored (Nat.le_trans ?_ low)
    top_le := Nat.le_trans hf.top_le (Nat.le_of_eq (Memory.size_put ..).symm)
    size_lt := Nat.lt_of_le_of_lt (Nat.le_of_eq (Memory.size_put ..)) hf.size_lt
    holds := ?_ }
  · unfold Frame.bottom
    omega
  · intro s u hs hu
    rw [← hf.holds s u hs hu]
    apply Memory.wordAt_put_of_disjoint
    unfold Frame.slot
    omega

/-- Storing to a slot writes it. -/
theorem storedSlot (hf : m.InFrame words top F waiting slots) {s : Nat} (hs : s < F.locals) :
    (m.stored (m.regs[Reg.s0] + slotPlace s) v).InFrame words top F waiting
      (fun s' => if s' = s then some v else slots s') := by
  have bounds := hf.slot_bounds hs
  have := hf.room
  have := hf.base_le
  have := hf.top_le
  have address := hf.toNat_slot hs
  refine { hf with
    carries := hf.carries.stored ?_
    top_le := Nat.le_trans hf.top_le (Nat.le_of_eq (Memory.size_put ..).symm)
    size_lt := Nat.lt_of_le_of_lt (Nat.le_of_eq (Memory.size_put ..)) hf.size_lt
    holds := ?_ }
  · rw [address]
    unfold Frame.bottom at bounds
    omega
  · intro s' u hs' hu
    have locals := F.four_mul_locals_le
    rw [memory_stored]
    split at hu
    next eq =>
      cases hu
      rw [eq, ← address]
      apply Memory.wordAt_put_self
      rw [address]
      omega
    next ne =>
      rw [← hf.holds s' u hs' hu]
      apply Memory.wordAt_put_of_disjoint
      rw [address]
      unfold Frame.slot at *
      omega

/-- The frame is as it was if nothing changed above the stack pointer. -/
theorem of_sameOn (hf : m.InFrame words top F waiting slots) (carries : m'.Carries words)
    (sp : m'.regs[Reg.sp] = BitVec.ofNat 32 (F.bottom waiting))
    (s0 : m'.regs[Reg.s0] = m.regs[Reg.s0])
    (same : m.memory.SameOn (F.bottom waiting ≤ ·) m'.memory) :
    m'.InFrame words top F waiting slots := by
  refine ⟨carries, sp, s0.trans hf.s0, hf.room, hf.base_le, same.size ▸ hf.top_le,
    same.size ▸ hf.size_lt, hf.locals_le, ?_⟩
  intro s v hs hv
  rw [← hf.holds s v hs hv]
  exact same.wordAt fun a low _ => Nat.le_trans (hf.slot_bounds hs).1 low

end InFrame

/-- Storing to a slot leaves alone what is kept. -/
theorem sameOn_storedSlot {F : Frame} {waiting : Nat} {slots : Nat → Option Word} {v : Word}
    (hf : m.InFrame words top F waiting slots) {s : Nat} (hs : s < F.locals) :
    m.memory.SameOn (F.Kept waiting) (m.stored (m.regs[Reg.s0] + slotPlace s) v).memory := by
  have room := hf.room
  have locals := F.four_mul_locals_le
  refine .put fun a ha => ?_
  rw [hf.toNat_slot hs]
  unfold Frame.Kept Frame.bottom at ha
  unfold Frame.slot
  omega

end Machine

end BareC
