import BareC.Proofs.Semantics.Sequences

/-!
# Opening and closing frames

A function saves the return address and the caller's frame pointer above its frame, makes room for
its slots, and stores its parameters to the first of them. At its end it finds both again where it
left them: nothing that happens in between reaches above the frame.

What is kept is said of memory from the frame upwards, and of the two pointers. The registers of
arguments and results are not kept by a call, and code that is generated never relies on them across
one. Frames are as large as the limit on slots allows; whether there is room for another one is
asked by whoever calls.
-/

namespace BareC

open Assembly

namespace Assembly

/-- A frame is small enough for an immediate. -/
theorem frameSize_le {locals : Nat} (h : locals ≤ Grammar.maxSlots) : frameSize locals ≤ 2048 := by
  simp only [Grammar.maxSlots] at h
  unfold frameSize
  omega

/-- Opening a frame takes one instruction, or none for an empty frame. -/
theorem openFrame_eq {locals : Nat} (h : locals ≤ Grammar.maxSlots) :
    openFrame locals = if 0 < frameSize locals then
      [aluImm .addi sp sp (-BitVec.ofNat 32 (frameSize locals))] else [] := by
  have small := frameSize_le h
  have value : (BitVec.ofNat 32 (frameSize locals)).toInt = frameSize locals := by
    rw [← BitVec.ofInt_natCast, BitVec.toInt_ofInt_eq_self (by decide) (by omega) (by omega)]
  rw [openFrame_eq_ite, value]
  simp only [Int.natCast_pos]

/-- The size of a frame fits the immediate. -/
theorem signed_neg_frameSize {locals : Nat} (h : locals ≤ Grammar.maxSlots) :
    Word.signed 12 (-BitVec.ofNat 32 (frameSize locals)) = -BitVec.ofNat 32 (frameSize locals) := by
  have small := frameSize_le h
  have value : (-BitVec.ofNat 32 (frameSize locals) : Word).toInt = -frameSize locals := by
    rw [← BitVec.ofInt_natCast, ← BitVec.ofInt_neg,
      BitVec.toInt_ofInt_eq_self (by decide) (by omega) (by omega)]
  exact Word.signed_eq_self (by decide) (by omega) (by omega)

end Assembly

namespace Machine

variable {η : Type} {h : TrapHandler η} {whole : Assembly} {top : Nat} {m : Machine η} {i : Nat}

/-- Adding a small number to an address. -/
theorem toNat_add_of_eq {a : Word} {n k : Nat} (ha : a = BitVec.ofNat 32 n) (lt : n + k < 2 ^ 32) :
    (a + BitVec.ofNat 32 k).toNat = n + k := by
  rw [ha, Word.ofNat_add_ofNat, Word.toNat_ofNat_of_lt lt]

/-- The two saved registers lie above the frame that is about to be opened. -/
theorem path_saveFrame (hm : m.Carries whole.link) (at_ : m.At i)
    (placed : whole.Placed i saveFrame) {base : Nat}
    (sp : m.regs[Reg.sp] = BitVec.ofNat 32 (base + 8)) (room : 4 * whole.link.length ≤ base)
    (base_le : base + 8 ≤ top) (top_le : top ≤ m.memory.size) (size_lt : m.memory.size < 2 ^ 31) :
    ∃ m', Path h whole.link top m m' ∧ m'.At (i + 4) ∧ m'.Carries whole.link ∧
      m'.regs[Reg.sp] = BitVec.ofNat 32 base ∧ m'.regs[Reg.s0] = BitVec.ofNat 32 base ∧
      (∀ r, r ≠ Reg.sp → r ≠ Reg.s0 → m'.regs[r] = m.regs[r]) ∧
      m'.memory.wordAt (base + 4) = m.regs[Reg.ra] ∧ m'.memory.wordAt base = m.regs[Reg.s0] ∧
      m.memory.SameOn (base + 8 ≤ ·) m'.memory := by
  have small : base < 2 ^ 32 := by omega
  have small₁ : base + 4 < 2 ^ 32 := by omega
  have fits₁ : base + 4 + 4 ≤ top := by omega
  have fits₂ : base + 4 ≤ top := by omega
  have room₁ : 4 * whole.link.length ≤ base + 4 := by omega
  let m₁ := m.wrote Reg.sp (m.regs[Reg.sp] + (-8))
  have lowered : m₁.regs[Reg.sp] = BitVec.ofNat 32 base := by
    rw [show m₁.regs[Reg.sp] = m.regs[Reg.sp] + (-8) from getElem_wrote_self (by decide), sp]
    exact Word.ofNat_add_neg base 8
  have toNat₁ : m₁.regs[Reg.sp].toNat = base := by
    rw [lowered, Word.toNat_ofNat_of_lt small]
  have step₁ := path_aluImm (h := h) top hm at_ placed.1 (by decide)
  have carries₁ : m₁.Carries whole.link := hm.wrote
  have address₁ : (m₁.regs[Reg.sp] + 4).toNat = base + 4 := toNat_add_of_eq lowered small₁
  let m₂ := m₁.stored (m₁.regs[Reg.sp] + 4) m₁.regs[Reg.ra]
  have step₂ :=
    path_store (h := h) top carries₁ at_.wrote placed.2.1 (by decide)
      (by rw [address₁, toNat₁]; exact Nat.le_add_right ..) (address₁ ▸ fits₁) top_le
  have carries₂ : m₂.Carries whole.link := carries₁.stored (address₁ ▸ room₁)
  have address₂ : (m₂.regs[Reg.sp] + 0).toNat = base := toNat_add_of_eq lowered small
  have top_le₂ : top ≤ m₂.memory.size :=
    Nat.le_trans top_le (Nat.le_of_eq (Memory.size_put ..).symm)
  let m₃ := m₂.stored (m₂.regs[Reg.sp] + 0) m₂.regs[Reg.s0]
  have step₃ :=
    path_store (h := h) top carries₂ at_.wrote.stored placed.2.2.1 (by decide)
      (Nat.le_of_eq (toNat₁.trans address₂.symm)) (address₂ ▸ fits₂) top_le₂
  have carries₃ : m₃.Carries whole.link := carries₂.stored (address₂ ▸ room)
  have word₁ : m₂.memory.wordAt (base + 4) = m₁.regs[Reg.ra] :=
    wordAt_stored address₁ (Nat.le_trans fits₁ top_le)
  have word₂ : m₃.memory.wordAt base = m₂.regs[Reg.s0] :=
    wordAt_stored address₂ (Nat.le_trans fits₂ top_le₂)
  have word₂' : m₃.memory.wordAt (base + 4) = m₂.memory.wordAt (base + 4) :=
    wordAt_stored_of_disjoint address₂ (.inr (Nat.le_refl _))
  have same₁ : m₁.memory.SameOn (base + 8 ≤ ·) m₂.memory :=
    sameOn_stored address₁ fun a (ha : base + 8 ≤ a) => .inr (by omega)
  have same₂ : m₂.memory.SameOn (base + 8 ≤ ·) m₃.memory :=
    sameOn_stored address₂ fun a (ha : base + 8 ≤ a) => .inr (by omega)
  have step₄ := path_aluImm (h := h) top carries₃ at_.wrote.stored.stored placed.2.2.2.1 (by decide)
  refine ⟨_, step₁.trans (step₂.trans (step₃.trans step₄)), at_.wrote.stored.stored.wrote,
    carries₃.wrote, ?_, ?_, ?_, ?_, ?_, ?_⟩
  · exact (getElem_wrote_of_ne (by decide)).trans lowered
  · rw [getElem_wrote_self (by decide)]
    exact (BitVec.add_zero _).trans lowered
  · intro r hsp hs0
    exact (getElem_wrote_of_ne hs0).trans (getElem_wrote_of_ne hsp)
  · exact word₂'.trans (word₁.trans (getElem_wrote_of_ne (by decide)))
  · exact word₂.trans (getElem_wrote_of_ne (by decide))
  · exact same₁.trans same₂

/-- The stack pointer moves below the slots. -/
theorem path_openFrame (hm : m.Carries whole.link) (at_ : m.At i) {F : Frame}
    (placed : whole.Placed i (openFrame F.locals))
    (sp : m.regs[Reg.sp] = BitVec.ofNat 32 F.base) (s0 : m.regs[Reg.s0] = BitVec.ofNat 32 F.base)
    (room : 4 * whole.link.length + frameSize F.locals ≤ F.base)
    (base_le : F.base ≤ top) (top_le : top ≤ m.memory.size) (size_lt : m.memory.size < 2 ^ 31)
    (locals_le : F.locals ≤ Grammar.maxSlots) :
    ∃ m', Path h whole.link top m m' ∧ m'.At (i + (openFrame F.locals).size) ∧
      m'.InFrame whole.link top F 0 (fun _ => none) ∧
      (∀ r, r ≠ Reg.sp → m'.regs[r] = m.regs[r]) ∧ m'.memory = m.memory := by
  have split : F.base = F.bottom 0 + frameSize F.locals := by
    unfold Frame.bottom
    omega
  rw [openFrame_eq locals_le] at placed ⊢
  split at placed
  next some =>
    rw [if_pos some]
    have step := path_aluImm (h := h) top hm at_ placed.1 (signed_neg_frameSize locals_le)
    refine ⟨_, step, at_.wrote, ⟨hm.wrote, ?_, ?_, room, base_le, top_le, size_lt, locals_le,
      by simp⟩, fun r hr => getElem_wrote_of_ne hr, rfl⟩
    · rw [getElem_wrote_self (by decide), sp, split]
      exact Word.ofNat_add_neg _ _
    · exact (getElem_wrote_of_ne (by decide)).trans s0
  next none =>
    rw [if_neg none]
    refine ⟨m, .refl m, at_, ⟨hm, ?_, s0, room, base_le, top_le, size_lt, locals_le, by simp⟩,
      fun r _ => rfl, rfl⟩
    rw [sp, show F.bottom 0 = F.base by omega]

/-- The arguments are stored to the first slots. -/
theorem path_storeParams {F : Frame} (params : Nat) (few : params ≤ Grammar.maxParameters)
    (le : params ≤ F.locals) (hf : m.InFrame whole.link top F 0 (fun _ => none)) (at_ : m.At i)
    (placed : whole.Placed i (storeParams params)) :
    ∃ m', Arrives (Path h whole.link top) whole.link top F 0 m (i + (storeParams params).size) 0
        (fun s => if hs : s < params then
          some m.regs[argumentReg s (Nat.lt_of_lt_of_le hs few)] else none) m' ∧
      m'.regs = m.regs := by
  induction params with
  | zero => exact ⟨m, ⟨.refl m, at_, by simpa using hf, .refl _ _⟩, rfl⟩
  | succ params ih =>
    have split : storeParams (params + 1) =
        storeParams params ++ [storeWord (argument params) Assembly.s0 (slotPlace params)] := by
      simp [storeParams_eq, List.range_succ]
    rw [split, placed_append, argument_eq few] at placed
    obtain ⟨m₁, first, regs⟩ := ih (Nat.le_of_succ_le few) (Nat.le_of_succ_le le) placed.1
    obtain ⟨m₂, second, regs₂⟩ := path_storeSlot (h := h) first.frame first.at_ le placed.2
    rw [split, size_append, ← Nat.add_assoc]
    refine ⟨m₂, ?_, regs₂.trans regs⟩
    have all := first.trans .trans (Nat.le_refl _) second
    have written : (fun s => if hs : s < params + 1 then
          some m.regs[argumentReg s (Nat.lt_of_lt_of_le hs few)] else none) =
        fun s => if s = params then some m₁.regs[argumentReg params few] else
          if hs : s < params then
            some m.regs[argumentReg s (Nat.lt_of_lt_of_le hs (Nat.le_of_succ_le few))]
          else none := by
      funext s
      by_cases eq : s = params
      · subst eq
        rw [dif_pos (Nat.lt_succ_self s), if_pos rfl, regs]
      · by_cases below : s < params
        · rw [dif_pos (Nat.lt_succ_of_lt below), if_neg eq, dif_pos below]
        · rw [dif_neg (by omega), if_neg eq, dif_neg below]
    rw [written]
    exact all

/-- Both saved registers come back, and the stack pointer is where it was before the call. -/
theorem path_closeFrame {F : Frame} {waiting : Nat} {slots : Nat → Option Word}
    (hf : m.InFrame whole.link top F waiting slots) (at_ : m.At i)
    (placed : whole.Placed i closeFrame) (high : F.base + 8 ≤ top) :
    ∃ m', Path h whole.link top m m' ∧ m'.At (i + 4) ∧ m'.Carries whole.link ∧
      m'.regs[Reg.sp] = BitVec.ofNat 32 (F.base + 8) ∧
      m'.regs[Reg.ra] = m.memory.wordAt (F.base + 4) ∧
      m'.regs[Reg.s0] = m.memory.wordAt F.base ∧ m'.regs[Reg.a0] = m.regs[Reg.a0] ∧
      m'.memory = m.memory := by
  have top_le := hf.top_le
  have size_lt := hf.size_lt
  have small : F.base < 2 ^ 32 := by omega
  have small₁ : F.base + 4 < 2 ^ 32 := by omega
  have inside₁ : F.base + 4 + 4 ≤ m.memory.size := by omega
  have inside₂ : F.base + 4 ≤ m.memory.size := by omega
  have step₁ := path_aluImm (h := h) top hf.carries at_ placed.1 (by decide)
  let m₁ := m.wrote Reg.sp (m.regs[Reg.s0] + 0)
  have sp₁ : m₁.regs[Reg.sp] = BitVec.ofNat 32 F.base :=
    (getElem_wrote_self (by decide)).trans ((BitVec.add_zero _).trans hf.s0)
  have carries₁ : m₁.Carries whole.link := hf.carries.wrote
  have step₂ := path_load (h := h) top carries₁ at_.wrote placed.2.1 (by decide)
    (toNat_add_of_eq sp₁ small₁) inside₁
  let m₂ := m₁.wrote Reg.ra (m.memory.wordAt (F.base + 4))
  have sp₂ : m₂.regs[Reg.sp] = BitVec.ofNat 32 F.base :=
    (getElem_wrote_of_ne (by decide)).trans sp₁
  have step₃ := path_load (h := h) top carries₁.wrote at_.wrote.wrote placed.2.2.1 (by decide)
    (toNat_add_of_eq sp₂ small) inside₂
  let m₃ := m₂.wrote Reg.s0 (m.memory.wordAt F.base)
  have sp₃ : m₃.regs[Reg.sp] = BitVec.ofNat 32 F.base :=
    (getElem_wrote_of_ne (by decide)).trans sp₂
  have carries₃ : m₃.Carries whole.link := carries₁.wrote.wrote
  have at₃ : m₃.At (i + 3) := at_.wrote.wrote.wrote
  have step₄ := path_aluImm (h := h) top carries₃ at₃ placed.2.2.2.1 (by decide)
  refine ⟨m₃.wrote Reg.sp (m₃.regs[Reg.sp] + 8), step₁.trans (step₂.trans (step₃.trans step₄)),
    at₃.wrote, carries₃.wrote, ?_, ?_, ?_, ?_, rfl⟩
  · rw [getElem_wrote_self (by decide), sp₃]
    exact Word.ofNat_add_ofNat _ 8
  · exact (getElem_wrote_of_ne (by decide)).trans
      ((getElem_wrote_of_ne (by decide)).trans (getElem_wrote_self (by decide)))
  · exact (getElem_wrote_of_ne (by decide)).trans (getElem_wrote_self (by decide))
  · exact (getElem_wrote_of_ne (by decide)).trans ((getElem_wrote_of_ne (by decide)).trans
      ((getElem_wrote_of_ne (by decide)).trans (getElem_wrote_of_ne (by decide))))

/-- A return address is a multiple of four, so its lowest bit is not missed. -/
theorem four_mul_even (r : Nat) :
    BitVec.ofNat 32 (4 * r) &&& ~~~1 = BitVec.ofNat 32 (4 * r) := by
  have zero := offset_even 0 r
  have eq : offset 0 r = BitVec.ofNat 32 (4 * r) := by
    rw [offset, ← BitVec.ofInt_natCast]
    congr 1
    omega
  rwa [eq] at zero

end Machine

end BareC
