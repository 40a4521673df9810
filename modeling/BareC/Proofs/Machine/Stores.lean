import BareC.Proofs.Machine.Faults

/-!
# Stores one behind the other

Loads and stores of several bytes are those of single bytes, lowest first, except that they are made
whole or not at all (`load_eq_ok_iff_loadEach`, `store_eq_ok_iff_storeEach`). So of a history of
stores, whatever their lengths and however they overlap, no more is to be known than which store was
the last that left a byte at an address (`getElem?_afterStores`).

The bytes of a number are its digits to the base 256, lowest first, and one access of several bytes
is compared with as many of one byte. The range is decided before anything is written; so a store at
the end of memory fails as a whole, where single bytes would have written some. That is the one
difference, and it is stated.
-/

namespace BareC

namespace Memory

variable {m m' : Memory} {address : Word} {length n : Nat}

/-- An access is made if its range is in memory. -/
theorem access_eq_ok_iff {α : Type} {made result : α} {f : MachineFault} :
    (if m.covers address length then .ok made else .error f : Except MachineFault α) = .ok result ↔
      address.toNat + length ≤ m.size ∧ made = result := by
  split
  next covered =>
    rw [Except.ok.injEq]
    exact (and_iff_right (covers_iff.mp covered)).symm
  next outside =>
    constructor
    · intro succeeds
      cases succeeds
    · intro inside
      exact absurd (covers_iff.mpr inside.1) outside

/-- A load succeeds exactly where its bytes lie inside the memory, with the number they make. -/
theorem load_eq_ok_iff :
    m.load address length = .ok n ↔
      address.toNat + length ≤ m.size ∧ numberAt m.bytes address.toNat length = n :=
  access_eq_ok_iff

/-- A store succeeds exactly where its bytes lie inside the memory, which then holds them. -/
theorem store_eq_ok_iff :
    m.store address length n = .ok m' ↔
      address.toNat + length ≤ m.size ∧ m.put address length n = m' :=
  access_eq_ok_iff

/-- The range of an access lies in memory if its bytes do. -/
theorem add_le_size_iff (some : 0 < length) :
    address.toNat + length ≤ m.size ↔ ∀ k < length, address.toNat + k < m.size := by
  refine ⟨fun inside k lt => by omega, fun inside => ?_⟩
  have last := inside (length - 1) (by omega)
  omega

/-! ## Byte by byte -/

/-- Loads so many bytes one by one. -/
def loadEach (m : Memory) (address : Word) : (length : Nat) → Except MachineFault Bytes
  | 0 => .ok []
  | length + 1 => do
    let b ← m.load address 1
    let bs ← m.loadEach (address + 1) length
    return .ofNat b :: bs

/-- Stores bytes one by one. -/
def storeEach (m : Memory) (address : Word) : Bytes → Except MachineFault Memory
  | [] => .ok m
  | b :: bs => do
    let m' ← m.store address 1 b.toNat
    m'.storeEach (address + 1) bs

/-- The address behind, if one is wanted there. -/
theorem toNat_add_one (room : address.toNat + (length + 1) ≤ 2 ^ 32) (some : 0 < length) :
    (address + 1).toNat = address.toNat + 1 :=
  (BitVec.toNat_add ..).trans (Nat.mod_eq_of_lt (show address.toNat + 1 < 2 ^ 32 by omega))

/-- Bytes inside the memory can be loaded one by one, and make the same number. -/
theorem exists_loadEach (room : address.toNat + length ≤ 2 ^ 32)
    (inside : address.toNat + length ≤ m.size) :
    ∃ bs, m.loadEach address length = .ok bs ∧
    bs.value = numberAt m.bytes address.toNat length := by
  induction length generalizing address with
  | zero => exact ⟨[], rfl, rfl⟩
  | succ length ih =>
    have first : m.load address 1 = .ok (numberAt m.bytes address.toNat 1) := load_of_le (by omega)
    obtain ⟨bs, others, value⟩ : ∃ bs, m.loadEach (address + 1) length = .ok bs ∧
        bs.value = numberAt m.bytes (address.toNat + 1) length := by
      -- Behind the last byte there may be no address, but none is asked for either.
      rcases Nat.eq_zero_or_pos length with rfl | some
      · exact ⟨[], rfl, rfl⟩
      · have next := toNat_add_one room some
        rw [← next]
        exact ih (by omega) (by omega)
    refine ⟨.ofNat (numberAt m.bytes address.toNat 1) :: bs, ?_, ?_⟩
    · rw [loadEach, first, others]
      rfl
    · rw [Bytes.value, value, numberAt, numberAt, numberAt, Nat.mul_zero, Nat.add_zero,
        UInt8.ofNat_toNat]

/-- Bytes that can be loaded one by one lie inside the memory. -/
theorem le_of_loadEach {bs : Bytes} (room : address.toNat + length ≤ 2 ^ 32) (some : 0 < length)
    (loaded : m.loadEach address length = .ok bs) : address.toNat + length ≤ m.size := by
  induction length generalizing address bs with
  | zero => cases some
  | succ length ih =>
    rw [loadEach] at loaded
    cases first : m.load address 1 with
    | error f =>
      rw [first] at loaded
      cases loaded
    | ok b =>
      rw [first] at loaded
      have inside := (load_eq_ok_iff.mp first).1
      rcases Nat.eq_zero_or_pos length with rfl | some
      · exact inside
      · cases others : m.loadEach (address + 1) length with
        | error f =>
          simp only [others] at loaded
          cases loaded
        | ok bs =>
          have next := toNat_add_one room some
          have further := ih (by omega) some others
          omega

/-- A load of several bytes is that of each, as long as their addresses do not run out. -/
theorem load_eq_ok_iff_loadEach (some : 0 < length) (room : address.toNat + length ≤ 2 ^ 32) :
    m.load address length = .ok n ↔ ∃ bs, m.loadEach address length = .ok bs ∧ bs.value = n := by
  constructor
  · intro loaded
    obtain ⟨inside, number⟩ := load_eq_ok_iff.mp loaded
    obtain ⟨bs, each, value⟩ := exists_loadEach room inside
    exact ⟨bs, each, value.trans number⟩
  · rintro ⟨bs, each, rfl⟩
    have inside := le_of_loadEach room some each
    obtain ⟨bs', each', value⟩ := exists_loadEach room inside
    cases each.symm.trans each'
    exact load_eq_ok_iff.mpr ⟨inside, value.symm⟩

/-- A number inside the memory can be stored byte by byte, and the memory is the same. -/
theorem storeEach_ofNat (room : address.toNat + length ≤ 2 ^ 32)
    (inside : address.toNat + length ≤ m.size) :
    m.storeEach address (Bytes.ofNat length n) = .ok (m.put address length n) := by
  induction length generalizing m address n with
  | zero => rfl
  | succ length ih =>
    have first : m.store address 1 (UInt8.ofNat n).toNat = .ok (m.put address 1 n) := by
      refine store_eq_ok_iff.mpr ⟨by omega, ?_⟩
      simp only [put, putNumber, UInt8.ofNat_toNat]
    rw [Bytes.ofNat, storeEach, first]
    show (m.put address 1 n).storeEach (address + 1) (Bytes.ofNat length (n / 256)) = _
    rcases Nat.eq_zero_or_pos length with rfl | some
    · rfl
    · have next := toNat_add_one room some
      rw [ih (by omega) (by rw [size_put]; omega), put, put, next]
      rfl

/-- Bytes that can be stored one by one lie inside the memory. -/
theorem le_of_storeEach {bs : Bytes} (room : address.toNat + bs.length ≤ 2 ^ 32) (some : bs ≠ [])
    (stored : m.storeEach address bs = .ok m') : address.toNat + bs.length ≤ m.size := by
  induction bs generalizing m address with
  | nil => exact absurd rfl some
  | cons b bs ih =>
    rw [storeEach] at stored
    cases first : m.store address 1 b.toNat with
    | error f =>
      rw [first] at stored
      cases stored
    | ok m₁ =>
      rw [first] at stored
      obtain ⟨inside, rfl⟩ := store_eq_ok_iff.mp first
      by_cases more : bs = []
      · rw [more]
        exact inside
      · have next := toNat_add_one room (List.length_pos_iff.mpr more)
        rw [List.length_cons] at room ⊢
        have further := ih (by omega) more stored
        rw [size_put] at further
        omega

/-- A store of several bytes is that of each, as long as their addresses do not run out. -/
theorem store_eq_ok_iff_storeEach (some : 0 < length) (room : address.toNat + length ≤ 2 ^ 32) :
    m.store address length n = .ok m' ↔ m.storeEach address (Bytes.ofNat length n) = .ok m' := by
  rw [store_eq_ok_iff]
  constructor
  · rintro ⟨inside, rfl⟩
    exact storeEach_ofNat room inside
  · intro each
    have count := Bytes.length_ofNat length n
    have inside := le_of_storeEach (by rwa [count]) (List.length_pos_iff.mp (by rwa [count])) each
    rw [count] at inside
    exact ⟨inside, Except.ok.inj ((storeEach_ofNat room inside).symm.trans each)⟩

/-! ## Histories -/

/-- A store that is to be made. -/
structure Store where
  address : Word
  length : Nat
  value : Nat

/-- Memory behind a store. One that fails has changed nothing. -/
def afterStore (m : Memory) (s : Store) : Memory :=
  match m.store s.address s.length s.value with
  | .ok m' => m'
  | .error _ => m

/-- Memory behind stores, the first of them first. -/
def afterStores (m : Memory) (stores : List Store) : Memory :=
  stores.foldl afterStore m

/-- The byte that a store leaves at an address, if it is in its range and the range is in memory. -/
def Store.leaves? (s : Store) (size a : Nat) : Option UInt8 :=
  if s.address.toNat + s.length ≤ size ∧ s.address.toNat ≤ a then
    (Bytes.ofNat s.length s.value)[a - s.address.toNat]?
  else none

/-- The byte that was left at an address by the last store that left one there. -/
def latest? (m : Memory) (stores : List Store) (a : Nat) : Option UInt8 :=
  (stores.reverse.findSome? fun s => s.leaves? m.size a).or m.bytes[a]?

/-- What a store leaves, whether it succeeds or not. -/
theorem afterStore_eq (m : Memory) (s : Store) :
    m.afterStore s =
      if s.address.toNat + s.length ≤ m.size then m.put s.address s.length s.value else m := by
  rw [afterStore, store]
  by_cases inside : s.address.toNat + s.length ≤ m.size
  · rw [if_pos (covers_iff.mpr inside), if_pos inside]
  · rw [if_neg (mt covers_iff.mp inside), if_neg inside]

/-- A store keeps the size. -/
theorem size_afterStore (m : Memory) (s : Store) : (m.afterStore s).size = m.size := by
  rw [afterStore_eq]
  split
  next => exact size_put ..
  next => rfl

/-- What one store does to the bytes. -/
theorem getElem?_afterStore (m : Memory) (s : Store) (a : Nat) :
    (m.afterStore s).bytes[a]? = (s.leaves? m.size a).or m.bytes[a]? := by
  rw [afterStore_eq, Store.leaves?]
  by_cases inside : s.address.toNat + s.length ≤ m.size
  · rw [if_pos inside]
    by_cases low : s.address.toNat ≤ a
    · rw [if_pos ⟨inside, low⟩]
      rcases Nat.lt_or_ge a (s.address.toNat + s.length) with high | beyond
      · have written := getElem?_putNumber_inside (n := s.value) low high inside
        rw [Bytes.getElem?_ofNat (by omega), Option.some_or]
        exact written
      · rw [List.getElem?_eq_none (by rw [Bytes.length_ofNat]; omega), Option.none_or]
        exact getElem?_putNumber_of_outside (.inr beyond)
    · rw [if_neg fun both => low both.2, Option.none_or]
      exact getElem?_putNumber_of_outside (.inl (Nat.lt_of_not_le low))
  · rw [if_neg inside, if_neg fun both => inside both.1, Option.none_or]

/-- As `size_afterStore`, for a history. -/
theorem size_afterStores (m : Memory) (stores : List Store) :
    (m.afterStores stores).size = m.size := by
  induction stores generalizing m with
  | nil => rfl
  | cons s stores ih => exact (ih _).trans (size_afterStore m s)

/-- What stores do to the bytes: the last one that left something is what counts. -/
theorem getElem?_afterStores (m : Memory) (stores : List Store) (a : Nat) :
    (m.afterStores stores).bytes[a]? = m.latest? stores a := by
  induction stores generalizing m with
  | nil => rfl
  | cons s stores ih =>
    -- The first store is the last to be asked, in front of memory as it was.
    rw [afterStores, List.foldl_cons, ← afterStores, ih, latest?, latest?, size_afterStore,
      getElem?_afterStore, List.reverse_cons, List.findSome?_append, Option.or_assoc,
      List.findSome?_singleton]

end Memory

/-- A store instruction makes its store, or it fails and leaves memory as it was. -/
theorem Machine.memory_step_of_store {η : Type} {m : Machine η} {op : StoreOp} {rs1 rs2 : Reg}
    {offset : Word} (fetch : m.fetch = .ok (.store op rs1 rs2 offset)) (h : TrapHandler η) :
    (m.step h).2.memory = m.memory.afterStore
      ⟨m.regs[rs1] + offset, op.width, m.regs[rs2].toNat⟩ := by
  let i : Instr := .store op rs1 rs2 offset
  by_cases covered : m.memory.covers (m.regs[rs1] + offset) op.width = true
  · have effect :
        i.effect m.pc m.regs m.memory = .ok (.store (m.regs[rs1] + offset) op.width m.regs[rs2]) :=
      if_pos covered
    have stored :
        (m.step h).2.memory = m.memory.put (m.regs[rs1] + offset) op.width m.regs[rs2].toNat :=
      congrArg (·.2.2.1) (step_of_fetch fetch effect).2
    exact stored.trans
      ((Memory.afterStore_eq ..).trans (if_pos (Memory.covers_iff.mp covered))).symm
  · have fails : i.effect m.pc m.regs m.memory = .error (.access (m.regs[rs1] + offset) op.width) :=
      if_neg covered
    have kept : (m.step h).2.memory = m.memory := by
      rw [step_of_effect_error fetch fails]
      exact congrArg (·.2.2.1) (m.noteIfVerbose_status _)
    exact kept.trans
      ((Memory.afterStore_eq ..).trans (if_neg (mt Memory.covers_iff.mpr covered))).symm

namespace Memory

/-- Accesses of several bytes agree with those of single bytes.

* A load or a store succeeds exactly if every byte of its range is in memory, with no way around
  from the end of the address space to its beginning, and fails as a whole otherwise. One that
  succeeds is that of each of the bytes, lowest first.
* Behind stores of any lengths at any addresses, those that fail among them, memory has its size,
  every address has the byte that was last stored to it, and so has every load.
* Such a store is what a store instruction makes of memory, whether its step succeeds or fails. -/
theorem accesses_agree_with_bytes :
    (∀ (m : Memory) (address : Word) (length n : Nat), 0 < length →
      ((∃ v, m.load address length = .ok v) ↔ ∀ k < length, address.toNat + k < m.size) ∧
      ((∃ m', m.store address length n = .ok m') ↔ ∀ k < length, address.toNat + k < m.size) ∧
      ((¬ ∀ k < length, address.toNat + k < m.size) →
        m.load address length = .error (.access address length) ∧
          m.store address length n = .error (.access address length) ∧
          m.afterStore ⟨address, length, n⟩ = m) ∧
      (address.toNat + length ≤ 2 ^ 32 →
        (∀ v, m.load address length = .ok v ↔ ∃ bs,
          m.loadEach address length = .ok bs ∧ bs.value = v) ∧
        ∀ m', m.store address length n = .ok m' ↔
          m.storeEach address (Bytes.ofNat length n) = .ok m')) ∧
    (∀ (m : Memory) (stores : List Store), (m.afterStores stores).size = m.size ∧
      (∀ a, (m.afterStores stores).bytes[a]? = m.latest? stores a) ∧
      ∀ address length v, (m.afterStores stores).load address length = .ok v →
        ∃ bs : Bytes, bs.length = length ∧ bs.value = v ∧
          ∀ k < length, bs[k]? = m.latest? stores (address.toNat + k)) ∧
    (∀ (η : Type) (h : TrapHandler η) (m : Machine η) (op : StoreOp) (rs1 rs2 : Reg)
      (offset : Word), m.fetch = .ok (.store op rs1 rs2 offset) →
      (m.step h).2.memory = m.memory.afterStore
        ⟨m.regs[rs1] + offset, op.width, m.regs[rs2].toNat⟩) := by
  refine ⟨?bytes, ?history, fun η h m op rs1 rs2 offset fetch =>
    Machine.memory_step_of_store fetch h⟩
  case bytes =>
    intro m address length n some
    rw [← add_le_size_iff some]
    refine ⟨?_, ?_, ?_, fun room =>
      ⟨fun v => load_eq_ok_iff_loadEach some room, fun m' => store_eq_ok_iff_storeEach some room⟩⟩
    · simp only [load_eq_ok_iff, exists_and_left, exists_eq', and_true]
    · simp only [store_eq_ok_iff, exists_and_left, exists_eq', and_true]
    · intro outside
      have uncovered := mt covers_iff.mp outside
      exact ⟨if_neg uncovered, if_neg uncovered, (afterStore_eq ..).trans (if_neg outside)⟩
  case history =>
    intro m stores
    refine ⟨size_afterStores m stores, getElem?_afterStores m stores, ?_⟩
    intro address length v loaded
    obtain ⟨bs, count, same, value⟩ := exists_bytes_of_load loaded
    refine ⟨bs, count, value, fun k lt => ?_⟩
    rw [← same k lt, getElem?_afterStores]

/-- Two bytes over four, one over these, and one store in between that does not fit. -/
def overlapping : List Store :=
  [⟨2, 4, 0x44332211⟩, ⟨3, 2, 0xbbaa⟩, ⟨6, 4, 0x99999999⟩, ⟨4, 1, 0xcc⟩]

/-- A machine at `sh ra, 0(ra)`, which is about to store the two in `ra` at address two. -/
def storing : Machine Unit where
  regs := Registers.write (Vector.replicate 32 0) .ra 2
  memory := ⟨(Word.toBytes 0x00109023).toArray⟩
  service := ()

/-- Stores that overlap, a load that takes bytes of several of them, and one that would wrap around.
-/
theorem accesses_agree_overlapping :
    ((zeros 8).load 0xfffffffe 4 = .error (.access 0xfffffffe 4)) ∧
    (∃ bs, (zeros 8).loadEach 4 4 = .ok bs ∧ bs.value = 0) ∧
    ((zeros 8).afterStores overlapping).load 2 4 = .ok 0x44ccaa11 ∧
    (∃ bs : Bytes, bs.length = 4 ∧ bs.value = 0x44ccaa11 ∧
      ∀ k < 4, bs[k]? = (zeros 8).latest? overlapping (2 + k)) ∧
    storing.fetch = .ok (.store .sh .ra .ra 0) ∧
    (storing.step .resuming).2.memory = storing.memory.afterStore ⟨2, 2, 2⟩ := by
  obtain ⟨bytes, history, instruction⟩ := accesses_agree_with_bytes
  have outside : ¬ ∀ k < 4, (0xfffffffe : Word).toNat + k < (zeros 8).size := by decide
  have whole : (zeros 8).load 4 4 = .ok 0 := by rfl
  have loaded : ((zeros 8).afterStores overlapping).load 2 4 = .ok 0x44ccaa11 := by rfl
  have fetch : storing.fetch = .ok (.store .sh .ra .ra 0) := by rfl
  obtain ⟨-, -, fails, -⟩ := bytes (zeros 8) 0xfffffffe 4 0 (by decide)
  obtain ⟨-, -, -, each⟩ := bytes (zeros 8) 4 4 0 (by decide)
  exact ⟨(fails outside).1, ((each (by decide)).1 0).mp whole, loaded,
    (history _ _).2.2 2 4 _ loaded, fetch, instruction Unit .resuming storing .sh .ra .ra 0 fetch⟩

end Memory

end BareC
