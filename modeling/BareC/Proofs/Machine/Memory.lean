import BareC.Machine.Memory
import Mathlib.Algebra.Group.Int.Defs
import Mathlib.Algebra.Group.Nat.Defs

/-!
# Numbers in memory

What a store leaves behind: the bytes outside of it as they were, and at its own place the number
that was stored. Loads see nothing but the bytes they cover, so both facts are first stated of bytes
and then carried over to numbers.

Addresses are numbers here, so no access wraps around at the last of them. Alignment is not asked
for: the machine has none.
-/

namespace BareC

/-- Reading back the bytes of a number gives what fits in them. -/
theorem Bytes.value_ofNat (count n : Nat) : (Bytes.ofNat count n).value = n % 256 ^ count := by
  induction count generalizing n with
  | zero => simp [Bytes.ofNat, Bytes.value, Nat.mod_one]
  | succ count ih =>
    rw [Bytes.ofNat, Bytes.value, ih, Nat.pow_succ', Nat.mod_mul, UInt8.toNat_ofNat']

/-- The bytes of a number are its digits to the base 256. -/
theorem Bytes.getElem?_ofNat {count k : Nat} (lt : k < count) (n : Nat) :
    (Bytes.ofNat count n)[k]? = some (UInt8.ofNat (n / 256 ^ k)) := by
  induction count generalizing k n with
  | zero => cases lt
  | succ count ih =>
    cases k with
    | zero => rw [ofNat, List.getElem?_cons_zero, Nat.pow_zero, Nat.div_one]
    | succ k =>
      rw [ofNat, List.getElem?_cons_succ, ih (Nat.lt_of_succ_lt_succ lt), Nat.div_div_eq_div_mul,
        Nat.pow_succ']

namespace Memory

/-! ## Bytes -/

/-- Putting a number keeps the size. -/
@[simp]
theorem size_putNumber (bytes : Array UInt8) (i n length : Nat) :
    (putNumber bytes i n length).size = bytes.size := by
  induction length generalizing bytes i n with
  | zero => rfl
  | succ length ih => rw [putNumber, ih, Array.size_setIfInBounds]

/-- Putting a number leaves the bytes outside its place. -/
theorem getElem?_putNumber_of_outside {bytes : Array UInt8} {i n length j : Nat}
    (h : j < i ∨ i + length ≤ j) : (putNumber bytes i n length)[j]? = bytes[j]? := by
  induction length generalizing bytes i n with
  | zero => rfl
  | succ length ih =>
    rw [putNumber, ih (by omega), Array.getElem?_setIfInBounds_ne (by omega)]

/-- A number in memory depends on its own bytes only. -/
theorem numberAt_congr {bytes bytes' : Array UInt8} {i length : Nat}
    (h : ∀ j, i ≤ j → j < i + length → bytes[j]? = bytes'[j]?) :
    numberAt bytes i length = numberAt bytes' i length := by
  induction length generalizing i with
  | zero => rfl
  | succ length ih =>
    have rest : ∀ j, i + 1 ≤ j → j < i + 1 + length → bytes[j]? = bytes'[j]? := by
      intro j low high
      exact h j (by omega) (by omega)
    rw [numberAt, numberAt, h i (by omega) (by omega), ih rest]

/-- A number that is put is read back, up to its length. -/
theorem numberAt_putNumber {bytes : Array UInt8} {i n length : Nat}
    (h : i + length ≤ bytes.size) :
    numberAt (putNumber bytes i n length) i length = n % 256 ^ length := by
  induction length generalizing bytes i n with
  | zero => simp [numberAt, Nat.mod_one]
  | succ length ih =>
    have first : (putNumber bytes i n (length + 1))[i]? = some (UInt8.ofNat n) := by
      rw [putNumber, getElem?_putNumber_of_outside (by omega),
        Array.getElem?_setIfInBounds_self_of_lt (by omega)]
    have rest :
        numberAt (putNumber (bytes.setIfInBounds i (UInt8.ofNat n)) (i + 1) (n / 256) length)
        (i + 1) length = n / 256 % 256 ^ length :=
      ih (by simp only [Array.size_setIfInBounds]; omega)
    rw [numberAt, first, putNumber, rest, Nat.pow_succ', Nat.mod_mul, Option.getD_some,
      UInt8.toNat_ofNat']

/-- The number that a code's bytes stand for where it lies in memory. -/
theorem numberAt_eq_value {bytes : Array UInt8} {code : Bytes} {i : Nat}
    (h : ∀ j, j < code.length → bytes[i + j]? = code[j]?) :
    numberAt bytes i code.length = code.value := by
  induction code generalizing i with
  | nil => rfl
  | cons b code ih =>
    have rest : ∀ j, j < code.length → bytes[i + 1 + j]? = code[j]? := by
      intro j hj
      have := h (j + 1) (by simp only [List.length_cons]; omega)
      rwa [List.getElem?_cons_succ, show i + (j + 1) = i + 1 + j by omega] at this
    have first := h 0 (by simp)
    rw [Nat.add_zero, List.getElem?_cons_zero] at first
    rw [List.length_cons, numberAt, first, ih rest, Bytes.value, Option.getD_some]

/-! ## Words -/

/-- The word at an address. -/
def wordAt (m : Memory) (a : Nat) : Word :=
  BitVec.ofNat 32 (numberAt m.bytes a 4)

/-- As `size_putNumber`, at an address. -/
@[simp]
theorem size_put (m : Memory) (address : Word) (length n : Nat) :
    (m.put address length n).size = m.size :=
  size_putNumber ..

/-- A word that is put is read back. -/
theorem wordAt_put_self {m : Memory} {address v : Word} (h : address.toNat + 4 ≤ m.size) :
    (m.put address 4 v.toNat).wordAt address.toNat = v := by
  have back : numberAt (putNumber m.bytes address.toNat v.toNat 4) address.toNat 4 = v.toNat :=
    (numberAt_putNumber h).trans (Nat.mod_eq_of_lt v.isLt)
  simp only [wordAt, put, back, BitVec.ofNat_toNat, BitVec.setWidth_eq]

/-- A word apart from one that is put stays. -/
theorem wordAt_put_of_disjoint {m : Memory} {address : Word} {n a : Nat}
    (h : a + 4 ≤ address.toNat ∨ address.toNat + 4 ≤ a) :
    (m.put address 4 n).wordAt a = m.wordAt a := by
  apply congrArg (BitVec.ofNat 32)
  apply numberAt_congr
  intro j low high
  exact getElem?_putNumber_of_outside (by omega)

/-- A load inside the memory succeeds. -/
theorem load_of_le {m : Memory} {address : Word} {length : Nat}
    (h : address.toNat + length ≤ m.size) :
    m.load address length = .ok (numberAt m.bytes address.toNat length) := by
  rw [load, covers, if_pos (by simpa using h)]

/-! ## Parts of memory that stay -/

/-- The two memories have the same bytes at the addresses in a set. -/
structure SameOn (p : Nat → Prop) (m m' : Memory) : Prop where
  size : m'.size = m.size
  bytes : ∀ a, p a → m'.bytes[a]? = m.bytes[a]?

namespace SameOn

variable {p q : Nat → Prop} {m m' m'' : Memory}

/-- A memory is the same as itself everywhere. -/
theorem refl (p : Nat → Prop) (m : Memory) : SameOn p m m :=
  ⟨rfl, fun _ _ => rfl⟩

/-- Sameness on some addresses is passed on. -/
theorem trans (h : SameOn p m m') (h' : SameOn p m' m'') : SameOn p m m'' :=
  ⟨h'.size.trans h.size, fun a ha => (h'.bytes a ha).trans (h.bytes a ha)⟩

/-- Memories that are the same on some addresses are on fewer. -/
theorem mono (h : SameOn q m m') (hpq : ∀ a, p a → q a) : SameOn p m m' :=
  ⟨h.size, fun a ha => h.bytes a (hpq a ha)⟩

/-- Memories that are the same on some addresses have the same words there. -/
theorem wordAt (h : SameOn p m m') {a : Nat} (ha : ∀ j, a ≤ j → j < a + 4 → p j) :
    m'.wordAt a = m.wordAt a := by
  apply congrArg (BitVec.ofNat 32)
  apply numberAt_congr
  intro j low high
  exact h.bytes j (ha j low high)

/-- A store changes nothing outside of its own bytes. -/
theorem put {address : Word} {length n : Nat}
    (h : ∀ a, p a → a < address.toNat ∨ address.toNat + length ≤ a) :
    SameOn p m (m.put address length n) :=
  ⟨size_put .., fun a ha => getElem?_putNumber_of_outside (h a ha)⟩

end SameOn

/-! ## Code in memory -/

/-- Some code lies at address zero. -/
def Holds (m : Memory) (code : Bytes) : Prop :=
  code.length ≤ m.size ∧ ∀ a, a < code.length → m.bytes[a]? = code[a]?

/-- Code is held while its bytes stay the same. -/
theorem holds_of_sameOn {m m' : Memory} {code : Bytes} (h : m.Holds code)
    (same : SameOn (· < code.length) m m') : m'.Holds code :=
  ⟨same.size ▸ h.1, fun a ha => (same.bytes a ha).trans (h.2 a ha)⟩

/-- Code that was placed is held. -/
theorem holds_of_place {m m' : Memory} {code : Bytes} (h : m.place code = .ok m') :
    m'.Holds code ∧ m'.size = m.size := by
  unfold place at h
  split at h
  next => cases h
  next fits =>
    cases h
    refine ⟨⟨?_, ?_⟩, ?_⟩
    · simp only [size, Array.size_append, List.size_toArray]; omega
    · intro a ha
      rw [Array.getElem?_append_left (by simpa using ha), List.getElem?_toArray]
    · simp only [size, Array.size_append, List.size_toArray, Array.size_extract] at fits ⊢
      omega

/-- Code in fresh memory has zeros behind it. -/
theorem place_zeros {size : Nat} {code : Bytes} (fits : code.length ≤ size) :
    (zeros size).place code =
      .ok ⟨(code ++ List.replicate (size - code.length) 0).toArray⟩ := by
  have size_zeros : (zeros size).size = size := Array.size_replicate
  rw [place, if_neg (by omega), size_zeros]
  simp [zeros, ← List.toArray_replicate]

/-- The bytes of the code are what the code's part of memory reads as. -/
theorem Holds.slice?_eq {m : Memory} {code : Bytes} (h : m.Holds code) :
    m.slice? 0 code.length = some code := by
  unfold slice?
  rw [if_neg (by simpa using h.1)]
  congr 1
  apply List.ext_getElem?
  intro a
  rw [Array.getElem?_toList, Array.getElem?_extract]
  split
  next ha => rw [Nat.zero_add, h.2 a (by omega)]
  next ha => rw [List.getElem?_eq_none]; have := h.1; simp only [size] at this; omega

end Memory

end BareC
