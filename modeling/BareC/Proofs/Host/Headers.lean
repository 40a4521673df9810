import BareC.Host.Headers
import BareC.Proofs.Host.Fetching

/-!
# Serving headers from memory

A host that holds its headers in memory serves each of them in full, portion by portion, and however
often it is asked (`serves`, `offers`), if only its portions are never empty and are reported as
they are.

`Faithful` has the two conditions, and both are needed: a store whose reads bring nothing looks like
the end of a header, and one that misreports what it read hands over other bytes. Headers by the
same name are the first of them. The bound on the length of a header is the one of fetching and is
asked for where contents are compared.
-/

namespace BareC.Headers

variable {h : Headers}

/-- A read brings something as long as something is left, and says how much. -/
structure Faithful (h : Headers) : Prop where
  brings : ∀ n, 0 < h.portion n
  reports : ∀ n, h.report n = n

/-- The front of a filled buffer is what it was filled with. -/
theorem take_fill {n : Nat} (buffer : Vector UInt8 n) {bytes : Bytes} (fits : bytes.length ≤ n) :
    (fill buffer bytes).toList.take bytes.length = bytes := by
  refine List.ext_getElem ?_ fun i _ inBytes => ?_
  · rw [List.length_take, Vector.length_toList, Nat.min_eq_left fits]
  · simp [fill, inBytes]

/-- What a read takes is taken from the header that is read. -/
theorem lookup_read (unread : List (Descriptor × Bytes)) (fd : Descriptor) (count : Nat) :
    (unread.map fun (d, b) => (d, if d == fd then b.drop count else b)).lookup fd =
      (unread.lookup fd).map (List.drop count) := by
  induction unread with
  | nil => rfl
  | cons entry unread ih =>
    obtain ⟨d, b⟩ := entry
    rw [List.map_cons, List.lookup_cons, List.lookup_cons, ih]
    by_cases same : fd = d
    · simp [same]
    · rw [beq_false_of_ne same]

/-- A read brings what comes next and leaves what comes behind. -/
theorem exists_read (faithful : h.Faithful) {fd : Descriptor} {bytes : Bytes} {s : Session}
    (unread : s.unread.lookup fd = some bytes) (buffer : Vector UInt8 readBuffer) :
    ∃ (count : Nat) (s' : Session), 0 < count ∧ count ≤ readBuffer ∧
      s'.unread.lookup fd = some (bytes.drop count) ∧
      h.host.read fd buffer s =
        ((((bytes.take count).length : Int), fill buffer (bytes.take count)), s') := by
  let count := min readBuffer (h.portion s.reads)
  let s' : Session :=
    { s with
      unread := s.unread.map fun (d, b) =>
      (d, if d == fd then b.drop (bytes.take count).length else b)
      reads := s.reads + 1 }
  refine ⟨count, s', Nat.lt_min.mpr ⟨by decide, faithful.brings _⟩, Nat.min_le_left .., ?_, ?_⟩
  · rw [lookup_read, unread, List.length_take, Option.map_some, ← List.drop_eq_drop_min]
  · rw [← faithful.reports, host]
    simp only [unread]
    rfl

/-- What is left of an open header is read portion by portion. -/
theorem exists_portions (faithful : h.Faithful) {fd : Descriptor} {bytes : Bytes} {s : Session}
    (unread : s.unread.lookup fd = some bytes) (buffer : Vector UInt8 readBuffer) :
    ∃ ps last s', Portions h.host fd buffer s (ps ++ [last]) s' ∧ (∀ p ∈ ps, 0 < p.answer) ∧
      last.answer ≤ 0 ∧ portionBytes ps = bytes := by
  obtain ⟨count, s₁, some, fits, rest, read⟩ := exists_read faithful unread buffer
  by_cases none : bytes = []
  · subst none
    rw [List.take_nil] at read
    exact ⟨[], _, s₁, .cons read .nil, List.forall_mem_nil _, Int.le_refl 0, rfl⟩
  · have brings : 0 < (bytes.take count).length := by
      rw [List.length_take]
      exact Nat.lt_min.mpr ⟨some, List.length_pos_iff.mpr none⟩
    have shorter : (bytes.drop count).length < bytes.length := by
      rw [List.length_drop]
      exact Nat.sub_lt (List.length_pos_iff.mpr none) some
    obtain ⟨ps, last, s', portions, bring, ends, all⟩ := exists_portions faithful rest _
    refine ⟨_ :: ps, last, s', .cons read portions,
      List.forall_mem_cons.mpr ⟨Int.natCast_pos.mpr brings, bring⟩, ends, ?_⟩
    have short : (bytes.take count).length ≤ readBuffer :=
      Nat.le_trans (List.length_take_le ..) fits
    rw [portionBytes, List.flatMap_cons, ← portionBytes, all, Portion.bytes, Int.toNat_natCast,
      Nat.min_eq_left short, take_fill _ short, List.take_append_drop]
termination_by bytes.length

variable {s : Session}

/-- A header that is held is served in full. -/
theorem serves (faithful : h.Faithful) {path contents : Bytes}
    (held : h.contents.lookup path = some contents) (valid : 0 ≤ s.next) :
    h.host.Serves path contents s := by
  have opened : h.host.openPath path .readOnly s =
      (s.next, { s with unread := (s.next, contents) :: s.unread, next := s.next + 1 }) := by
    simp only [host, held]
  have unread : ((s.next, contents) :: s.unread).lookup s.next = some contents :=
    List.lookup_cons_self
  obtain ⟨ps, last, s', portions, bring, ends, all⟩ :=
    exists_portions (s := { s with unread := _ :: s.unread, next := s.next + 1 }) faithful unread
      (.replicate readBuffer 0)
  exact ⟨s.next, _, ps, last, s', opened, valid, portions, bring, ends, all⟩

/-! ## However often -/

/-- Reading hands out no descriptor. -/
theorem next_of_portions {fd : Descriptor} {buffer : Vector UInt8 readBuffer} {s' : Session}
    {ps : List Portion} (portions : Portions h.host fd buffer s ps s') : s'.next = s.next := by
  induction portions with
  | nil => rfl
  | @cons buffer s answer buffer' s₁ _ _ read _ ih =>
    refine ih.trans ?_
    rw [host] at read
    cases unread : s.unread.lookup fd <;> simp only [unread] at read <;> cases read <;> rfl

/-- No number of a descriptor is given out again. -/
theorem next_le_fetch (path : Bytes) : s.next ≤ (Header.fetch h.host path s).2.next := by
  obtain ⟨v, s', happens, orderly, rfl⟩ := Header.exists_visit h.host path s
  rw [Header.fetch_of_visit happens orderly]
  have next_le_open : ∀ {path answer s'}, h.host.openPath path .readOnly s = (answer, s') →
      s.next ≤ s'.next := by
    intro path answer s' opened
    rw [host] at opened
    cases held : h.contents.lookup path <;> simp only [held] at opened <;> cases opened
    · exact Int.le_refl _
    · exact Int.le_add_one (Int.le_refl _)
  cases happens with
  | refused opened => exact next_le_open opened
  | readOut opened portions closed =>
    cases closed
    exact next_of_portions portions ▸ next_le_open opened

/-- Whatever has been fetched, the headers are there in full. -/
theorem offers (faithful : h.Faithful) (valid : 0 ≤ s.next) : h.host.Offers h.contents s := by
  intro s' fetched path
  have still : 0 ≤ s'.next := by
    induction fetched with
    | refl => exact valid
    | tail _ last ih =>
      obtain ⟨path, rfl⟩ := last
      exact Int.le_trans ih (next_le_fetch path)
  split
  next contents held => exact serves faithful held still
  next missing =>
    have refused : h.host.openPath path .readOnly s' = (-1, s') := by simp only [host, missing]
    rw [refused]
    exact Int.negSucc_lt_zero 0

end BareC.Headers
