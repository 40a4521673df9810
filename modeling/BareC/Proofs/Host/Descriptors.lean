import BareC.Host.Disk
import BareC.Proofs.Directives.Visits
import BareC.Proofs.Host.Alike
import Mathlib.Data.List.Nodup
import Mathlib.Data.List.Perm.Subperm

/-!
# Open files and their descriptors

The table of open files has holes, which are filled from the lowest on. What it comes to is told
without it: by the calls that have been answered, a descriptor is live if an open has returned it
and no close has been asked for it since. These are the descriptors that the table has a file for,
at any time in any session (`Session.tracks`), whatever else happens to the system in between.

What the system answers to an open is a parameter (`Disk.settle`): it may be refused at any time,
and the file it is granted with may be any. Between two calls of a session everything but the table
may change.

The numbers that are returned are the lowest that are free, from the first behind the standard ones.
Descriptors of other processes, limits on their number and the meaning of the standard ones are not
part of this.
-/

namespace BareC.Disk

variable {d d' : Disk} {fd k : Descriptor} {f : OpenFile}

/-! ## Slots -/

/-- The slots of the table are counted from the first descriptor. -/
theorem slot?_eq_some_iff {i : Nat} : slot? fd = some i ↔ fd = firstDescriptor + i := by
  have number : ∀ n : Int, (if n < 3 then none else some (n - 3).toNat) = some i ↔ n = 3 + i := by
    intro n
    split
    next low =>
      constructor
      · exact nofun
      · intro eq
        omega
    next high =>
      rw [Option.some_inj]
      omega
  exact number fd

/-- The file open under a descriptor is the one in its slot. -/
theorem openFile?_slot (d : Disk) (i : Nat) :
    d.openFile? (firstDescriptor + i) = d.table[i]?.join := by
  have slot : slot? (firstDescriptor + i) = some i := slot?_eq_some_iff.mpr rfl
  rw [openFile?, slot]
  rfl

/-- A live descriptor is that of a slot. -/
theorem exists_slot_of_openFile? (found : d.openFile? fd = some f) :
    ∃ i : Nat, fd = firstDescriptor + i ∧ i < d.table.size := by
  obtain ⟨i, slot, file⟩ := Option.bind_eq_some_iff.mp found
  refine ⟨i, slot?_eq_some_iff.mp slot, ?_⟩
  by_contra outside
  rw [Array.getElem?_eq_none (Nat.not_lt.mp outside)] at file
  cases file

/-- Only the table says what is open. -/
theorem openFile?_congr (same : d'.table = d.table) (k : Descriptor) :
    d'.openFile? k = d.openFile? k := by
  rw [openFile?, openFile?, same]

/-- Where one slot of the table is changed, one descriptor is. -/
theorem openFile?_of_slots {i : Nat} {file? : Option OpenFile}
    (slots : ∀ j : Nat, d'.table[j]?.join = if j = i then file? else d.table[j]?.join)
    (k : Descriptor) :
    d'.openFile? k = if k = firstDescriptor + i then file? else d.openFile? k := by
  cases slot : slot? k with
  | none =>
    have other : k ≠ firstDescriptor + i := by
      intro eq
      rw [slot?_eq_some_iff.mpr eq] at slot
      cases slot
    rw [if_neg other, openFile?, openFile?, slot]
    rfl
  | some j =>
    rw [slot?_eq_some_iff.mp slot, openFile?_slot, openFile?_slot, slots j]
    by_cases same : j = i
    · rw [if_pos same, if_pos (by rw [same])]
    · have other : firstDescriptor + (j : Int) ≠ firstDescriptor + i := by
        intro eq
        exact same (Int.ofNat_inj.mp (Int.add_left_cancel eq))
      rw [if_neg same, if_neg other]

/-- Changing one slot of a table leaves the others. -/
theorem join_setIfInBounds {table : Array (Option OpenFile)} {i : Nat} (inside : i < table.size)
    (file? : Option OpenFile) (j : Nat) :
    (table.setIfInBounds i file?)[j]?.join = if j = i then file? else table[j]?.join := by
  by_cases same : j = i
  · subst same
    rw [if_pos rfl, Array.getElem?_setIfInBounds_self_of_lt inside]
    rfl
  · rw [if_neg same, Array.getElem?_setIfInBounds_ne (Ne.symm same)]

/-! ## Changes of the table -/

/-- A file is put into a slot that is free, below which none is. -/
theorem install_slots (d : Disk) (f : OpenFile) :
    ∃ i : Nat, (d.install f).1 = firstDescriptor + i ∧ d.table[i]?.join = none ∧
      (∀ j < i, (d.table[j]?.join).isSome) ∧
      ∀ j : Nat, (d.install f).2.table[j]?.join = if j = i then some f else d.table[j]?.join := by
  unfold install
  split
  next i found =>
    obtain ⟨inside, free, before⟩ := Array.findIdx?_eq_some_iff_getElem.mp found
    refine ⟨i, rfl, ?_, ?_, join_setIfInBounds inside (some f)⟩
    · rw [Array.getElem?_eq_getElem inside, Option.isNone_iff_eq_none.mp free]
      rfl
    · intro j lower
      have taken := before j lower
      rw [Array.getElem?_eq_getElem (Nat.lt_trans lower inside), Option.join_some]
      exact Option.isSome_iff_ne_none.mpr fun none => taken (Option.isNone_iff_eq_none.mpr none)
  next full =>
    have taken := Array.findIdx?_eq_none_iff.mp full
    refine ⟨d.table.size, rfl, ?_, ?_, ?_⟩
    · rw [Array.getElem?_eq_none (Nat.le_refl _)]
      rfl
    · intro j inside
      have here := taken d.table[j] (Array.getElem_mem inside)
      rw [Array.getElem?_eq_getElem inside, Option.join_some]
      exact Option.isNone_eq_false_iff.mp here
    · intro j
      rw [Array.getElem?_push]
      split <;> rfl

/-- A new descriptor is the lowest from the first on that has no file; it is given the file, and the
others keep theirs. -/
theorem install_openFile? (d : Disk) (f : OpenFile) :
    firstDescriptor ≤ (d.install f).1 ∧ d.openFile? (d.install f).1 = none ∧
      (∀ k, firstDescriptor ≤ k → k < (d.install f).1 → (d.openFile? k).isSome) ∧
      ∀ k, (d.install f).2.openFile? k = if k = (d.install f).1 then some f else d.openFile? k := by
  obtain ⟨i, at_slot, free, below, slots⟩ := install_slots d f
  rw [at_slot]
  refine ⟨Int.le_add_of_nonneg_right (Int.natCast_nonneg i), (openFile?_slot d i).trans free, ?_,
    openFile?_of_slots slots⟩
  intro k first lower
  obtain ⟨j, rfl⟩ := Int.le.dest first
  have inside : j < i := Int.ofNat_lt.mp (Int.lt_of_add_lt_add_left lower)
  rw [openFile?_slot]
  exact below j inside

/-- Moving a file's position leaves it open, and leaves the others alone. -/
theorem moveTo_openFile? (found : d.openFile? fd = some f) (position : Nat) (k : Descriptor) :
    (d.moveTo fd f position).openFile? k = if k = fd then some { f with position }
    else d.openFile? k := by
  obtain ⟨i, rfl, inside⟩ := exists_slot_of_openFile? found
  have slot : slot? (firstDescriptor + i) = some i := slot?_eq_some_iff.mpr rfl
  have moved : (d.moveTo (firstDescriptor + i) f position).table =
      d.table.setIfInBounds i (some { f with position }) := by
    rw [moveTo, slot]
  exact openFile?_of_slots (fun j => moved ▸ join_setIfInBounds inside _ j) k

/-- Moving through a file opens none and closes none. -/
theorem moveTo_isSome (found : d.openFile? fd = some f) (position : Nat) (k : Descriptor) :
    ((d.moveTo fd f position).openFile? k).isSome = (d.openFile? k).isSome := by
  rw [moveTo_openFile? found]
  by_cases same : k = fd
  · rw [if_pos same, same, found]
    rfl
  · rw [if_neg same]

/-- Opening a file leaves the contents of all files. -/
theorem install_files (d : Disk) (f : OpenFile) : (d.install f).2.files = d.files := by
  unfold install
  split <;> rfl

/-- A descriptor that is not open cannot be closed. -/
theorem close_of_none (free : d.openFile? fd = none) : d.close fd = (-1, d) := by
  unfold close
  rw [free]
  split
  next eq => cases eq
  next => rfl

/-- A descriptor that has a file is closed, and the others keep theirs. -/
theorem close_of_some (found : d.openFile? fd = some f) :
    ∃ d', d.close fd = (0, d') ∧ d'.files = d.files ∧
      ∀ k, d'.openFile? k = if k = fd then none else d.openFile? k := by
  obtain ⟨i, rfl, inside⟩ := exists_slot_of_openFile? found
  have slot : slot? (firstDescriptor + i) = some i := slot?_eq_some_iff.mpr rfl
  refine ⟨{ d with table := d.table.setIfInBounds i none }, ?_, rfl,
    openFile?_of_slots (join_setIfInBounds inside none)⟩
  rw [close, slot, found]

/-! ## Files -/

/-- Writing contents opens and closes nothing. -/
@[simp] theorem setContents_table (d : Disk) (p : Place) (bytes : Array UInt8) :
    (d.setContents p bytes).table = d.table := by
  cases p <;> rfl

/-- Only the files say what their contents are. -/
theorem contents?_congr (same : d'.files = d.files) (p : Place) :
    d'.contents? p = d.contents? p := by
  cases p with
  | outside => rfl
  | inside names => rw [contents?, contents?, same]

/-- Taking out the entries of one key leaves those of another. -/
theorem lookup_filter_of_ne {α β : Type} [BEq α] [LawfulBEq α] {a b : α} (other : a ≠ b)
    (entries : List (α × β)) : (entries.filter (·.1 != b)).lookup a = entries.lookup a := by
  induction entries with
  | nil => rfl
  | cons entry entries ih =>
    obtain ⟨key, value⟩ := entry
    by_cases same : key = b
    · rw [List.filter_cons_of_neg (by simp [same]), List.lookup_cons,
        beq_false_of_ne (same ▸ other)]
      exact ih
    · rw [List.filter_cons_of_pos (by simp [same]), List.lookup_cons, List.lookup_cons, ih]

/-- Writing the contents of one place leaves those of another. -/
theorem setContents_contents? {p q : Place} (other : p ≠ q) (bytes : Array UInt8) :
    (d.setContents q bytes).contents? p = d.contents? p := by
  cases q with
  | outside => rfl
  | inside names =>
    cases p with
    | outside => rfl
    | inside names' =>
      have apart : names' ≠ names := fun eq => other (congrArg Place.inside eq)
      have front : (names' == names) = false := beq_false_of_ne apart
      simp only [setContents, contents?, List.lookup_cons, front, lookup_filter_of_ne apart]

/-- What is granted is the file at the end of the path, from its beginning. It is only emptied if
that is asked for, and nothing else becomes of the files there are. -/
theorem grant?_spec {path : Bytes} {flags : OpenFlags}
    (granted : d.grant? path flags = some (f, d')) :
    d.find? path = some f.place ∧ f.position = 0 ∧ d'.table = d.table ∧
      ∀ p bytes, d.contents? p = some bytes → (p = f.place → flags &&& .truncate = 0) →
        d'.contents? p = some bytes := by
  simp only [grant?] at granted
  split at granted
  next => cases granted
  next place found =>
    have leads : d.find? path = some place := by
      split at found
      · cases found
      · exact found
    split at granted
    next => cases granted
    next =>
    split at granted
    next =>
      split at granted
      · cases granted
      · cases granted
        exact ⟨leads, rfl, rfl, fun _ _ there _ => there⟩
    next =>
    split at granted
    next old there =>
      cases granted
      refine ⟨leads, rfl, by split <;> simp, ?_⟩
      intro p bytes kept spared
      split
      next truncated =>
        have other : p ≠ place := fun eq => (bne_iff_ne.mp truncated) (spared eq)
        rw [setContents_contents? other, kept]
      next => exact kept
    next missing =>
      split at granted
      · cases granted
        refine ⟨leads, rfl, by simp, ?_⟩
        intro p bytes kept _
        have other : p ≠ place := by
          intro eq
          rw [eq, missing] at kept
          cases kept
        rw [setContents_contents? other, kept]
      · cases granted

/-- Whatever file the system answers with is opened under the lowest descriptor from the first on
that has none. The others keep theirs, and the files are as the system left them. -/
theorem settle_some (d : Disk) (f : OpenFile) (left : Disk) :
    ∃ fd d', d.settle (some (f, left)) = (fd, d') ∧
      (firstDescriptor ≤ fd ∧ d.openFile? fd = none ∧
        ∀ k, firstDescriptor ≤ k → k < fd → (d.openFile? k).isSome) ∧
      (∀ k, d'.openFile? k = if k = fd then some f else d.openFile? k) ∧ d'.files = left.files := by
  have same : ∀ k, ({ left with table := d.table } : Disk).openFile? k = d.openFile? k :=
    openFile?_congr rfl
  have installed := ({ left with table := d.table } : Disk).install_openFile? f
  simp only [same] at installed
  obtain ⟨first, free, below, files⟩ := installed
  exact ⟨_, _, rfl, ⟨first, free, below⟩, files, install_files _ f⟩

/-! ## What is asked of descriptors that are not open -/

/-- A descriptor that is not open cannot be read, the input apart. -/
theorem read_of_none {n : Nat} (free : d.openFile? fd = none) (other : fd ≠ standardInput)
    (buffer : Vector UInt8 n) : d.read fd buffer = ((-1, buffer), d) := by
  rw [read, if_neg other, free]

/-- As `read_of_none`, for writing and the two outputs. -/
theorem write_of_none (free : d.openFile? fd = none) (notOutput : fd ≠ standardOutput)
    (notErrors : fd ≠ standardError) (bytes : Bytes) : d.write fd bytes = (-1, d) := by
  rw [write, if_neg notOutput, if_neg notErrors, free]

/-- As `read_of_none`, for moving the position. -/
theorem seek_of_none (free : d.openFile? fd = none) (offset whence : Int) :
    d.seek fd offset whence = (-1, d) := by
  rw [seek, free]

/-! ## What leaves the table's descriptors as they are -/

/-- Reading opens and closes nothing. -/
theorem read_isSome {n : Nat} (fd : Descriptor) (buffer : Vector UInt8 n) (d : Disk)
    (k : Descriptor) : ((read fd buffer d).2.openFile? k).isSome = (d.openFile? k).isSome := by
  unfold read
  split
  next => rfl
  next =>
    split
    next => rfl
    next f found =>
      split
      next => rfl
      next =>
        split
        · rfl
        · exact moveTo_isSome found _ k

/-- As `read_isSome`, for writing. -/
theorem write_isSome (fd : Descriptor) (bytes : Bytes) (d : Disk) (k : Descriptor) :
    ((write fd bytes d).2.openFile? k).isSome = (d.openFile? k).isSome := by
  unfold write
  split
  next => rfl
  next =>
  split
  next => rfl
  next =>
    split
    next => rfl
    next f found =>
      split
      next => rfl
      next old _ =>
        split
        · rfl
        · have same :=
            openFile?_congr (setContents_table d f.place (overwrite old f.position bytes))
          exact (moveTo_isSome ((same fd).trans found) _ k).trans (congrArg Option.isSome (same k))

/-- As `read_isSome`, for moving a position. -/
theorem seek_isSome (fd : Descriptor) (offset whence : Int) (d : Disk) (k : Descriptor) :
    ((seek fd offset whence d).2.openFile? k).isSome = (d.openFile? k).isSome := by
  unfold seek
  split
  next f origin found _ =>
    have bounded : ∀ target : Int, ((if target < 0 || 0x8000000000000000 ≤ target then (-1, d)
        else (target, d.moveTo fd f target.toNat)).2.openFile? k).isSome =
          (d.openFile? k).isSome := by
      intro target
      split
      · rfl
      · exact moveTo_isSome found _ k
    exact bounded _
  next => rfl

/-- Asking about a file changes nothing at all. -/
theorem stat_state (path : Bytes) (info : FileInfo) (d : Disk) : (stat path info d).2 = d := by
  unfold stat
  split
  · rfl
  · split
    · rfl
    · split <;> rfl

/-! ## Sessions -/

/-- A session on a host with files, from before anything is open: its calls so far and the state it
has led to. An open may also be `answered` by any other system than the host's own, with any file or
none. Between two calls all may change but the table: files come and go, and the system may open
nothing more for a while. -/
inductive Session : List HostCall → Disk → Prop
  | start {d : Disk} : d.table = #[] → Session [] d
  | asked {calls d} {α : Type} (request : HostRequest α) : Session calls d →
    Session (calls ++ [request.call (host.ask request d).1]) (host.ask request d).2
  | answered {calls d} (path : Bytes) (flags : OpenFlags) (answer? : Option (OpenFile × Disk)) :
    Session calls d →
      Session (calls ++ [.openPath path flags (d.settle answer?).1]) (d.settle answer?).2
  | elsewhere {calls} {d d' : Disk} : Session calls d → d'.table = d.table → Session calls d'

/-- The table has a file for each of the live descriptors and for no other. -/
structure Tracks (live : List Descriptor) (d : Disk) : Prop where
  nodup : live.Nodup
  mem_iff : ∀ fd, fd ∈ live ↔ (d.openFile? fd).isSome

/-- The lowest descriptor from the first on that is not live. -/
structure LowestFree (live : List Descriptor) (fd : Descriptor) : Prop where
  first_le : firstDescriptor ≤ fd
  free : fd ∉ live
  below : ∀ k, firstDescriptor ≤ k → k < fd → k ∈ live

/-- So a descriptor is no larger than there are live ones. -/
theorem LowestFree.le_length {live : List Descriptor} (lowest : LowestFree live fd) :
    fd ≤ firstDescriptor + live.length := by
  obtain ⟨i, rfl⟩ := Int.le.dest lowest.first_le
  have apart : ((List.range i).map fun j : Nat => firstDescriptor + (j : Int)).Nodup :=
    List.Nodup.map (fun _ _ eq => Int.ofNat_inj.mp (Int.add_left_cancel eq)) List.nodup_range
  have within : ((List.range i).map fun j : Nat => firstDescriptor + (j : Int)) ⊆ live := by
    intro k mem
    obtain ⟨j, inside, rfl⟩ := List.mem_map.mp mem
    exact lowest.below _ (Int.le_add_of_nonneg_right (Int.natCast_nonneg j))
      (Int.add_lt_add_left (Int.ofNat_lt.mpr (List.mem_range.mp inside)) _)
  have fits := (apart.subperm within).length_le
  rw [List.length_map, List.length_range] at fits
  exact Int.add_le_add_left (Int.ofNat_le.mpr fits) _

namespace Tracks

variable {live : List Descriptor}

/-- A descriptor that is not among the live ones is not open. -/
theorem none_iff (tracks : Tracks live d) : fd ∉ live ↔ d.openFile? fd = none := by
  rw [tracks.mem_iff, Bool.not_eq_true, Option.isSome_eq_false_iff, Option.isNone_iff_eq_none]

/-- What opens and closes nothing keeps the live descriptors. -/
theorem congr (tracks : Tracks live d)
    (same : ∀ k, (d'.openFile? k).isSome = (d.openFile? k).isSome) : Tracks live d' :=
  ⟨tracks.nodup, fun k => by rw [same k]; exact tracks.mem_iff k⟩

/-- Nothing is live at first. -/
theorem start (empty : d.table = #[]) : Tracks [] d := by
  refine ⟨List.nodup_nil, ?_⟩
  intro fd
  have free : d.openFile? fd = none := by
    cases found : d.openFile? fd with
    | none => rfl
    | some f =>
      obtain ⟨i, -, inside⟩ := exists_slot_of_openFile? found
      rw [empty] at inside
      exact absurd inside (Nat.not_lt_zero i)
  rw [free]
  exact iff_of_false List.not_mem_nil Bool.false_ne_true

/-- A file opened in the lowest free slot is live under the lowest free descriptor. -/
theorem opened (tracks : Tracks live d)
    (lowest : firstDescriptor ≤ fd ∧ d.openFile? fd = none ∧
      ∀ k, firstDescriptor ≤ k → k < fd → (d.openFile? k).isSome)
    (files : ∀ k, d'.openFile? k = if k = fd then some f else d.openFile? k) :
    LowestFree live fd ∧ Tracks (fd :: live) d' := by
  obtain ⟨first, free, below⟩ := lowest
  have fresh : fd ∉ live := tracks.none_iff.mpr free
  refine ⟨⟨first, fresh, ?_⟩, List.nodup_cons.mpr ⟨fresh, tracks.nodup⟩, ?_⟩
  · intro k start lower
    exact (tracks.mem_iff k).mpr (below k start lower)
  · intro k
    rw [List.mem_cons, files k, tracks.mem_iff]
    by_cases same : k = fd
    · rw [if_pos same]
      exact iff_of_true (.inl same) rfl
    · rw [if_neg same]
      exact or_iff_right same

/-- Closing a descriptor takes it from the live ones. -/
theorem close (tracks : Tracks live d) (fd : Descriptor) :
    Tracks (live.erase fd) (d.close fd).2 := by
  cases found : d.openFile? fd with
  | none =>
    rw [close_of_none found, List.erase_of_not_mem (tracks.none_iff.mpr found)]
    exact tracks
  | some f =>
    obtain ⟨d', closed, -, files⟩ := close_of_some found
    rw [closed]
    refine ⟨tracks.nodup.erase fd, ?_⟩
    intro k
    rw [tracks.nodup.mem_erase_iff, files k, tracks.mem_iff]
    by_cases same : k = fd
    · rw [if_pos same]
      exact iff_of_false (fun both => both.1 same) Bool.false_ne_true
    · rw [if_neg same]
      exact and_iff_right same

/-- However the system answers an open, the call tells what is live then. -/
theorem settle (tracks : Tracks live d) (path : Bytes) (flags : OpenFlags)
    (answer? : Option (OpenFile × Disk)) :
    Tracks (HostCall.track live (.openPath path flags (d.settle answer?).1))
      (d.settle answer?).2 := by
  cases answer? with
  | none => exact tracks
  | some opening =>
    obtain ⟨f, left⟩ := opening
    obtain ⟨fd, d', opened, lowest, files, -⟩ := d.settle_some f left
    have answered : ¬ fd < 0 := Int.not_lt.mpr (Int.le_trans (by decide) lowest.1)
    rw [opened, HostCall.track, if_neg answered]
    exact (tracks.opened lowest files).2

/-- Whatever is asked for, the calls tell what is live then. -/
theorem ask {α : Type} (tracks : Tracks live d) (request : HostRequest α) :
    Tracks (HostCall.track live (request.call (host.ask request d).1)) (host.ask request d).2 := by
  cases request with
  | openPath path flags => exact tracks.settle path flags (d.grant? path flags)
  | close fd => exact tracks.close fd
  | read fd buffer => exact tracks.congr (read_isSome fd buffer d)
  | write fd bytes => exact tracks.congr (write_isSome fd bytes d)
  | seek fd offset whence => exact tracks.congr (seek_isSome fd offset whence d)
  | stat path info =>
    have same : (host.ask (.stat path info) d).2 = d := stat_state path info d
    rw [same]
    exact tracks
  | kill | processId | openMemoryStream | openBufferStream => exact tracks

end Tracks

/-- The live descriptors are those that the table has files for, at any time in any session. -/
theorem Session.tracks {calls : List HostCall} (session : Session calls d) :
    Tracks (HostCall.held calls) d := by
  induction session with
  | start empty => exact Tracks.start empty
  | asked request _ ih =>
    rw [HostCall.held, List.foldl_concat]
    exact ih.ask request
  | answered path flags answer? _ ih =>
    rw [HostCall.held, List.foldl_concat]
    exact ih.settle path flags answer?
  | elsewhere _ same ih => exact ih.congr fun k => by rw [openFile?_congr same]

/-- At any time in any session, every descriptor is answered for as the calls before have it.
Whatever file the system answers an open with goes under the lowest descriptor from the first on
that is not live, and disturbs no other; where it refuses, nothing changes. Closing a live
descriptor, and none but a live one, succeeds. Where a descriptor is not live and its number not
that of a stream which could be meant, nothing happens. -/
theorem descriptors_of_session {calls : List HostCall} (session : Session calls d) :
    (HostCall.held calls).Nodup ∧
    (∀ fd, fd ∈ HostCall.held calls ↔ (d.openFile? fd).isSome) ∧
    (∀ answer?, match answer? with
      | none => d.settle answer? = (-1, d)
      | some (f, left) => ∃ fd d', d.settle answer? = (fd, d') ∧
        LowestFree (HostCall.held calls) fd ∧ fd ≤ firstDescriptor + (HostCall.held calls).length ∧
        d'.openFile? fd = some f ∧ d'.files = left.files ∧
        ∀ k ≠ fd, d'.openFile? k = d.openFile? k) ∧
    (∀ path flags, match d.grant? path flags with
      | none => host.openPath path flags d = (-1, d)
      | some (f, _) => ∃ fd d', host.openPath path flags d = (fd, d') ∧
        LowestFree (HostCall.held calls) fd ∧ fd ≤ firstDescriptor + (HostCall.held calls).length ∧
        d'.openFile? fd = some f ∧ d.find? path = some f.place ∧ f.position = 0 ∧
        (∀ k ≠ fd, d'.openFile? k = d.openFile? k) ∧
        ∀ p bytes, d.contents? p = some bytes → (p = f.place → flags &&& .truncate = 0) →
          d'.contents? p = some bytes) ∧
    (∀ fd ∈ HostCall.held calls, ∃ d', host.close fd d = (0, d') ∧ d'.openFile? fd = none ∧
      d'.files = d.files ∧ ∀ k ≠ fd, d'.openFile? k = d.openFile? k) ∧
    ∀ fd ∉ HostCall.held calls, host.close fd d = (-1, d) ∧
      (fd ≠ standardInput → ∀ {n} (buffer : Vector UInt8 n),
        host.read fd buffer d = ((-1, buffer), d)) ∧
      (fd ≠ standardOutput → fd ≠ standardError → ∀ bytes, host.write fd bytes d = (-1, d)) ∧
      ∀ offset whence, host.seek fd offset whence d = (-1, d) := by
  have tracks := session.tracks
  have settled : ∀ f left, ∃ fd d', d.settle (some (f, left)) = (fd, d') ∧
      LowestFree (HostCall.held calls) fd ∧ fd ≤ firstDescriptor + (HostCall.held calls).length ∧
      d'.openFile? fd = some f ∧ d'.files = left.files ∧
      ∀ k ≠ fd, d'.openFile? k = d.openFile? k := by
    intro f left
    obtain ⟨fd, d', opened, free, files, contents⟩ := d.settle_some f left
    have lowest := (tracks.opened free files).1
    refine ⟨fd, d', opened, lowest, lowest.le_length, (files fd).trans (if_pos rfl), contents, ?_⟩
    intro k other
    exact (files k).trans (if_neg other)
  refine ⟨tracks.nodup, tracks.mem_iff, ?_, ?_, ?_, ?_⟩
  · intro answer?
    cases answer? with
    | none => rfl
    | some opening => exact settled opening.1 opening.2
  · intro path flags
    have asked : host.openPath path flags d = d.settle (d.grant? path flags) := rfl
    rw [asked]
    cases granted : d.grant? path flags with
    | none => rfl
    | some opening =>
      obtain ⟨f, left⟩ := opening
      obtain ⟨place, start, -, spared⟩ := grant?_spec granted
      obtain ⟨fd, d', opened, lowest, few, file, contents, others⟩ := settled f left
      refine ⟨fd, d', opened, lowest, few, file, place, start, others, ?_⟩
      intro p bytes there unemptied
      rw [contents?_congr contents]
      exact spared p bytes there unemptied
  · intro fd live
    obtain ⟨f, found⟩ := Option.isSome_iff_exists.mp ((tracks.mem_iff fd).mp live)
    obtain ⟨d', closed, kept, files⟩ := close_of_some found
    refine ⟨d', closed, (files fd).trans (if_pos rfl), kept, ?_⟩
    intro k other
    exact (files k).trans (if_neg other)
  · intro fd dead
    have free := tracks.none_iff.mp dead
    exact ⟨close_of_none free, fun other _ buffer =>
      read_of_none free other buffer, write_of_none free, seek_of_none free⟩

/-- A file is opened twice, and once more one outside of the working directory; then the first
descriptor is closed, an open is refused while the system has no room, and the first descriptor is
the lowest that is free. -/
theorem descriptors_of_session_reopening :
    ∃ calls d, Session calls d ∧ HostCall.held calls = [5, 4] ∧ (d.openFile? 5).isSome ∧
      (host.openPath [97] .readOnly d).1 = 3 ∧ host.close 3 d = (-1, d) ∧
      host.seek (-2147483648) 0 0 d = (-1, d) := by
  let start : Disk := { files := [([[97]], #[1, 2])] }
  let request : HostRequest Descriptor := .openPath [97] .readOnly
  let twice := (host.ask request (host.ask request start).2).2
  let elsewhere : OpenFile := { place := .outside, readable := true, writable := false }
  let closed := (host.ask (.close 3) (twice.settle (some (elsewhere, twice))).2).2
  let refused := (host.ask request { closed with exhausted := true }).2
  obtain ⟨calls, session, live⟩ : ∃ calls, Session calls { refused with exhausted := false } ∧
      HostCall.held calls = [5, 4] := by
    have opened := ((Session.start (d := start) rfl).asked request).asked request
    have all := opened.answered [47, 98] .readOnly (some (elsewhere, twice))
    have full : Session _ { closed with exhausted := true } := (all.asked (.close 3)).elsewhere rfl
    exact ⟨_, (full.asked request).elsewhere rfl, by decide +kernel⟩
  obtain ⟨-, live_iff, -, -, -, dead⟩ := descriptors_of_session session
  rw [live] at live_iff dead
  refine ⟨calls, _, session, live, (live_iff 5).mp (by decide), by decide +kernel, ?_, ?_⟩
  · exact (dead 3 (by decide)).1
  · exact (dead (-2147483648) (by decide)).2.2.2 0 0

end BareC.Disk
