import BareC.Proofs.Output.Frontends

/-!
# What is decided before anything is written

The checked entry points of a toolchain all come to the same verdict on a source and a capacity, an
error or a program to write, before they touch a region (`Toolchain.judged`); what each of them
makes of it is then a matter of writing (`compile_eq`, `compileOver_eq`, `compileAt_eq`).

The frontend of the toolchain is any frontend. What its verdicts are, and at which capacities the
compiler of this library has one in favour of a source, is not decided here.

Agreement in related states is shown function by function, from asking the host up to the entry
points, with the frontend and the relation as parameters. It is what lets two hosts, or two settings
of one, be compared without opening an entry point again.
-/

namespace BareC

namespace Toolchain

variable {σ : Type}

/-! ## Verdicts -/

/-- The error that a source and a capacity come to, or the program that is to be written. -/
def judged (t : Toolchain σ) (source : Bytes) (capacity : Nat) :
    StateM σ (Except CompileError t.frontend.Tree) := do
  if capacity = 0 then return .error .zeroCapacity
  let tree ← t.treeOf source
  match ← t.refusal? tree capacity with
  | some e => return .error e
  | none => return .ok tree

variable (t : Toolchain σ) (source : Bytes)

/-- What is written is what was parsed. -/
theorem eq_of_judged {capacity : Nat} {s : σ} {tree : t.frontend.Tree}
    (verdict : (t.judged source capacity s).1 = .ok tree) : tree = (t.treeOf source s).1 := by
  rw [judged] at verdict
  split at verdict
  next => cases verdict
  next =>
    rw [bind_apply, bind_apply] at verdict
    cases refused : (t.refusal? (t.treeOf source s).1 capacity (t.treeOf source s).2).1 with
    | some e => rw [refused] at verdict; cases verdict
    | none => rw [refused] at verdict; cases verdict; rfl

/-- Compiling to a new buffer: the verdict, and then the code into zeros. -/
theorem compile_eq (capacity : Nat) :
    t.compile source capacity = do
      match ← t.judged source capacity with
      | .error e => return .error e
      | .ok tree =>
        let (length, region) ← t.writeTo tree (Array.replicate capacity 0)
        return .ok { region, length } := by
  rw [compile, judged]
  split
  next => rfl
  next =>
    simp only [bind_assoc]
    congr! 4 with tree refusal
    cases refusal <;> rfl

/-- As `compile_eq`, over a region. -/
theorem compileOver_eq (region : Array UInt8) :
    t.compileOver source region = do
      match ← t.judged source region.size with
      | .error e => return (.error e, region)
      | .ok tree =>
        let (length, region) ← t.writeTo tree region
        return (.ok length, region) := by
  rw [compileOver, judged]
  simp only [Array.isEmpty_iff_size_eq_zero]
  split
  next => rfl
  next =>
    simp only [bind_assoc]
    congr! 4 with tree refusal
    cases refusal <;> rfl

/-- In some memory, it is the region at its front that is compiled into. -/
theorem compileAt_eq (region beyond : Array UInt8) :
    t.compileAt source (region ++ beyond) region.size = do
      let (result, region) ← t.compileOver source region
      return (result, region ++ beyond) := by
  have front : (region ++ beyond).extract 0 region.size = region := by simp
  have rest : (region ++ beyond).extract region.size (region ++ beyond).size = beyond := by simp
  rw [compileAt, front, rest]
  split
  next empty =>
    rw [compileOver, if_pos (Array.isEmpty_iff_size_eq_zero.mpr empty)]
    rfl
  next => rfl

section Results

variable {t} {bytes : t.frontend.Tree → Nat → Bytes}
  (writes : t.frontend.Writes bytes)
  (source : Bytes)
include writes

/-- What is written depends on the tree and the room alone. -/
theorem writeTo_result (tree : t.frontend.Tree) (region : Array UInt8) (s : σ) :
    (t.writeTo tree region s).1 =
      ((bytes tree region.size).length, overwritten (bytes tree region.size) region) :=
  (writes tree region s).2

/-- What compiling to a new buffer returns, by the verdict. -/
theorem compile_result (capacity : Nat) (s : σ) :
    (t.compile source capacity s).1 =
      (t.judged source capacity s).1.map fun tree => .ofCode (bytes tree capacity) capacity := by
  rw [compile_eq, bind_apply]
  cases (t.judged source capacity s).1 with
  | error e => rfl
  | ok tree =>
    dsimp only
    rw [bind_apply, writeTo_result writes, Array.size_replicate]
    rfl

/-- As `compile_result`, over a region. -/
theorem compileOver_result (region : Array UInt8) (s : σ) :
    (t.compileOver source region s).1 =
      match (t.judged source region.size s).1 with
      | .error e => (.error e, region)
      | .ok tree =>
        (.ok (bytes tree region.size).length, overwritten (bytes tree region.size) region) := by
  rw [compileOver_eq, bind_apply]
  cases (t.judged source region.size s).1 with
  | error e => rfl
  | ok tree =>
    dsimp only
    rw [bind_apply, writeTo_result writes]
    rfl

/-- As `compile_result`, at a place with more behind it, which stays. -/
theorem compileAt_result (region beyond : Array UInt8) (s : σ) :
    (t.compileAt source (region ++ beyond) region.size s).1 =
      match (t.judged source region.size s).1 with
      | .error e => (.error e, region ++ beyond)
      | .ok tree =>
        (.ok (bytes tree region.size).length,
          overwritten (bytes tree region.size) region ++ beyond) := by
  rw [compileAt_eq, bind_apply, compileOver_result writes]
  cases (t.judged source region.size s).1 <;> rfl

/-- As `compile_result`, without a verdict. -/
theorem compileUnguarded_result (region : Array UInt8) (s : σ) :
    (t.compileUnguarded source region s).1 =
      let tree := (t.treeOf source s).1
      ((bytes tree region.size).length, overwritten (bytes tree region.size) region) :=
  writeTo_result writes _ region _

end Results

/-! ## Toolchains side by side -/

/-- The log of a toolchain respects what its host does. -/
theorem log_agree {host : Host σ} {heeded : Prop} {R : σ → σ → Prop} (h : host.Respects heeded R)
    (F : Frontend σ) (settings : Settings) (pieces : List String) :
    Agree R (log ⟨F, host, settings⟩ pieces) (log ⟨F, host, settings⟩ pieces) := by
  rw [log]
  split
  next => exact h.say _
  next => exact .pure ()

section Agree

variable {F : Frontend σ} {host host' : Host σ} {settings settings' : Settings} {R : σ → σ → Prop}
  (respects : F.Respects R) (sameSource : settings.useBuiltin = settings'.useBuiltin)
  (logs : ∀ pieces, Agree R (log ⟨F, host, settings⟩ pieces) (log ⟨F, host', settings'⟩ pieces))

include respects logs in
/-- Writing agrees in related states. -/
theorem writeTo_agree (tree : F.Tree) (region : Array UInt8) :
    Agree R (writeTo ⟨F, host, settings⟩ tree region) (writeTo ⟨F, host', settings'⟩ tree region) :=
  .bind (respects.generate tree region) fun _ => .bind (logs _) fun _ => .pure _

include respects in
/-- As `writeTo_agree`, for what a tree is refused for. -/
theorem refusal?_agree (tree : F.Tree) (capacity : Nat) :
    Agree R (refusal? ⟨F, host, settings⟩ tree capacity)
      (refusal? ⟨F, host', settings'⟩ tree capacity) := by
  rw [refusal?, refusal?]
  split
  next => exact .pure _
  next =>
    split
    next => exact .pure _
    next =>
      refine .bind (respects.codeLength tree) fun required? => ?_
      cases required? <;> exact .pure _

include respects sameSource logs

/-- As `writeTo_agree`, for reading a tree. -/
theorem treeOf_agree (source : Bytes) :
    Agree R (treeOf ⟨F, host, settings⟩ source) (treeOf ⟨F, host', settings'⟩ source) := by
  have chosen : settings.sourceFor source = settings'.sourceFor source := by
    rw [Settings.sourceFor, Settings.sourceFor, sameSource]
  rw [treeOf, treeOf]
  dsimp only
  rw [chosen]
  exact .bind (logs _) fun _ => .bind (respects.tokenize _) fun _ => .bind (logs _) fun _ =>
    .bind (respects.preprocess _) fun _ => .bind (logs _) fun _ => respects.parse _

/-- As `writeTo_agree`, for the verdict. -/
theorem judged_agree (source : Bytes) (capacity : Nat) :
    Agree R (judged ⟨F, host, settings⟩ source capacity)
      (judged ⟨F, host', settings'⟩ source capacity) := by
  rw [judged, judged]
  split
  next => exact .pure _
  next =>
    refine .bind (treeOf_agree respects sameSource logs source) fun tree => ?_
    refine .bind (refusal?_agree respects tree capacity) fun refusal => ?_
    cases refusal <;> exact .pure _

/-- Compiling to a new buffer agrees in related states. -/
theorem compile_agree (source : Bytes) (capacity : Nat) :
    Agree R (compile ⟨F, host, settings⟩ source capacity)
      (compile ⟨F, host', settings'⟩ source capacity) := by
  rw [compile_eq, compile_eq]
  refine .bind (judged_agree respects sameSource logs source capacity) fun verdict => ?_
  cases verdict with
  | error e => exact .pure _
  | ok tree => exact .bind (writeTo_agree respects logs tree _) fun _ => .pure _

/-- As `compile_agree`, over a region. -/
theorem compileOver_agree (source : Bytes) (region : Array UInt8) :
    Agree R (compileOver ⟨F, host, settings⟩ source region)
      (compileOver ⟨F, host', settings'⟩ source region) := by
  rw [compileOver_eq, compileOver_eq]
  refine .bind (judged_agree respects sameSource logs source region.size) fun verdict => ?_
  cases verdict with
  | error e => exact .pure _
  | ok tree => exact .bind (writeTo_agree respects logs tree _) fun _ => .pure _

/-- As `compile_agree`, at a place. -/
theorem compileAt_agree (source : Bytes) (region beyond : Array UInt8) :
    Agree R (compileAt ⟨F, host, settings⟩ source (region ++ beyond) region.size)
      (compileAt ⟨F, host', settings'⟩ source (region ++ beyond) region.size) := by
  rw [compileAt_eq, compileAt_eq]
  exact .bind (compileOver_agree respects sameSource logs source region) fun _ => .pure _

/-- As `compile_agree`, without a verdict. -/
theorem compileUnguarded_agree (source : Bytes) (region : Array UInt8) :
    Agree R (compileUnguarded ⟨F, host, settings⟩ source region)
      (compileUnguarded ⟨F, host', settings'⟩ source region) :=
  .bind (treeOf_agree respects sameSource logs source) fun tree =>
    writeTo_agree respects logs tree region

end Agree

end Toolchain

end BareC
