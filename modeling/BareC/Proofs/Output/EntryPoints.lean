import BareC.Host.Recorded
import BareC.Proofs.Output.Capacity

/-!
# The entry points of a toolchain

Compiling into a fresh region, over a region of the caller's, at a place in memory and without a
check come to the same, whatever the frontend is that stands behind them. Whether there is an error
is known before a byte is written, so on an error all memory is as it was, and otherwise only the
front of the region is another.

Log lines are the only thing that being verbose adds to this. As long as nothing else that is asked
of a host depends on what was written to the log, the result is the same, the memory is, and with
the log lines left out so is the record of the calls.

The frontend is a parameter with the two conditions of `Frontends`, and the host is any host. Where
the record of the calls is compared, the answers of writes to the log are the one thing that may
differ.
-/

namespace BareC

variable {σ τ : Type}

/-! ## Records of calls -/

/-- The second record is the first with log lines added. Writes that are in both may have been
answered in different ways. -/
inductive LogsAdded : Array HostCall → Array HostCall → Prop
  | none : LogsAdded #[] #[]
  | call {calls calls' : Array HostCall} {call call' : HostCall} :
    LogsAdded calls calls' → call.Same call' → LogsAdded (calls.push call) (calls'.push call')
  | log {calls calls' : Array HostCall} (bytes : Bytes) (answer : Int) :
    LogsAdded calls calls' → LogsAdded calls (calls'.push (.write standardError bytes answer))

/-- Calls do not tell the states of the host apart, its records are in a relation, and what is
beside it is the same. -/
def Host.AlikeBut (host : Host σ) (heeded : Prop) (Q : Array HostCall → Array HostCall → Prop)
    (s t : (σ × Array HostCall) × τ) : Prop :=
  (host.Alike heeded s.1.1 t.1.1 ∧ Q s.1.2 t.1.2) ∧ s.2 = t.2

section Recorded

variable (host : Host σ) (heeded : Prop) (Q : Array HostCall → Array HostCall → Prop)
  (noted : ∀ calls calls' call call', Q calls calls' → call.Same call' →
    Q (calls.push call) (calls'.push call'))
include noted

/-- A recording host respects states that are alike but for what is not asked. -/
theorem Host.respects_alikeBut (τ : Type) :
    (host.recorded.beside τ).Respects heeded (host.AlikeBut heeded Q) :=
  ((host.respects_alike heeded).recorded noted).beside τ

variable {host heeded} in
/-- A frontend that works through the host respects such states too. -/
theorem Frontend.Through.respects_alikeBut {F : Frontend ((σ × Array HostCall) × τ)}
    (through : F.Through host.recorded heeded) : F.Respects (host.AlikeBut heeded Q) :=
  through _ ((host.respects_alike heeded).recorded noted)

end Recorded

namespace Toolchain

variable {host : Host σ} {heeded : Prop} {F : Frontend ((σ × Array HostCall) × τ)}

/-- The toolchain with its calls on record. -/
def onRecord (F : Frontend ((σ × Array HostCall) × τ)) (host : Host σ) (settings : Settings) :
    Toolchain ((σ × Array HostCall) × τ) where
  frontend := F
  host := host.recorded.beside τ
  settings

/-! ## One verdict -/

/-- Where calls are answered in the same way, one verdict is reached. -/
theorem judged_alike (through : F.Through host.recorded heeded) (settings : Settings)
    (source : Bytes) (capacity : Nat) {s s' : (σ × Array HostCall) × τ}
    (alike : host.Alike heeded s.1.1 s'.1.1) (same : s.2 = s'.2) :
    ((onRecord F host settings).judged source capacity s).1 =
      ((onRecord F host settings).judged source capacity s').1 := by
  -- What the runs have put on record before does not matter.
  let Q (_ _ : Array HostCall) : Prop := True
  have noted : ∀ calls calls' call call', Q calls calls' → HostCall.Same call call' →
      Q (calls.push call) (calls'.push call') := fun _ _ _ _ _ _ => trivial
  have respects := through.respects_alikeBut Q noted
  have logs := log_agree (host.respects_alikeBut heeded Q noted τ) F settings
  exact (judged_agree respects rfl logs source capacity s s' ⟨⟨alike, trivial⟩, same⟩).1

/-- What does not fit of a program is cut off by the compiler of this library. -/
theorem compileUnguarded_of_tooSmall {host : Host σ} {settings : Settings} {source : Bytes}
    {required capacity : Nat} {region : Array UInt8} {s s' : σ} (alike : host.Alike False s s')
    (refused : ((standard host settings).compile source region.size s).1 =
      .error (.capacityTooSmall required capacity)) :
    let code := (programOf host settings source s).1.code
    code.length = required ∧
      ((standard host settings).compileUnguarded source region s').1 =
        (region.size, (code.take region.size).toArray) := by
  obtain ⟨reported, short, -⟩ := lt_of_compile_tooSmall refused
  have length := (programOf host settings source s).1.length_code.trans reported.symm
  have cut : ((programOf host settings source s).1.code.take region.size).length = region.size :=
    List.length_take_of_le (by omega)
  refine ⟨length, ?_⟩
  refine (compileUnguarded_result (t := standard host settings)
    (Frontend.standard_writes host) source region s').trans ?_
  change (((programOf host settings source s').1.code.take region.size).length,
    overwritten ((programOf host settings source s').1.code.take region.size) region) = _
  rw [← programOf_alike alike, cut, overwritten_of_length_eq cut]

/-! ## The log -/

/-- A log line is one call more. -/
theorem log_louder (unseen : host.LogsUnseen heeded) (F : Frontend ((σ × Array HostCall) × τ))
    (useBuiltin : Bool) (pieces : List String) :
    Agree (host.AlikeBut heeded LogsAdded)
      (log (onRecord F host { useBuiltin, verbose := false }) pieces)
      (log (onRecord F host { useBuiltin, verbose := true }) pieces) := by
  rintro s t ⟨⟨alike, added⟩, same⟩
  exact ⟨rfl, ⟨alike.trans (unseen _ _), .log _ _ added⟩, same⟩

/-! ## One outcome -/

/-- The entry points come to the same. Errors leave memory alone, and what is written is at the
front. Without a check as much is written as there is room for. Log lines are all that being verbose
adds. -/
theorem entryPoints_agree (through : F.Through host.recorded heeded) (writes : F.WritesPrefix)
    (source : Bytes) (region beyond : Array UInt8) :
    (∀ settings (s s' : (σ × Array HostCall) × τ), host.Alike heeded s.1.1 s'.1.1 → s.2 = s'.2 →
      let t := onRecord F host settings
      (∃ code : Bytes, code.length ≤ region.size ∧
        (t.compileUnguarded source region s').1 = (code.length, overwritten code region)) ∧
      match (t.compile source region.size s).1 with
      | .error e =>
        (t.compileOver source region s').1 = (.error e, region) ∧
          (t.compileAt source (region ++ beyond) region.size s').1 = (.error e, region ++ beyond)
      | .ok buffer =>
        buffer.capacity = region.size ∧ buffer.length ≤ region.size ∧
          buffer.code.length = buffer.length ∧
          (t.compileOver source region s').1 = (.ok buffer.length, overwritten buffer.code region) ∧
          (t.compileAt source (region ++ beyond) region.size s').1 =
            (.ok buffer.length, overwritten buffer.code region ++ beyond) ∧
          (t.compileUnguarded source region s').1 =
            (buffer.length, overwritten buffer.code region)) ∧
    (∀ settings (s s' : σ), host.Alike False s s' →
      let t := standard host settings
      let code := (programOf host settings source s).1.code
      ∀ required capacity, (t.compile source region.size s).1 =
        .error (.capacityTooSmall required capacity) → code.length = required ∧
          (t.compileUnguarded source region s').1 =
            (region.size, (code.take region.size).toArray)) ∧
    (host.LogsUnseen heeded → ∀ useBuiltin,
      let quiet := onRecord F host { useBuiltin, verbose := false }
      let loud := onRecord F host { useBuiltin, verbose := true }
      let Louder := host.AlikeBut heeded LogsAdded
      Agree Louder (quiet.compile source region.size) (loud.compile source region.size) ∧
        Agree Louder (quiet.compileOver source region) (loud.compileOver source region) ∧
        Agree Louder (quiet.compileAt source (region ++ beyond) region.size)
          (loud.compileAt source (region ++ beyond) region.size) ∧
        Agree Louder (quiet.compileUnguarded source region)
          (loud.compileUnguarded source region)) := by
  obtain ⟨bytes, writes⟩ := writes
  refine ⟨?_, ?_, ?_⟩
  · intro settings s s' alike same t
    have verdict : (t.judged source region.size s).1 = (t.judged source region.size s').1 :=
      judged_alike through settings source region.size alike same
    have unguarded := compileUnguarded_result (t := t) writes source region s'
    refine ⟨⟨_, (writes _ _ s').1, unguarded⟩, ?_⟩
    rw [unguarded, compile_result (t := t) writes, compileOver_result (t := t) writes,
      compileAt_result (t := t) writes, verdict]
    cases judged : (t.judged source region.size s').1 with
    | error e => exact ⟨rfl, rfl⟩
    | ok program =>
      obtain rfl := t.eq_of_judged source judged
      have fits := (writes (t.treeOf source s').1 region s').1
      dsimp only [Except.map]
      rw [CodeBuffer.code_ofCode, CodeBuffer.capacity_ofCode fits]
      exact ⟨rfl, fits, rfl, rfl, rfl, rfl⟩
  · intro settings s s' alike t code required capacity refused
    exact compileUnguarded_of_tooSmall alike refused
  · intro unseen useBuiltin quiet loud Louder
    have respects : F.Respects Louder := through.respects_alikeBut LogsAdded fun _ _ _ _ => .call
    have sameSource : quiet.settings.useBuiltin = loud.settings.useBuiltin := rfl
    have logs : ∀ pieces, Agree Louder (quiet.log pieces) (loud.log pieces) :=
      log_louder unseen F useBuiltin
    exact ⟨compile_agree respects sameSource logs source _,
      compileOver_agree respects sameSource logs source region,
      compileAt_agree respects sameSource logs source region beyond,
      compileUnguarded_agree respects sameSource logs source region⟩

/-- The unit with 92 bytes of code over regions of a hundred sevens and of five, with log lines and
without. -/
theorem entryPoints_answering :
    let loud := onRecord (.standard (Host.bare.recorded.beside Unit)) Host.bare { verbose := true }
    let quiet :=
      onRecord (.standard (Host.bare.recorded.beside Unit)) Host.bare { verbose := false }
    let start := (((), #[]), ())
    let sevens (n : Nat) : Array UInt8 := Array.replicate n 7
    (∃ code, code.length = 92 ∧
      (loud.compileOver answering (sevens 100) start).1 = (.ok 92, overwritten code (sevens 100)) ∧
      (loud.compileUnguarded answering (sevens 100) start).1 =
        (92, overwritten code (sevens 100))) ∧
    (loud.compileOver answering (sevens 5) start).1 = (.error (.capacityTooSmall 92 5), sevens 5) ∧
    (quiet.compileOver answering (sevens 5) start).1 =
      (loud.compileOver answering (sevens 5) start).1 ∧
    LogsAdded (quiet.compileOver answering (sevens 5) start).2.1.2
      (loud.compileOver answering (sevens 5) start).2.1.2 := by
  intro loud quiet start sevens
  have through := Frontend.standard_through Host.bare.recorded False Unit
  have writes : (Frontend.standard (Host.bare.recorded.beside Unit)).WritesPrefix :=
    ⟨_, Frontend.standard_writes _⟩
  have unseen : Host.bare.LogsUnseen False := fun _ _ => .refl _ _ _
  have required : (programOf (Host.bare.recorded.beside Unit) { verbose := true } answering
      start).1.codeLength = 92 := by decide +kernel
  obtain ⟨code, length, compiled⟩ : ∃ code, code.length = 92 ∧
      (loud.compile answering 100 start).1 = .ok (.ofCode code 100) := by
    refine ⟨_, (Program.length_code _).trans required,
      (compile_standard answering 100 start).trans ?_⟩
    dsimp only
    rw [required]
    rfl
  have refused : (loud.compile answering 5 start).1 = .error (.capacityTooSmall 92 5) := by
    refine (compile_standard answering 5 start).trans ?_
    dsimp only
    rw [required]
    rfl
  obtain ⟨results, -, -⟩ := entryPoints_agree through writes answering (sevens 100) #[]
  obtain ⟨-, large⟩ := results loud.settings start start (.refl _ _ _) rfl
  obtain ⟨results, -, added⟩ := entryPoints_agree through writes answering (sevens 5) #[]
  obtain ⟨-, small⟩ := results loud.settings start start (.refl _ _ _) rfl
  change match (loud.compile answering (sevens 100).size start).1
    with | .error _ => _ | .ok _ => _ at large
  change match (loud.compile answering (sevens 5).size start).1
    with | .error _ => _ | .ok _ => _ at small
  rw [Array.size_replicate, compiled] at large
  rw [Array.size_replicate, refused] at small
  obtain ⟨-, -, -, guarded, -, unguarded⟩ := large
  rw [CodeBuffer.code_ofCode] at guarded unguarded
  obtain ⟨-, louder, -⟩ := added unseen false
  obtain ⟨same, ⟨-, added⟩, -⟩ := louder start start ⟨⟨.refl _ _ _, .none⟩, rfl⟩
  refine ⟨⟨code, length, ?_, ?_⟩, small.1, same, added⟩
  · rw [← length]; exact guarded
  · rw [← length]; exact unguarded

end Toolchain

end BareC
