import BareC.Host.Log
import BareC.Proofs.Host.Fetching

/-!
# Host states that calls do not tell apart

What runs on a host knows of its state only what the calls answer. Two states are alike if every
sequence of calls is answered in the same way from both, which is to say that some relation holds
between them that every call respects: from related states it has the same answer and leads to
related states. A host gives the same answers each time if the states it is used in are alike.

The answer of a write tells how much was written, and mostly nobody looks at it. So relations come
in two strengths, and only where writes are heeded do their answers have to be the same.

A relation that is respected by a host is respected by the hosts around it (`Respects.recorded`,
`Respects.beside`), and by reading a header (`Header.fetch_agree`).

Being alike is a property of a host and two of its states, and it is the largest relation that is
respected. To show it one gives a relation, which may be much smaller; to use it one needs none.

No host is assumed to be deterministic in any other sense. A host is a function of its state, and
whether the world behind it may be taken for one is left to those who supply it.
-/

namespace BareC

variable {σ τ α β : Type}

/-! ## Computations that agree -/

/-- Two actions on a state in a row, as a pair of results. -/
theorem bind_apply (m : StateM σ α) (f : α → StateM σ β) (s : σ) :
    (m >>= f) s = f (m s).1 (m s).2 :=
  rfl

/-- From related states, the computations have the same result and go on to related states. -/
def Agree (R : σ → τ → Prop) (m : StateM σ α) (m' : StateM τ α) : Prop :=
  ∀ s t, R s t → (m s).1 = (m' t).1 ∧ R (m s).2 (m' t).2

namespace Agree

variable {R : σ → τ → Prop} {m : StateM σ α} {m' : StateM τ α}

/-- A result without an action agrees with itself. -/
theorem pure (a : α) : Agree R (pure a) (pure a) :=
  fun _ _ related => ⟨rfl, related⟩

/-- Actions that agree may be followed by actions that do. -/
theorem bind {f : α → StateM σ β} {f' : α → StateM τ β} (first : Agree R m m')
    (others : ∀ a, Agree R (f a) (f' a)) : Agree R (m >>= f) (m' >>= f') := by
  intro s t related
  obtain ⟨same, left⟩ := first s t related
  rw [bind_apply, bind_apply, same]
  exact others _ _ _ left

/-- What one of two agreeing actions gives, the other gives too, and their states stay related. -/
theorem exists_of_eq (agree : Agree R m m') {s s' : σ} {t : τ} {a : α} (related : R s t)
    (left : m s = (a, s')) : ∃ t', m' t = (a, t') ∧ R s' t' := by
  obtain ⟨same, related'⟩ := agree s t related
  rw [left] at same related'
  exact ⟨(m' t).2, Prod.ext same.symm rfl, related'⟩

end Agree

/-! ## Requests -/

/-- What a host can be asked for, with the type of its answer. -/
inductive HostRequest : Type → Type
  | read {n : Nat} (fd : Descriptor) (buffer : Vector UInt8 n) : HostRequest (Int × Vector UInt8 n)
  | write (fd : Descriptor) (bytes : Bytes) : HostRequest Int
  | openPath (path : Bytes) (flags : OpenFlags) : HostRequest Descriptor
  | close (fd : Descriptor) : HostRequest Int
  | seek (fd : Descriptor) (offset whence : Int) : HostRequest Int
  | stat (path : Bytes) (info : FileInfo) : HostRequest (Int × FileInfo)
  | kill (pid signal : Int) : HostRequest Int
  | processId : HostRequest Int
  | openMemoryStream : HostRequest StreamHandle
  | openBufferStream {n : Nat} (buffer : Vector UInt8 n) (mode : Bytes) :
    HostRequest (StreamHandle × Vector UInt8 n)

namespace HostRequest

/-- The call that an answer makes of a request. -/
def call : HostRequest α → α → HostCall
  | read (n := n) fd _, a => .read fd n a.1
  | write fd bytes, a => .write fd bytes a
  | openPath path flags, a => .openPath path flags a
  | close fd, a => .close fd a
  | seek fd offset whence, a => .seek fd offset whence a
  | stat path _, a => .stat path a.1
  | kill pid signal, a => .kill pid signal a
  | processId, a => .processId a
  | openMemoryStream, a => .openMemoryStream a
  | openBufferStream _ mode, a => .openBufferStream mode a.1

def isWrite : HostRequest α → Bool
  | write .. => true
  | _ => false

end HostRequest

/-- The calls ask for the same. To writes that do, the answers may differ. -/
inductive HostCall.Same : HostCall → HostCall → Prop
  | refl (call : HostCall) : Same call call
  | write (fd : Descriptor) (bytes : Bytes) (answer answer' : Int) :
    Same (.write fd bytes answer) (.write fd bytes answer')

/-- Equal answers to a request make the same call. -/
theorem HostRequest.same_call (request : HostRequest α) {a a' : α}
    (same : request.isWrite = false → a = a') : (request.call a).Same (request.call a') := by
  cases request with
  | write fd bytes => exact .write fd bytes a a'
  | read | openPath | close | seek | stat | kill | processId | openMemoryStream
  | openBufferStream =>
    cases same rfl
    exact .refl _

namespace Host

/-- The operation that a request is for. -/
def ask (host : Host σ) : HostRequest α → StateM σ α
  | .read fd buffer => host.read fd buffer
  | .write fd bytes => host.write fd bytes
  | .openPath path flags => host.openPath path flags
  | .close fd => host.close fd
  | .seek fd offset whence => host.seek fd offset whence
  | .stat path info => host.stat path info
  | .kill pid signal => host.kill pid signal
  | .processId => host.processId
  | .openMemoryStream => host.openMemoryStream
  | .openBufferStream buffer mode => host.openBufferStream buffer mode

/-- A wrapped host is asked through what is wrapped around it. -/
theorem ask_wrap (host : Host σ) (around : {α : Type} → (α → HostCall) → StateM σ α → StateM τ α)
    (inner : τ → σ) (request : HostRequest α) :
    (host.wrap around inner).ask request = around request.call (host.ask request) := by
  cases request <;> rfl

/-! ## Relations that a host respects -/

/-- Asked the same in related states, the host answers the same and goes on to related states. What
it answers to writes has to be the same only where that is heeded. -/
structure Respects (host : Host σ) (heeded : Prop) (R : σ → σ → Prop) : Prop where
  leads : ∀ {α : Type} (request : HostRequest α) (s t : σ), R s t →
    R (host.ask request s).2 (host.ask request t).2
  answers : ∀ {α : Type} (request : HostRequest α), (request.isWrite → heeded) → ∀ s t : σ, R s t →
    (host.ask request s).1 = (host.ask request t).1

variable {host : Host σ} {heeded : Prop} {R : σ → σ → Prop}

/-- Every host respects equality. -/
theorem respects_eq (host : Host σ) (heeded : Prop) : host.Respects heeded Eq where
  leads _ _ _ same := same ▸ rfl
  answers _ _ _ _ same := same ▸ rfl

namespace Respects

/-- A request to hosts in related states is answered alike. -/
theorem agree (h : host.Respects heeded R) (request : HostRequest α)
    (looks : request.isWrite → heeded) : Agree R (host.ask request) (host.ask request) :=
  fun s t related => ⟨h.answers request looks s t related, h.leads request s t related⟩

/-- A line in the log is a write whose answer nobody looks at. -/
theorem say (h : host.Respects heeded R) (pieces : List String) :
    Agree R (Log.say host pieces) (Log.say host pieces) :=
  fun s t related =>
    ⟨rfl, h.leads (.write standardError (Log.line (pieces.map Bytes.ofText))) s t related⟩

/-- A relation of records that lasts as long as the same calls are noted. -/
theorem recorded (h : host.Respects heeded R) {Q : Array HostCall → Array HostCall → Prop}
    (noted : ∀ calls calls' call call', Q calls calls' → call.Same call' →
      Q (calls.push call) (calls'.push call')) :
    host.recorded.Respects heeded fun s t => R s.1 t.1 ∧ Q s.2 t.2 where
  leads request := by
    rintro ⟨s, calls⟩ ⟨t, calls'⟩ ⟨related, kept⟩
    rw [Host.recorded, ask_wrap]
    refine ⟨h.leads request s t related, noted _ _ _ _ kept (request.same_call fun noWrite => ?_)⟩
    exact h.answers request (fun write => by rw [noWrite] at write; cases write) s t related
  answers request looks := by
    rintro ⟨s, calls⟩ ⟨t, calls'⟩ ⟨related, -⟩
    rw [Host.recorded, ask_wrap]
    exact h.answers request looks s t related

/-- A relation that is respected still is beside a state the host does not touch. -/
theorem beside (h : host.Respects heeded R) (τ : Type) :
    (host.beside τ).Respects heeded fun s t => R s.1 t.1 ∧ s.2 = t.2 where
  leads request := by
    rintro ⟨s, x⟩ ⟨t, y⟩ ⟨related, same⟩
    rw [Host.beside, ask_wrap]
    exact ⟨h.leads request s t related, same⟩
  answers request looks := by
    rintro ⟨s, x⟩ ⟨t, y⟩ ⟨related, -⟩
    rw [Host.beside, ask_wrap]
    exact h.answers request looks s t related

end Respects

/-! ## States that are alike -/

/-- No calls are answered from the one state in another way than from the other. -/
def Alike (host : Host σ) (heeded : Prop) (s t : σ) : Prop :=
  ∃ R, host.Respects heeded R ∧ R s t

/-- Being alike is itself respected. -/
theorem respects_alike (host : Host σ) (heeded : Prop) :
    host.Respects heeded (host.Alike heeded) where
  leads request s t := fun ⟨R, h, related⟩ => ⟨R, h, h.leads request s t related⟩
  answers request looks s t := fun ⟨_, h, related⟩ => h.answers request looks s t related

namespace Alike

variable {s t u : σ}

/-- Every state is like itself. -/
theorem refl (host : Host σ) (heeded : Prop) (s : σ) : host.Alike heeded s s :=
  ⟨Eq, host.respects_eq heeded, rfl⟩

/-- Likeness of states is passed on. -/
theorem trans (h : host.Alike heeded s t) (h' : host.Alike heeded t u) : host.Alike heeded s u := by
  obtain ⟨R, respects, related⟩ := h
  obtain ⟨R', respects', related'⟩ := h'
  refine ⟨fun s u => ∃ t, R s t ∧ R' t u, ⟨?_, ?_⟩, t, related, related'⟩
  · rintro _ request s u ⟨t, related, related'⟩
    exact ⟨_, respects.leads request s t related, respects'.leads request t u related'⟩
  · rintro _ request looks s u ⟨t, related, related'⟩
    exact (respects.answers request looks s t related).trans
      (respects'.answers request looks t u related')

end Alike

/-- Writing a log leaves the host in a state that is like the one before: no other call is answered
in another way because of it. -/
def LogsUnseen (host : Host σ) (heeded : Prop) : Prop :=
  ∀ (s : σ) (bytes : Bytes), host.Alike heeded s (host.write standardError bytes s).2

end Host

/-! ## Reading headers -/

section Fetch

variable {host : Host σ} {heeded : Prop} {R : σ → σ → Prop} (h : host.Respects heeded R)
include h

/-- A header is handed over in the same portions from related states. -/
theorem Portions.related {fd : Descriptor} {buffer : Vector UInt8 readBuffer} {s s' t : σ}
    {ps : List Portion} (portions : Portions host fd buffer s ps s') (related : R s t) :
    ∃ t', Portions host fd buffer t ps t' ∧ R s' t' := by
  induction portions generalizing t with
  | nil => exact ⟨t, .nil, related⟩
  | @cons buffer s answer buffer' s₁ ps s' read _ ih =>
    obtain ⟨t₁, read', related₁⟩ := (h.agree (.read fd buffer) nofun).exists_of_eq related read
    obtain ⟨t', portions, related'⟩ := ih related₁
    exact ⟨t', .cons read' portions, related'⟩

/-- A visit that happens from one of two related states happens from the other. -/
theorem Visit.Happens.related {v : Visit} {s s' t : σ} (happens : v.Happens host s s')
    (related : R s t) : ∃ t', v.Happens host t t' ∧ R s' t' := by
  cases happens with
  | @refused path _ _ _ opened =>
    have opens := h.agree (.openPath path .readOnly) nofun
    obtain ⟨t', opened', related'⟩ := opens.exists_of_eq related opened
    exact ⟨t', .refused opened', related'⟩
  | @readOut path fd _ _ _ _ _ _ opened portions closed =>
    have opens := h.agree (.openPath path .readOnly) nofun
    have closes := h.agree (.close fd) nofun
    obtain ⟨t₁, opened', related₁⟩ := opens.exists_of_eq related opened
    obtain ⟨t₂, portions', related₂⟩ := portions.related h related₁
    obtain ⟨t', closed', related'⟩ := closes.exists_of_eq related₂ closed
    exact ⟨t', .readOut opened' portions' closed', related'⟩

/-- What is read of a header, and whether there is one, is the same in related states. -/
theorem Header.fetch_agree (path : Bytes) :
    Agree (α := Option Bytes) R (Header.fetch host path) (Header.fetch host path) := by
  intro s t related
  obtain ⟨v, s', happens, orderly, rfl⟩ := exists_visit host path s
  obtain ⟨t', happens', related'⟩ := happens.related h related
  rw [fetch_of_visit happens orderly, fetch_of_visit happens' orderly]
  exact ⟨rfl, related'⟩

end Fetch

end BareC
