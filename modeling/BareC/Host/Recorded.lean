import BareC.Host

/-!
# Hosts around hosts

`Host.wrap` makes a host of another one by treating all of its operations alike. Two hosts are made
so. `Host.recorded` notes every call with its answer: statements about the calls that a stage makes
hold of the record for any host at all. `Host.beside` leaves room for a state that the host does not
know of.
-/

namespace BareC

/-- A call that a host has answered. -/
inductive HostCall where
  /-- A read into a buffer of `room` bytes. -/
  | read (fd : Descriptor) (room : Nat) (answer : Int)
  | write (fd : Descriptor) (bytes : Bytes) (answer : Int)
  | openPath (path : Bytes) (flags : OpenFlags) (answer : Descriptor)
  | close (fd : Descriptor) (answer : Int)
  | seek (fd : Descriptor) (offset whence answer : Int)
  | stat (path : Bytes) (answer : Int)
  | kill (pid signal answer : Int)
  | processId (answer : Int)
  | openMemoryStream (answer : StreamHandle)
  | openBufferStream (mode : Bytes) (answer : StreamHandle)
  deriving DecidableEq, Repr

namespace Host

/-- The host whose operations are those of `host` put through `around`, which is told what call the
answer of an operation makes. -/
def wrap {σ τ : Type} (host : Host σ)
    (around : {α : Type} → (α → HostCall) → StateM σ α → StateM τ α) (inner : τ → σ) : Host τ where
  read {n} fd buffer := around (fun a => .read fd n a.1) (host.read fd buffer)
  write fd bytes := around (.write fd bytes) (host.write fd bytes)
  openPath path flags := around (.openPath path flags) (host.openPath path flags)
  close fd := around (.close fd) (host.close fd)
  seek fd offset whence := around (.seek fd offset whence) (host.seek fd offset whence)
  stat path info := around (fun a => .stat path a.1) (host.stat path info)
  kill pid signal := around (.kill pid signal) (host.kill pid signal)
  processId := around .processId host.processId
  openMemoryStream := around .openMemoryStream host.openMemoryStream
  openBufferStream buffer mode :=
    around (fun a => .openBufferStream mode a.1) (host.openBufferStream buffer mode)
  exit code s := host.exit code (inner s)

/-- The same host with its calls on record, oldest first. -/
def recorded {σ : Type} (host : Host σ) : Host (σ × Array HostCall) :=
  host.wrap
    (fun call op (s, calls) => let (a, s) := op.run s; (a, (s, calls.push (call a))))
    (·.1)

/-- The same host with another state beside its own, which its operations leave alone. -/
def beside {σ : Type} (τ : Type) (host : Host σ) : Host (σ × τ) :=
  host.wrap (fun _ op (s, t) => let (a, s) := op.run s; (a, (s, t))) (·.1)

end Host

end BareC
