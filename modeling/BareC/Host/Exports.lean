import BareC.Host.Bare

/-!
# The C library of a bare target

Programs and tools that expect a C library find its symbols here. Each call is passed to the bare
host without the caller's pointers, so no memory of the caller is ever read or written: a call with
a buffer is one with an empty buffer.
-/

namespace BareC

/-- A call of the C library, as far as its arguments are not pointers. -/
inductive LibraryCall where
  | read (fd : Descriptor)
  | write (fd : Descriptor)
  | openPath (flags : OpenFlags)
  | close (fd : Descriptor)
  | seek (fd : Descriptor) (offset whence : Int)
  | stat
  | kill (pid signal : Int)
  | processId
  | openMemoryStream
  | openBufferStream
  deriving Repr

/-- What the call returns. -/
def LibraryCall.result (call : LibraryCall) : Int :=
  let host := Host.bare
  match call with
  | .read fd => ((host.read fd #v[]).run ()).1.1
  | .write fd => ((host.write fd []).run ()).1
  | .openPath flags => ((host.openPath [] flags).run ()).1
  | .close fd => ((host.close fd).run ()).1
  | .seek fd offset whence => ((host.seek fd offset whence).run ()).1
  | .stat => ((host.stat [] ⟨0, 0⟩).run ()).1.1
  | .kill pid signal => ((host.kill pid signal).run ()).1
  | .processId => (host.processId.run ()).1
  | .openMemoryStream => (host.openMemoryStream.run ()).1
  | .openBufferStream => ((host.openBufferStream #v[] []).run ()).1.1

/-- A call as its caller sees it: the memory behind its pointers comes back as it was. -/
def LibraryCall.run {n : Nat} (call : LibraryCall) (memory : Vector UInt8 n) :
    Int × Vector UInt8 n :=
  (call.result, memory)

end BareC
