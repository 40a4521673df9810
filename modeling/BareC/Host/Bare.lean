import BareC.Host

/-!
# A target without an operating system

Every operation takes its arguments, touches no memory of its caller and answers zero; the one
process has a fixed number, and only `exit` does something. Opening a file therefore "succeeds" and
reading it finds it empty, so that every header is the empty header.
-/

namespace BareC

/-- The number of the one process on the target. -/
def bareProcessId : Int := 1000

/-- The host that does nothing. -/
def Host.bare : Host Unit where
  read _ buffer := pure (0, buffer)
  write _ _ := pure 0
  openPath _ _ := pure 0
  close _ := pure 0
  seek _ _ _ := pure 0
  stat _ info := pure (0, info)
  kill _ _ := pure 0
  processId := pure bareProcessId
  openMemoryStream := pure 0
  openBufferStream buffer _ := pure (0, buffer)
  exit code _ := ⟨code⟩

end BareC
