import BareC.Host

/-!
# Headers held in memory

A host that serves a fixed set of named headers and nothing else. How many bytes one read brings is
a parameter, counted by the reads so far, and so is the count it then reports: a reader must give
the same result for every portioning, and must not trust the report.
-/

namespace BareC

/-- A set of headers and the manner in which they are served. -/
structure Headers where
  contents : List (Bytes × Bytes)
  /-- The most that the read with this number brings. -/
  portion : Nat → Nat
  /-- What a read that brought so many bytes answers. -/
  report : Nat → Int

namespace Headers

/-- Which headers are open, and what is left to read of each. -/
structure Session where
  unread : List (Descriptor × Bytes) := []
  /-- The descriptor that the next open is given. No number is given out twice. -/
  next : Descriptor := 3
  reads : Nat := 0

/-- A buffer with as many bytes as fit written over its front. -/
def fill {n : Nat} (buffer : Vector UInt8 n) (bytes : Bytes) : Vector UInt8 n :=
  Vector.ofFn fun i => (bytes[i.val]?).getD (buffer.get i)

/-- The host that serves the headers. -/
def host (h : Headers) : Host Session where
  read {n} fd buffer s :=
    match s.unread.lookup fd with
    | none => ((-1, buffer), s)
    | some bytes =>
      let brought := bytes.take (min n (h.portion s.reads))
      let unread := s.unread.map fun (d, b) => (d, if d == fd then b.drop brought.length else b)
      ((h.report brought.length, fill buffer brought), { s with unread, reads := s.reads + 1 })
  write _ bytes := pure bytes.length
  openPath path _ s :=
    match h.contents.lookup path with
    | none => (-1, s)
    | some bytes => (s.next, { s with unread := (s.next, bytes) :: s.unread, next := s.next + 1 })
  close fd s := (0, { s with unread := s.unread.filter (·.1 != fd) })
  seek _ _ _ := pure (-1)
  stat _ info := pure (-1, info)
  kill _ _ := pure 0
  processId := pure 0
  openMemoryStream := pure 0
  openBufferStream buffer _ := pure (0, buffer)
  exit code _ := ⟨code⟩

end Headers

end BareC
