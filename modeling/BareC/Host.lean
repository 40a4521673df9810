import BareC.Bytes

/-!
# The host below the toolchain

The compiler reaches whatever system it runs on through a table of operations, a `Host`. It opens
and reads headers, writes log lines and leaves all else alone. Nothing is assumed about a table: an
operation may answer anything, and a caller takes a result of zero to mean that nothing happened.

The table is a record of operations on a state of the host's own, so that one definition of a stage
serves every host there can be: one with no system at all (`Host.bare`), headers held in memory
(`Headers.host`), a file system (`Disk.host`), or any of these with its calls recorded
(`Host.recorded`).
-/

namespace BareC

/-- A descriptor, as an `int` of the host. -/
abbrev Descriptor := Int

/-! ## Names of the host's constants -/

def standardInput : Descriptor := 0
def standardOutput : Descriptor := 1
def standardError : Descriptor := 2

/-- How a file is opened: the low two bits say what for, the others are requests of their own. -/
abbrev OpenFlags := Word

namespace OpenFlags

def readOnly : OpenFlags := 0
def writeOnly : OpenFlags := 1
def readWrite : OpenFlags := 2
/-- Makes the file if it is missing. -/
def create : OpenFlags := 64
/-- Empties the file. -/
def truncate : OpenFlags := 512

/-- What the file is opened for: its low two bits. -/
def access (flags : OpenFlags) : OpenFlags := flags &&& 3

end OpenFlags

/-- Where a move inside a file is counted from. -/
inductive Whence where
  | start
  | current
  | finish
  deriving DecidableEq, Repr

/-- The origin with a number of the host's; other numbers name none. -/
def Whence.ofNumber? : Int → Option Whence
  | 0 => some .start
  | 1 => some .current
  | 2 => some .finish
  | _ => none

/-- What a host tells about a file. -/
structure FileInfo where
  mode : Nat
  size : Int
  deriving DecidableEq, Repr

def FileInfo.regularMode : Nat := 0o100000
def FileInfo.directoryMode : Nat := 0o040000

/-- A handle to a stream in memory; zero is none. -/
abbrev StreamHandle := Nat

/-- The end of everything that runs on a host. -/
structure Halt where
  code : Int
  deriving DecidableEq, Repr

/-- The last words of a run that was halted away from the target. -/
def Halt.message (h : Halt) : String :=
  "sys_halt: exit code " ++ toString h.code

/-! ## The table -/

/-- A host with states `σ`. Buffers keep their length: a host fills some of the bytes it is given
and hands the same number back. -/
structure Host (σ : Type) where
  /-- Reads into a buffer and returns a count, or a negative number. -/
  read {n : Nat} (fd : Descriptor) (buffer : Vector UInt8 n) : StateM σ (Int × Vector UInt8 n)
  write (fd : Descriptor) (bytes : Bytes) : StateM σ Int
  /-- Returns a descriptor, or a negative number. -/
  openPath (path : Bytes) (flags : OpenFlags) : StateM σ Descriptor
  close (fd : Descriptor) : StateM σ Int
  seek (fd : Descriptor) (offset : Int) (whence : Int) : StateM σ Int
  /-- Fills in what it knows of a file, leaving `info` alone otherwise. -/
  stat (path : Bytes) (info : FileInfo) : StateM σ (Int × FileInfo)
  kill (pid signal : Int) : StateM σ Int
  processId : StateM σ Int
  openMemoryStream : StateM σ StreamHandle
  /-- Opens a stream over a buffer, which it may write to. -/
  openBufferStream {n : Nat} (buffer : Vector UInt8 n) (mode : Bytes) :
    StateM σ (StreamHandle × Vector UInt8 n)
  /-- Ends the run; no state comes back. -/
  exit (code : Int) : σ → Halt

end BareC
