import BareC.Host

/-!
# A host with files

A working directory with files and directories in it, the three standard streams and a table of open
files. Descriptors of open files count from three; a file that is opened gets the lowest one that is
free. Two descriptors on one file see each other's writes but move through it separately.

Paths are read from the working directory down. What lies outside of it is there, as a directory,
but nothing can be found in it.
-/

namespace BareC

/-- Where a path leads. -/
inductive Place where
  /-- The names from the working directory down. -/
  | inside (names : List Bytes)
  | outside
  deriving DecidableEq, Repr

/-- The place above. -/
def Place.parent : Place → Place
  | .inside [] | .outside => .outside
  | .inside names => .inside names.dropLast

/-- A file that is open. -/
structure OpenFile where
  place : Place
  readable : Bool
  writable : Bool
  position : Nat := 0
  deriving DecidableEq, Repr

/-- The state of a host with files. -/
structure Disk where
  /-- The regular files, none twice. -/
  files : List (List Bytes × Array UInt8) := []
  /-- The directories inside the working directory. -/
  directories : List (List Bytes) := []
  /-- The open files, by descriptor from three on; a closed one leaves its slot free. -/
  table : Array (Option OpenFile) := #[]
  /-- What is left on standard input. -/
  input : Bytes := []
  /-- How many bytes of the input have been taken from the system already. -/
  window : Nat := 0
  output : Array UInt8 := #[]
  errors : Array UInt8 := #[]
  /-- The system opens nothing more for the moment, whatever it is asked for. -/
  exhausted : Bool := false

namespace Disk

/-! ## Paths -/

def slash : UInt8 := 47
def dot : UInt8 := 46

/-- A name may not be longer. -/
def maxName : Nat := 255

/-- A path may not be longer. -/
def maxPath : Nat := 4095

/-- A path that the system can be asked for: text without a zero byte, not empty and not too
long. -/
def isPath (path : Bytes) : Bool :=
  path ≠ [] && path.length ≤ maxPath && !path.contains 0 && (String.fromUTF8? ⟨path.toArray⟩).isSome

def isDirectory (d : Disk) : Place → Bool
  | .outside => true
  | .inside names => names.isEmpty || d.directories.contains names

/-- The contents of a regular file. -/
def contents? (d : Disk) : Place → Option (Array UInt8)
  | .outside => none
  | .inside names => d.files.lookup names

/-- Follows names from a place down. Only a directory leads on, even to itself. -/
def follow (d : Disk) (p : Place) : List Bytes → Option Place
  | [] => some p
  | name :: names =>
    if !d.isDirectory p || maxName < name.length then none
    else if name = [] || name = [dot] then d.follow p names
    else if name = [dot, dot] then d.follow p.parent names
    else match p with
      | .outside => none
      | .inside above => d.follow (.inside (above ++ [name])) names

/-- Where a path leads: to a file, to a directory, or to a name that is free in a directory. -/
def find? (d : Disk) (path : Bytes) : Option Place :=
  if !isPath path then none
  else d.follow (if path.head? = some slash then .outside else .inside []) (path.splitOn slash)

/-! ## Files -/

/-- Gives a file new contents. -/
def setContents (d : Disk) (p : Place) (bytes : Array UInt8) : Disk :=
  match p with
  | .outside => d
  | .inside names => { d with files := (names, bytes) :: d.files.filter (·.1 != names) }

/-- Contents with bytes written over them from a position on. A gap before the position is filled
with zeros; writing nothing makes none. -/
def overwrite (old : Array UInt8) (position : Nat) (bytes : Bytes) : Array UInt8 :=
  if bytes.isEmpty then old
  else old.extract 0 position ++ Array.replicate (position - old.size) 0 ++ bytes.toArray ++
    old.extract (position + bytes.length) old.size

/-! ## The table of open files -/

/-- The descriptor of the first slot. -/
def firstDescriptor : Descriptor := 3

/-- The slot of a descriptor; below the first there is none. -/
def slot? (fd : Descriptor) : Option Nat :=
  if fd < firstDescriptor then none else some (fd - firstDescriptor).toNat

def openFile? (d : Disk) (fd : Descriptor) : Option OpenFile :=
  (slot? fd).bind fun i => d.table[i]?.join

/-- Puts a file into the lowest free slot. -/
def install (d : Disk) (f : OpenFile) : Descriptor × Disk :=
  match d.table.findIdx? Option.isNone with
  | some i => (firstDescriptor + i, { d with table := d.table.setIfInBounds i (some f) })
  | none => (firstDescriptor + d.table.size, { d with table := d.table.push (some f) })

/-- Moves an open file to a position. -/
def moveTo (d : Disk) (fd : Descriptor) (f : OpenFile) (position : Nat) : Disk :=
  match slot? fd with
  | none => d
  | some i => { d with table := d.table.setIfInBounds i (some { f with position }) }

/-! ## The operations -/

/-- The bytes put over the front of a buffer. -/
def fillBuffer {n : Nat} (buffer : Vector UInt8 n) (bytes : Array UInt8) : Vector UInt8 n :=
  Vector.ofFn fun i => (bytes[i.val]?).getD (buffer.get i)

/-- How many bytes the standard input takes from the system at once. -/
def inputWindow : Nat := 8192

/-- Reads standard input. A read is answered from what was taken from the system before; only when
that is used up is more taken, by a read as large as the window without the detour. -/
def readInput {n : Nat} (buffer : Vector UInt8 n) (d : Disk) : (Int × Vector UInt8 n) × Disk :=
  let direct := d.window = 0 && inputWindow ≤ n
  let window := if d.window = 0 then min inputWindow d.input.length else d.window
  let bytes := d.input.take (if direct then n else min n window)
  let window := if direct then 0 else window - bytes.length
  ((bytes.length, fillBuffer buffer bytes.toArray),
    { d with input := d.input.drop bytes.length, window })

def read {n : Nat} (fd : Descriptor) (buffer : Vector UInt8 n) (d : Disk) :
    (Int × Vector UInt8 n) × Disk :=
  if fd = standardInput then readInput buffer d
  else match d.openFile? fd with
    | none => ((-1, buffer), d)
    | some f =>
      match d.contents? f.place with
      | none => ((-1, buffer), d)
      | some old =>
        if !f.readable then ((-1, buffer), d)
        else
          let bytes := old.extract f.position (f.position + n)
          ((bytes.size, fillBuffer buffer bytes), d.moveTo fd f (f.position + bytes.size))

def write (fd : Descriptor) (bytes : Bytes) (d : Disk) : Int × Disk :=
  if fd = standardOutput then (bytes.length, { d with output := d.output ++ bytes })
  else if fd = standardError then (bytes.length, { d with errors := d.errors ++ bytes })
  else match d.openFile? fd with
    | none => (-1, d)
    | some f =>
      match d.contents? f.place with
      | none => (-1, d)
      | some old =>
        if !f.writable then (-1, d)
        else
          let d := d.setContents f.place (overwrite old f.position bytes)
          (bytes.length, d.moveTo fd f (f.position + bytes.length))

/-- What the system makes of an open, if it has room for one more: the file, and what is left
behind. Making or emptying a file without leave to write to it is refused, and so is writing to a
directory. -/
def grant? (d : Disk) (path : Bytes) (flags : OpenFlags) : Option (OpenFile × Disk) :=
  let readable := flags.access != .writeOnly
  let writable := flags.access == .writeOnly || flags.access == .readWrite
  let create := flags &&& .create != 0
  let truncate := flags &&& .truncate != 0
  match if d.exhausted then none else d.find? path with
  | none => none
  | some place =>
    let f : OpenFile := { place, readable, writable }
    if !writable && (create || truncate) then none
    else if d.isDirectory place then
      if writable then none else some (f, d)
    else match d.contents? place with
      | some _ => some (f, if truncate then d.setContents place #[] else d)
      | none => if create then some (f, d.setContents place #[]) else none

/-- What an open comes to when the system answers it so: nothing where it refuses, and else a file
under a descriptor of its own. Of what the system leaves behind, the table is no part. -/
def settle (d : Disk) : Option (OpenFile × Disk) → Descriptor × Disk
  | none => (-1, d)
  | some (f, left) => { left with table := d.table }.install f

def openPath (path : Bytes) (flags : OpenFlags) (d : Disk) : Descriptor × Disk :=
  d.settle (d.grant? path flags)

def close (fd : Descriptor) (d : Disk) : Int × Disk :=
  match slot? fd, d.openFile? fd with
  | some i, some _ => (0, { d with table := d.table.setIfInBounds i none })
  | _, _ => (-1, d)

/-- Moves an open file and returns where it stands then. It may move past the end, but not before
the beginning nor beyond what an offset can say. -/
def seek (fd : Descriptor) (offset whence : Int) (d : Disk) : Int × Disk :=
  match d.openFile? fd, Whence.ofNumber? whence with
  | some f, some origin =>
    let base : Nat := match origin with
      | .start => 0
      | .current => f.position
      | .finish => ((d.contents? f.place).getD #[]).size
    let target := base + offset
    if target < 0 || 0x8000000000000000 ≤ target then (-1, d)
    else (target, d.moveTo fd f target.toNat)
  | _, _ => (-1, d)

/-- The size that is told of a directory. -/
def directorySize : Int := 4096

def stat (path : Bytes) (info : FileInfo) (d : Disk) : (Int × FileInfo) × Disk :=
  match d.find? path with
  | none => ((-1, info), d)
  | some place =>
    if d.isDirectory place then ((0, ⟨FileInfo.directoryMode, directorySize⟩), d)
    else match d.contents? place with
      | none => ((-1, info), d)
      | some bytes => ((0, ⟨FileInfo.regularMode, bytes.size⟩), d)

/-- The number that the host's own process is given. -/
def processId : Int := 1

/-- The host with files. Signals and memory streams are answered as on a bare target: the process of
the host is never signalled. -/
def host : Host Disk where
  read := read
  write := write
  openPath := openPath
  close := close
  seek := seek
  stat := stat
  kill _ _ := pure 0
  processId := pure processId
  openMemoryStream := pure 0
  openBufferStream buffer _ := pure (0, buffer)
  exit code _ := ⟨code⟩

/-! ## Setting up -/

/-- The names of a path, without empty ones. -/
def namesOf (path : Bytes) : List Bytes :=
  (path.splitOn slash).filter (· ≠ [])

/-- Adds a file with the directories above it, or a directory if its path ends in a slash. -/
def add (d : Disk) (path : Bytes) (bytes : Bytes) : Disk :=
  let names := namesOf path
  let isDir := path.getLast? = some slash
  let above := (List.range (if isDir then names.length else names.length - 1)).map
    fun i => names.take (i + 1)
  let d := { d with directories := d.directories ++ above }
  if isDir then d else d.setContents (.inside names) bytes.toArray

/-- The files directly inside the working directory. -/
def topFiles (d : Disk) : List (Bytes × Bytes) :=
  d.files.filterMap fun (names, bytes) =>
    match names with
    | [name] => some (name, bytes.toList)
    | _ => none

end Disk

end BareC
