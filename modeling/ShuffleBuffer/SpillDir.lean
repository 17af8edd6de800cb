import ShuffleBuffer.FileContent
import ShuffleBuffer.Step

/-! # The spill directory

The directory maps names to files, and a file is a number under which its content is kept. A file
that loses its name keeps its content for whoever has it open, but nobody finds it again. Creating
a file under a name that is taken empties the file that is there.

The file system may refuse what is asked of it: no file can be created where a plain file stands in
the directory's place, no file can be deleted from a directory that may not be changed, and a file
that may not grow takes a part of what is written to it, if anything. What is refused may change at
any time. -/

namespace ShuffleBuffer

abbrev FileId := Nat

/-- What the file system does not let anybody do. -/
structure Refusals where
  /-- A plain file stands in the directory's place. -/
  blocked : Bool := false
  /-- Files cannot be deleted. -/
  locked : Bool := false
  /-- Files do not grow beyond so many bytes. -/
  limit : Option Nat := none
  /-- What was written cannot be made to last. -/
  unsynced : Bool := false
  deriving DecidableEq

structure SpillDir extends Refusals where
  names : List (String × FileId) := []
  /-- What each file holds, by its number. -/
  contents : List FileContent := []

namespace SpillDir

/-- The longest file name in bytes. -/
def nameLimit : Nat := 255

/-- A name that a file in the directory can have. -/
def isFileName (name : String) : Bool :=
  name.toList.all (fun c => c != '/' && c != '\x00') && decide (name.utf8ByteSize ≤ nameLimit)

def content (d : SpillDir) (file : FileId) : FileContent := d.contents.getD file {}

def setContent (d : SpillDir) (file : FileId) (content : FileContent) : SpillDir :=
  { d with contents := d.contents.set file content }

/-- An empty file under a name. -/
def create (name : String) : Step SpillDir FileId := fun d =>
  if d.blocked ∨ ¬ isFileName name then (.error .io, d)
  else
    match d.names.lookup name with
    | some file => (.ok file, d.setContent file {})
    | none =>
        let file := d.contents.length
        (.ok file, { d with names := (name, file) :: d.names, contents := d.contents ++ [{}] })

/-- What the file under a name holds. -/
def read (d : SpillDir) (name : String) : Except Fault Bytes :=
  match d.names.lookup name with
  | some file => .ok (d.content file).bytes
  | none => .error .io

/-- Takes the name from a file. -/
def remove (name : String) : Step SpillDir Unit := fun d =>
  match d.names.lookup name with
  | some _ =>
      if d.locked then (.error .io, d)
      else (.ok (), { d with names := d.names.filter (·.1 ≠ name) })
  | none => (.error .io, d)

/-- How many of so many bytes a file takes from an offset on. -/
def room (d : SpillDir) (offset count : Nat) : Nat :=
  match d.limit with
  | none => count
  | some limit => min count (limit - offset)

/-- Makes what was written last. -/
def sync (d : SpillDir) : Except Fault Unit := if d.unsynced then .error .io else .ok ()

/-- Nothing is refused. -/
def Works (d : SpillDir) : Prop := d.toRefusals = {}

instance (d : SpillDir) : Decidable d.Works := inferInstanceAs (Decidable (_ = _))

end SpillDir

/-- A file that is open for writing, with its own place in the file and a buffer in front of it. -/
structure OpenFile where
  file : FileId
  offset : Nat := 0
  buffer : Bytes := []
  deriving DecidableEq

namespace OpenFile

/-- So many bytes are never held back. -/
def bufferSize : Nat := 8192

/-- Writes at the file's place what it takes of the bytes. -/
def emit (f : OpenFile) (bytes : Bytes) (d : SpillDir) : OpenFile × SpillDir :=
  let taken := bytes.take (d.room f.offset bytes.length)
  if taken.isEmpty then (f, d)
  else
    ({ f with offset := f.offset + taken.length },
      d.setContent f.file ((d.content f.file).writeAt f.offset taken))

/-- What the file does not take of the bytes. -/
def rest (f : OpenFile) (bytes : Bytes) (d : SpillDir) : Bytes :=
  bytes.drop (d.room f.offset bytes.length)

/-- What is told where these bytes are left over. -/
def told (rest : Bytes) : Except Fault Unit := if rest.isEmpty then .ok () else .error .io

/-- Writes what is in the buffer. What the file does not take stays there. -/
def flush (f : OpenFile) (d : SpillDir) : OpenFile × SpillDir :=
  let (g, d') := f.emit f.buffer d
  ({ g with buffer := f.rest f.buffer d }, d')

/-- Whether the last flush got everything to the file. -/
def flushed (f : OpenFile) : Except Fault Unit := told f.buffer

/-- Writes through the buffer: it is flushed first when the bytes do not fit, and bypassed by bytes
that would fill it alone. -/
def write (f : OpenFile) (bytes : Bytes) (d : SpillDir) :
    (OpenFile × Except Fault Unit) × SpillDir :=
  if bytes.length < bufferSize ∧ f.buffer.length + bytes.length ≤ bufferSize then
    (({ f with buffer := f.buffer ++ bytes }, .ok ()), d)
  else
    let (f, d) := f.flush d
    match f.flushed with
    | .error fault => ((f, .error fault), d)
    | .ok () =>
        if bytes.length < bufferSize then (({ f with buffer := bytes }, .ok ()), d)
        else
          let (g, d') := f.emit bytes d
          ((g, told (f.rest bytes d)), d')

/-- Flushes the buffer and makes what was written last. The file is closed in any case, and what is
still in the buffer is flushed once more. -/
def close (f : OpenFile) : Step SpillDir Unit := fun d =>
  let (f, d) := f.flush d
  let result := do
    f.flushed
    d.sync
  (result, (f.flush d).2)

end OpenFile

end ShuffleBuffer
