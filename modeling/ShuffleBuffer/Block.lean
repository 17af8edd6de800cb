import ShuffleBuffer.Codec
import ShuffleBuffer.Frame
import ShuffleBuffer.PartitionMap
import ShuffleBuffer.SpillDir

/-! # Blocks

A block takes elements under partition keys while it is open. Sealing its partitions makes later
elements go to new ones, and a partition is read as all sealed partitions of its key one after the
other. A block ends committed, and can then be read, or spilled, when its elements live on in
another block.

Three kinds of block differ in where the elements are: decoded in memory, as frames in memory, or
as frames in a file of the spill directory, in the order of their writes. The latter two report how
many bytes each partition takes. -/

namespace ShuffleBuffer

/-- What blocks of elements of one type share: how elements are encoded, how many were so far, and
where files are. -/
structure Medium (α : Type) where
  codec : Codec α
  encodings : Nat := 0
  dir : SpillDir := {}

namespace Medium

/-- The bytes of one more element. -/
def encode (x : α) : Step (Medium α) Bytes := fun m =>
  (m.codec.encode m.encodings x, { m with encodings := m.encodings + 1 })

/-- The frame of one more element under a key. -/
def frame (key : PartitionKey) (x : α) : Step (Medium α) (Bytes × Bytes) := do
  let payload ← encode x
  let bytes ← Step.ofExcept (Frame.encode ⟨key, payload⟩)
  return (payload, bytes)

/-- A step on the spill directory. -/
def onDir (x : Step SpillDir β) : Step (Medium α) β :=
  x.within Medium.dir fun dir m => { m with dir }

/-- What is done with a file that goes on being open. -/
def onFile (x : SpillDir → β × SpillDir) : Step (Medium α) β :=
  onDir fun dir => let (answer, dir) := x dir; (.ok answer, dir)

/-- Closes a file, if there is one, and answers what that comes to. -/
def closeFile : Option OpenFile → Step (Medium α) (Except Fault Unit)
  | some handle => (onDir handle.close).attempt
  | none => pure (.ok ())

/-- Elements from a run of frames. -/
def decode (m : Medium α) (frames : List Frame) : Except Fault (List α) :=
  frames.mapM fun frame => m.codec.decode frame.payload

end Medium

/-- Where the elements of a block are. Partitions in memory are pending until they are sealed; the
encoded ones are runs of frames by then. -/
inductive Body (α : Type) where
  | values (pending : PartitionMap (List α)) (sealed : List (PartitionKey × List α))
  | encoded (pending : PartitionMap (List Bytes)) (sealed : List (PartitionKey × Bytes))
      (sizes : PartitionSizes)
  /-- The file is open until the block is committed or spilled. -/
  | file (handle : Option OpenFile) (sizes : PartitionSizes) (checksum : RunningChecksum)

structure Block (α : Type) where
  id : BlockId
  /-- The store that the block stands for, whatever its body is. -/
  store : StoreKind
  state : BlockState
  body : Body α

/-- A block that a call has changed, and what the call came to. What the file system refuses leaves
a block behind that is not as it was, so the fault does not end the step. -/
structure Changed (α : Type) where
  block : Block α
  result : Except Fault Unit := .ok ()

namespace Block

variable {α : Type}

def ofValues (id : BlockId) (store : StoreKind) : Block α := ⟨id, store, .opened, .values [] []⟩

def ofEncoded (id : BlockId) (store : StoreKind) : Block α :=
  ⟨id, store, .opened, .encoded [] [] []⟩

/-- The name of the file that a block of this name would have. -/
def fileName (id : BlockId) : String := id.text ++ ".block"

/-- A block in a new file; a file of the same name is emptied. -/
def ofFile (id : BlockId) (store : StoreKind) : Step (Medium α) (Block α) := do
  let file ← Medium.onDir (SpillDir.create (fileName id))
  return ⟨id, store, .opened, .file (some { file }) [] {}⟩

/-- The name of the block's file, if it has one. -/
def location (b : Block α) : Option String :=
  match b.body with
  | .file .. => some (fileName b.id)
  | _ => none

/-- How many partitions are sealed, for a block of decoded values. -/
def sealedPartitions? (b : Block α) : Option Nat :=
  match b.body with
  | .values _ sealed => some sealed.length
  | _ => none

/-- The checksum of all records so far, for a block on disk. -/
def checksum? (b : Block α) : Option UInt32 :=
  match b.body with
  | .file _ _ checksum => some checksum.value
  | _ => none

/-- Only a block in a certain state can do what is asked. -/
def require (b : Block α) (request : BlockRequest) (state : BlockState) : Except Fault Unit :=
  if b.state = state then .ok () else .error (.blockState request b.id b.state)

/-- Adds an element to the partition of a key. A frame that is refused still counts for the
checksum. -/
def write (b : Block α) (key : PartitionKey) (x : α) : Step (Medium α) (Changed α) := do
  Step.ofExcept (b.require .write .opened)
  match b.body with
  | .values pending sealed =>
      return { block := { b with body := .values (pending.append key [x]) sealed } }
  | .encoded pending sealed sizes =>
      let (_, bytes) ← Medium.frame key x
      let sizes := sizes.add key bytes.length.toUInt64
      return { block := { b with body := .encoded (pending.append key [bytes]) sealed sizes } }
  | .file none sizes checksum =>
      let (payload, _) ← Medium.frame key x
      return {
        block := { b with body := .file none sizes (checksum.update key payload) }
        result := .error (.corruption .fileClosed) }
  | .file (some handle) sizes checksum =>
      let (payload, bytes) ← Medium.frame key x
      let (handle, result) ← Medium.onFile (handle.write bytes)
      let sizes := match result with
        | .ok () => sizes.add key bytes.length.toUInt64
        | .error _ => sizes
      let checksum := checksum.update key payload
      return { block := { b with body := .file (some handle) sizes checksum }, result }

/-- Seals the partitions so far; on disk, everything so far gets to the file. -/
def commitPartitions (b : Block α) : Step (Medium α) (Changed α) := do
  Step.ofExcept (b.require .commitPartitions .opened)
  match b.body with
  | .values pending sealed =>
      return { block := { b with body := .values [] (sealed ++ pending) } }
  | .encoded pending sealed sizes =>
      let runs := pending.map fun (key, frames) => (key, frames.flatten)
      return { block := { b with body := .encoded [] (sealed ++ runs) sizes } }
  | .file none _ _ => Step.fail (.corruption .fileClosed)
  | .file (some handle) sizes checksum =>
      let handle ← Medium.onFile handle.flush
      return {
        block := { b with body := .file (some handle) sizes checksum }
        result := handle.flushed }

/-- What becomes of the medium when nobody holds the block any more: the buffer of an open file is
flushed. -/
def release (b : Block α) (m : Medium α) : Medium α :=
  match b.body with
  | .file (some handle) _ _ => { m with dir := (handle.flush m.dir).2 }
  | _ => m

/-- Seals the block for good and tells the size of each partition, where sizes are kept. A file is
closed by then, also when not all of it gets there; the block is still open after that. -/
def commit (b : Block α) : Step (Medium α) (Option PartitionSizes × Changed α) := do
  match b.body with
  | .file handle sizes checksum =>
      Step.ofExcept (b.require .commit .opened)
      let result ← Medium.closeFile handle
      let block : Block α := { b with body := .file none sizes checksum }
      match result with
      | .ok () => return (some sizes, { block := { block with state := .committed } })
      | .error _ => return (none, { block, result })
  | _ =>
      let c ← b.commitPartitions
      let sizes := match c.block.body with
        | .encoded _ _ sizes => some sizes
        | _ => none
      return (sizes, { c with block := { c.block with state := .committed } })

/-- Gives up the elements of an open block. A file that it may have is still there. -/
def spill (b : Block α) : Step (Medium α) (Block α) := do
  Step.ofExcept (b.require .spill .opened)
  Step.modify b.release
  let body := match b.body with
    | .values .. => .values [] []
    | .encoded .. => .encoded [] [] []
    | .file .. => .file none [] {}
  return { b with state := .spilled, body }

/-- Deletes the file of a block that has one. -/
def deleteFile (b : Block α) : Step (Medium α) Unit :=
  match b.location with
  | some name => Medium.onDir (SpillDir.remove name)
  | none => pure ()

/-- The elements of a partition of a committed block, in the order of their writes. -/
def readPartition (b : Block α) (key : PartitionKey) (m : Medium α) : Except Fault (List α) := do
  b.require .read .committed
  match b.body with
  | .values _ sealed => return (sealed.filter (·.1 = key)).flatMap (·.2)
  | .encoded _ sealed _ =>
      let runs ← (sealed.filter (·.1 = key)).mapM fun run => do m.decode (← Frame.decodeAll run.2)
      return runs.flatten
  | .file .. =>
      let frames ← Frame.decodeAll (← m.dir.read (fileName b.id))
      m.decode (frames.filter (·.key = key))

end Block

end ShuffleBuffer
