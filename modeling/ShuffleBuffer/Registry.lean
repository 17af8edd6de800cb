import ShuffleBuffer.Block
import ShuffleBuffer.Edge

/-! # The registry of blocks

The registry creates blocks and keeps the committed ones for readers, one under each name. A
registration under a name that is taken replaces the one there. Where a block ended up on another
store than it was declared for, this is told to the registry too. -/

namespace ShuffleBuffer

/-- How a block was registered. -/
structure BlockInfo where
  store : StoreKind
  expectedReads : UInt32
  persistence : Persistence
  /-- The name of its file, for a block on disk. -/
  location : Option String
  deriving DecidableEq

/-- A block that was declared for one store and lives on another. -/
structure Replacement where
  id : BlockId
  source : StoreKind
  target : StoreKind
  deriving DecidableEq

structure RegisteredBlock (α : Type) where
  block : Block α
  info : BlockInfo

structure Registry (α : Type) where
  medium : Medium α
  /-- Whether the pool gets a block's charge back when the block is removed. -/
  returnsCharges : Bool := false
  blocks : List (BlockId × RegisteredBlock α) := []
  /-- The oldest first. -/
  replacements : List Replacement := []
  /-- How many blocks were created. -/
  created : UInt64 := 0

namespace Registry

variable {α : Type}

def onMedium (x : Step (Medium α) β) : Step (Registry α) β :=
  x.within Registry.medium fun medium r => { r with medium }

def entry? (r : Registry α) (id : BlockId) : Option (RegisteredBlock α) := r.blocks.lookup id

def info? (r : Registry α) (id : BlockId) : Option BlockInfo := (r.entry? id).map (·.info)

/-- The registered block of a name. -/
def entry (r : Registry α) (id : BlockId) : Except Fault (RegisteredBlock α) :=
  match r.entry? id with
  | some entry => .ok entry
  | none => .error (.notFound (.block id))

/-- An open block whose body suits the store. -/
def createBlock (id : BlockId) (store : StoreKind) : Step (Registry α) (Block α) := do
  let block ← match store with
    | .memory | .memoryFile => pure (Block.ofValues id store)
    | .serializedMemory | .serializedMemoryFile => pure (Block.ofEncoded id store)
    | .localFile => onMedium (Block.ofFile id store)
  Step.modify fun r => { r with created := r.created + 1 }
  return block

/-- Takes a committed block for a number of reads. -/
def register (block : Block α) (store : StoreKind) (expectedReads : UInt32)
    (persistence : Persistence) : Step (Registry α) Unit := do
  Step.ofExcept (block.require .register .committed)
  let info : BlockInfo := { store, expectedReads, persistence, location := block.location }
  Step.modify fun r =>
    { r with blocks := (block.id, ⟨block, info⟩) :: r.blocks.filter (·.1 ≠ block.id) }

/-- Takes notice that a registered block lives on `target` instead of `source`. -/
def putSpilled (id : BlockId) (source target : StoreKind) : Step (Registry α) Unit := fun r =>
  if (r.info? id).map (·.store) = some target then
    (.ok (), { r with replacements := r.replacements ++ [⟨id, source, target⟩] })
  else (.error (.notFound (.spilledBlock id target)), r)

/-- The elements of a partition of a registered block. -/
def readPartition (r : Registry α) (id : BlockId) (key : PartitionKey) :
    Except Fault (List α) := do
  (← r.entry id).block.readPartition key r.medium

end Registry

end ShuffleBuffer
