import ShuffleBuffer.Ident
import ShuffleBuffer.StoreKind

/-! # What can go wrong, and how it is worded

Every operation that can fail answers an `Except Fault`. A fault is a cause; its wording is in
`Fault.message` alone. Faults that the file system or the element encoding reports carry no
wording of their own. -/

namespace ShuffleBuffer

/-- The life of a block: it takes writes, then it is either committed or given up. -/
inductive BlockState where
  | opened
  | committed
  | spilled
  deriving DecidableEq, Inhabited

def BlockState.name : BlockState → String
  | opened => "Open"
  | committed => "Committed"
  | spilled => "Spilled"

/-- What was asked of a block that was not in the state for it. -/
inductive BlockRequest where
  | write
  | commitPartitions
  | commit
  | spill
  | read
  | register
  deriving DecidableEq

def BlockRequest.phrase : BlockRequest → String
  | write => "write"
  | commitPartitions => "commit partitions of"
  | commit => "commit"
  | spill => "spill"
  | read => "read"
  | register => "register"

/-- A property that an edge or its destination must have before output is committed. -/
inductive EdgeProperty where
  | dataStore
  | communicationPattern
  | dataPersistence
  | destinationParallelism
  deriving DecidableEq

def EdgeProperty.phrase : EdgeProperty → String
  | dataStore => "data store"
  | communicationPattern => "communication pattern"
  | dataPersistence => "data persistence"
  | destinationParallelism => "destination parallelism"

/-- How stored records can turn out to be damaged. -/
inductive Damage where
  | truncatedHeader
  | truncatedPayload
  | checksumMismatch
  | fileClosed
  deriving DecidableEq

def Damage.phrase : Damage → String
  | truncatedHeader => "truncated frame header"
  | truncatedPayload => "truncated frame payload"
  | checksumMismatch => "frame checksum mismatch"
  | fileClosed => "block file already closed"

/-- A request that no state of the world could serve. -/
inductive Misuse where
  | recordTooLarge
  | noPartitions
  | noParallelism
  | noSamples
  | tooManySamples
  | oddAlignment
  | noGrowth
  | writeAfterClose
  | closeAfterClose
  | noOpenBlock
  deriving DecidableEq

def Misuse.phrase : Misuse → String
  | recordTooLarge => "record larger than 4 GiB"
  | noPartitions => "partition count must be positive"
  | noParallelism => "parallelism must be at least 1"
  | noSamples => "sample count must be positive"
  | tooManySamples => "sample count must be below the sampling threshold"
  | oddAlignment => "alignment must be a power of two"
  | noGrowth => "sample growth rate must exceed 1"
  | writeAfterClose => "write on a closed writer"
  | closeAfterClose => "writer already closed"
  | noOpenBlock => "writer has no open block"

/-- What was looked up in the registry of blocks and was not there. -/
inductive Lookup where
  | block (id : BlockId)
  | spilledBlock (id : BlockId) (store : StoreKind)
  deriving DecidableEq

def Lookup.phrase : Lookup → String
  | block id => "block " ++ id.text
  | spilledBlock id store => "spilled block " ++ id.text ++ " on " ++ store.name

inductive Fault where
  /-- The file system refused. -/
  | io
  /-- An element could not be encoded or decoded. -/
  | codec
  | missingProperty (property : EdgeProperty) (edge : EdgeId)
  | unreadableField (field shape : String)
  | corruption (damage : Damage)
  | blockState (request : BlockRequest) (id : BlockId) (state : BlockState)
  | notFound (what : Lookup)
  | invalid (misuse : Misuse)
  deriving DecidableEq

/-- The wording of a fault; none where another party words it. -/
def Fault.message : Fault → Option String
  | io | codec => none
  | missingProperty property edge =>
      some ("missing property " ++ property.phrase ++ " on edge " ++ edge.text)
  | unreadableField field shape => some ("cannot read field " ++ field ++ " of " ++ shape)
  | corruption damage => some ("corruption: " ++ damage.phrase)
  | blockState request id state =>
      some ("cannot " ++ request.phrase ++ " block " ++ id.text ++ " in state " ++ state.name)
  | notFound what => some (what.phrase ++ " not found")
  | invalid misuse => some ("invalid argument: " ++ misuse.phrase)

end ShuffleBuffer
