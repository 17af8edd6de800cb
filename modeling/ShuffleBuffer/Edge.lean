import ShuffleBuffer.Fault

/-! # Edges and the properties a writer needs from them

Properties are assigned by earlier passes over the dataflow graph and may be missing. Asking for
a missing one is a fault that names the edge. -/

namespace ShuffleBuffer

/-- How data flows from source tasks to destination tasks. -/
inductive CommunicationPattern where
  /-- Each source task feeds exactly one destination task. -/
  | oneToOne
  /-- Every destination task reads every source block. -/
  | broadcast
  /-- Source output is partitioned across destination tasks. -/
  | shuffle
  deriving DecidableEq

def CommunicationPattern.name : CommunicationPattern → String
  | oneToOne => "OneToOne"
  | broadcast => "BroadCast"
  | shuffle => "Shuffle"

def CommunicationPattern.all : List CommunicationPattern := [oneToOne, broadcast, shuffle]

/-- What happens to a block after its expected reads. -/
inductive Persistence where
  | keep
  | discard
  deriving DecidableEq

def Persistence.name : Persistence → String
  | keep => "Keep"
  | discard => "Discard"

def Persistence.all : List Persistence := [keep, discard]

/-- Edges known to carry the same data; only the representative's output is materialised. -/
structure DuplicateGroup where
  name : String
  size : UInt32
  representative : EdgeId
  deriving DecidableEq

structure Edge where
  id : EdgeId
  store : Option StoreKind := none
  pattern : Option CommunicationPattern := none
  persistence : Option Persistence := none
  group : Option DuplicateGroup := none
  deriving DecidableEq

namespace Edge

/-- The value of a property, or the fault that names it and the edge. -/
def require (edge : Edge) (property : EdgeProperty) : Option α → Except Fault α
  | some value => .ok value
  | none => .error (.missingProperty property edge.id)

def requiredStore (edge : Edge) : Except Fault StoreKind := edge.require .dataStore edge.store

def requiredPattern (edge : Edge) : Except Fault CommunicationPattern :=
  edge.require .communicationPattern edge.pattern

def requiredPersistence (edge : Edge) : Except Fault Persistence :=
  edge.require .dataPersistence edge.persistence

/-- Another edge of a group of at least two carries this edge's output. -/
def isDuplicateOmitted (edge : Edge) : Bool :=
  match edge.group with
  | some group => decide (1 < group.size) && group.representative != edge.id
  | none => false

/-- How many edges read the block in this edge's name: the group's size, at least one. -/
def duplicateMultiplier (edge : Edge) : UInt32 :=
  match edge.group with
  | some group => max group.size 1
  | none => 1

end Edge

/-- The vertex that an edge leads to. -/
structure Destination where
  id : VertexId
  parallelism : Option UInt32 := none
  deriving DecidableEq

namespace Destination

/-- The number of destination tasks, at least one; a missing number is the edge's fault. -/
def requiredParallelism (dst : Destination) (edge : Edge) : Except Fault UInt32 :=
  match dst.parallelism with
  | some 0 => .error (.invalid .noParallelism)
  | some n => .ok n
  | none => .error (.missingProperty .destinationParallelism edge.id)

/-- How many reads a block on `edge` has to expect: one per destination task that reads it, for
each edge of the duplicate group, and never more than a word holds. -/
def expectedReads (dst : Destination) (edge : Edge) : Except Fault UInt32 := do
  let perBlock ←
    match ← edge.requiredPattern with
    | .oneToOne => pure 1
    | .broadcast | .shuffle => dst.requiredParallelism edge
  pure (min (perBlock.toNat * edge.duplicateMultiplier.toNat) 0xffffffff).toUInt32

end Destination

end ShuffleBuffer
