import ShuffleBuffer.Executor
import ShuffleBuffer.Partition

/-! # Writers

A writer puts the output of one task on one edge into exactly one block. On most stores elements are
written through. On a store that falls back to disk they are buffered until the writer is closed;
then the tracked size is offered to the storage pool. If the pool admits it the buffer goes into the
memory block, otherwise into a file block of the same name, and what the pool took for the offer is
given back. Whatever a close needs to know of the edge is asked before anything changes. -/

namespace ShuffleBuffer

open Estimate

inductive WriterState where
  | writing
  | committedMemory
  | committedDisk
  /-- Another edge carries the output. -/
  | noOp
  deriving DecidableEq

def WriterState.name : WriterState → String
  | writing => "Writing"
  | committedMemory => "CommittedMemory"
  | committedDisk => "CommittedDisk"
  | noOp => "NoOp"

/-- The state after a commit to a store. -/
def WriterState.committed (store : StoreKind) : WriterState :=
  if store.isMemoryTier then committedMemory else committedDisk

structure Writer (σ α : Type) where
  edge : Edge
  destination : Destination
  partitioner : Partitioner σ α
  id : BlockId
  /-- The store that the edge is declared on. -/
  store : StoreKind
  block : Option (Block α) := none
  /-- The buffer, on a store that falls back to disk. -/
  tracker : Option (Tracker α) := none
  state : WriterState := .writing
  writtenBytes : Option UInt64 := none
  spilled : Bool := false

namespace Writer

variable {σ α : Type}

/-- The reads that a block of this writer has to expect. -/
def expectedReads (w : Writer σ α) : Except Fault UInt32 := w.destination.expectedReads w.edge

/-- The size of the buffer as the tracker extrapolates it. -/
def trackedSize (w : Writer σ α) : Option UInt64 := w.tracker.map (·.estimateSize)

/-- A step on the executor of a writer. -/
def onExecutor (x : Step (Executor α) β) : Step (Writer σ α × Executor α) β :=
  x.within Prod.snd fun e s => (s.1, e)

def update (f : Writer σ α → Writer σ α) : Step (Writer σ α × Executor α) Unit :=
  Step.modify fun (w, e) => (f w, e)

/-! ## The buffer -/

section Buffer

variable [Measured α]

/-- A tracker that estimates with the executor's estimator. -/
def makeTracker : Step (Executor α) (Tracker α) := fun e =>
  let (result, estimator) := Tracker.make e.tracker e.estimator
  (result, { e with estimator })

/-- Takes all elements out of a buffer. -/
def takeElements (t : Tracker α) : Step (Executor α) (List α) := fun e =>
  let (result, _, estimator) := t.takeElements e.estimator
  (result, { e with estimator })

/-- Buffers one element; a full estimate that succeeds is counted. -/
def buffer (t : Tracker α) (x : α) : Step (Writer σ α × Executor α) Unit := fun (w, e) =>
  let (result, grown, estimator) := t.append e.estimator x
  let metrics :=
    if t.samplesTaken < grown.samplesTaken then e.metrics.trackerSampled else e.metrics
  (result, { w with tracker := some grown }, { e with estimator, metrics })

end Buffer

/-! ## Writing -/

/-- Writes one element to a block, and seals its partition if it has a key of its own. -/
def put (block : Block α) (key : PartitionKey) (x : α) (dedicated : Bool) :
    Step (Executor α) (Changed α) := do
  let written ← Executor.write block key x
  match written.result with
  | .ok () => if dedicated then Executor.commitPartitions written.block else return written
  | .error _ => return written

/-- Writes elements one after the other. The block is given up if one of them fails. -/
def putAll : List α → Partitioner σ α → Block α → Step (Executor α) (Block α)
  | [], _, block => pure block
  | x :: xs, p, block => do
      let (key, p) := p.next x
      let written ← (put block key x p.dedicated).onFault (·.release block)
      (Step.ofExcept written.result).onFault (·.release written.block)
      putAll xs p written.block

/-- The writer of a task's output on an edge. An edge whose output another one carries gets a writer
that does nothing. -/
def make [Measured α] (task : TaskId) (edge : Edge) (destination : Destination)
    (partitioner : Partitioner σ α) : Step (Executor α) (Writer σ α) := do
  let store ← Step.ofExcept edge.requiredStore
  let id := BlockId.of edge.id task
  let idle : Writer σ α := { edge, destination, partitioner, id, store }
  if edge.isDuplicateOmitted then
    Executor.count Metrics.duplicateOmitted
    return { idle with state := .noOp }
  else
    let block ← Executor.createBlock id store
    let tracker ← if store.spillsToDisk then some <$> makeTracker else pure none
    return { idle with block := some block, tracker }

/-- Buffers or writes one element. The partitioner has moved on also when the write fails. -/
def write [Measured α] (x : α) : Step (Writer σ α × Executor α) Unit := do
  let w ← Step.read Prod.fst
  match w.state, w.tracker, w.block with
  | .noOp, _, _ => return
  | .writing, some tracker, _ => buffer tracker x
  | .writing, none, some block =>
      let (key, partitioner) := w.partitioner.next x
      update fun w => { w with partitioner }
      let written ← onExecutor (put block key x partitioner.dedicated)
      update fun w => { w with block := some written.block }
      Step.ofExcept written.result
  | .writing, none, none => Step.fail (.invalid .noOpenBlock)
  | _, _, _ => Step.fail (.invalid .writeAfterClose)

/-! ## Closing -/

/-- Commits a block and registers it. -/
def commit (block : Block α) (store : StoreKind) (reads : UInt32) (persistence : Persistence) :
    Step (Writer σ α × Executor α) Unit := do
  let (sizes, committed) ← onExecutor (Executor.commit block)
  Step.ofExcept committed.result
  let total := sizes.map PartitionSizes.total
  update fun w => { w with writtenBytes := total }
  onExecutor (Executor.count (·.blockCommitted store total))
  onExecutor (Executor.register committed.block store reads persistence)
  update fun w => { w with state := .committed store }

/-- Flushes the buffer into the memory block. -/
def fill (w : Writer σ α) (block : Block α) (elements : List α) (reads : UInt32)
    (persistence : Persistence) : Step (Writer σ α × Executor α) Unit := do
  let block ← onExecutor (putAll elements w.partitioner block)
  commit block w.store reads persistence

/-- Gives the memory block up and replays the buffer into a file block. -/
def spill (w : Writer σ α) (block : Block α) (elements : List α) (reads : UInt32)
    (persistence : Persistence) : Step (Writer σ α × Executor α) Unit := do
  onExecutor (Executor.spill block)
  let fallback ← onExecutor (Executor.createBlock w.id .localFile)
  let fallback ← onExecutor (putAll elements w.partitioner fallback)
  commit fallback .localFile reads persistence
  onExecutor (Executor.putSpilled w.id w.store .localFile)
  update fun w => { w with spilled := true }

/-- Offers the tracked size to the pool and admits or spills the buffer. A granted offer is taken
back if the block cannot be committed, a denied one in any case. -/
def settle [Measured α] (w : Writer σ α) (block : Block α) (tracker : Tracker α) (reads : UInt32)
    (persistence : Persistence) : Step (Writer σ α × Executor α) Unit := do
  let candidate := tracker.estimateSize
  let elements ← onExecutor (takeElements tracker)
  let granted ← onExecutor fun e =>
    let (granted, pool) := e.pool.reserve w.id candidate
    (.ok granted, { e with pool })
  if granted then
    onExecutor (Executor.count (·.admissionGranted candidate))
    (fill w block elements reads persistence).onFault fun (w, e) =>
      (w, { e with pool := (e.pool.releaseBlock w.id).2 })
  else
    onExecutor (Executor.count (·.admissionDenied candidate))
    (spill w block elements reads persistence).always fun (w, e) =>
      (w, { e with pool := e.pool.release candidate })

/-- Decides where the block goes, commits it and registers it. After a failure past the checks the
writer has no block any more. -/
def close [Measured α] : Step (Writer σ α × Executor α) Unit := do
  let w ← Step.read Prod.fst
  match w.state with
  | .noOp => return
  | .committedMemory | .committedDisk => Step.fail (.invalid .closeAfterClose)
  | .writing =>
      let persistence ← Step.ofExcept w.edge.requiredPersistence
      let reads ← Step.ofExcept w.expectedReads
      match w.block with
      | none => Step.fail (.invalid .noOpenBlock)
      | some block =>
          update fun w => { w with block := none, tracker := none }
          match w.tracker with
          | none => commit block w.store reads persistence
          | some tracker => settle w block tracker reads persistence

end Writer

end ShuffleBuffer
