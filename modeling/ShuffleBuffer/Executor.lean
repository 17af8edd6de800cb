import ShuffleBuffer.Config
import ShuffleBuffer.Metrics
import ShuffleBuffer.Registry
import ShuffleBuffer.Request

/-! # Executors

An executor is what its writers share: the registry, the storage pool, the size estimator, the
options of their trackers and the metrics. What writers ask of the registry and of their blocks goes
through it and is noted. -/

namespace ShuffleBuffer

open Estimate

structure Executor (α : Type) where
  registry : Registry α
  pool : Pool
  estimator : SizeEstimator
  tracker : TrackerOptions := {}
  metrics : Metrics := {}
  /-- What the writers asked, the latest first. -/
  requests : List Request := []

namespace Executor

variable {α : Type}

/-- An executor as a configuration describes it. Its registry gives no charges back. -/
def ofConfig (c : Config) (medium : Medium α) : Except Fault (Executor α) := do
  c.tracker.validate
  let estimator ← SizeEstimator.make c.estimator
  return { registry := { medium }, pool := c.pool, estimator, tracker := c.tracker }

def onRegistry (x : Step (Registry α) β) : Step (Executor α) β :=
  x.within Executor.registry fun registry e => { e with registry }

def onMedium (x : Step (Medium α) β) : Step (Executor α) β := onRegistry (Registry.onMedium x)

def count (f : Metrics → Metrics) : Step (Executor α) Unit :=
  Step.modify fun e => { e with metrics := f e.metrics }

/-- What becomes of the executor when nobody holds a block any more. -/
def release (e : Executor α) (b : Block α) : Executor α :=
  { e with registry := { e.registry with medium := b.release e.registry.medium } }

/-- Drops the registration of a block, gives its charge back and deletes its file, in this order;
when the file cannot be deleted, the rest is done nevertheless. -/
def removeBlock (id : BlockId) : Step (Executor α) BlockInfo := do
  let removed ← Step.read (·.registry.entry id) >>= Step.ofExcept
  Step.modify fun e =>
    { e with
      registry := { e.registry with blocks := e.registry.blocks.filter (·.1 ≠ id) }
      pool := if e.registry.returnsCharges then (e.pool.releaseBlock id).2 else e.pool }
  onMedium removed.block.deleteFile
  return removed.info

/-! ## What writers ask -/

/-- Notes a request and carries it out. -/
def ask (request : Request) (x : Step (Executor α) β) : Step (Executor α) β := do
  Step.modify fun e => { e with requests := request :: e.requests }
  x

def createBlock (id : BlockId) (store : StoreKind) : Step (Executor α) (Block α) :=
  ask (.create id store) (onRegistry (Registry.createBlock id store))

def write (b : Block α) (key : PartitionKey) (x : α) : Step (Executor α) (Changed α) :=
  ask (.write key) (onMedium (b.write key x))

def commitPartitions (b : Block α) : Step (Executor α) (Changed α) :=
  ask .commitPartitions (onMedium b.commitPartitions)

def commit (b : Block α) : Step (Executor α) (Option PartitionSizes × Changed α) :=
  ask (.commit b.store) (onMedium b.commit)

def spill (b : Block α) : Step (Executor α) Unit :=
  ask (.spill b.store) (onMedium do (← b.spill).deleteFile)

def register (b : Block α) (store : StoreKind) (reads : UInt32) (persistence : Persistence) :
    Step (Executor α) Unit :=
  ask (.register b.id store reads persistence)
    (onRegistry (Registry.register b store reads persistence))

def putSpilled (id : BlockId) (source target : StoreKind) : Step (Executor α) Unit :=
  ask (.replace id source target) (onRegistry (Registry.putSpilled id source target))

end Executor

end ShuffleBuffer
