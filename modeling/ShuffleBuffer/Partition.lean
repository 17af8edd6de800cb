import ShuffleBuffer.Fault
import ShuffleBuffer.Hash

/-! # Partitioners

A partitioner hands out the key that each element is written under. It may change with every
element it is asked about, so it carries a state. A partitioner with dedicated keys gives every
element a key of its own, as far as keys go; writers then seal the partitions of a block after
each element. -/

namespace ShuffleBuffer

structure Partitioner (σ α : Type) where
  state : σ
  step : σ → α → PartitionKey × σ
  dedicated : Bool

namespace Partitioner

/-- The key of one more element, and the partitioner from then on. -/
def next (p : Partitioner σ α) (x : α) : PartitionKey × Partitioner σ α :=
  let (key, state) := p.step p.state x
  (key, { p with state })

/-- The keys of elements asked about one after the other. -/
def keys (p : Partitioner σ α) : List α → List PartitionKey
  | [] => []
  | x :: xs => (p.next x).1 :: (p.next x).2.keys xs

/-- Every element goes to partition 0. -/
def intact : Partitioner UInt32 α := ⟨0, fun s _ => (0, s), false⟩

/-- A fresh key for every element, counting up from 0; the count wraps. -/
def dedicatedKeys : Partitioner UInt32 α := ⟨0, fun s _ => (s, s + 1), true⟩

/-- An element's key is its hash modulo the number of partitions. -/
def hashed [Hashed α] (partitions : UInt32) : Partitioner UInt32 α :=
  ⟨0, fun s x => ((hashOf x % partitions.toUInt64).toUInt32, s), false⟩

end Partitioner

/-- The ways of partitioning that need no more than a name and a number. -/
inductive PartitionScheme where
  | intact
  | dedicated
  | hash (partitions : UInt32)
  deriving DecidableEq

/-- The partitioner of a scheme; hashing needs at least one partition. -/
def PartitionScheme.partitioner [Hashed α] : PartitionScheme → Except Fault (Partitioner UInt32 α)
  | intact => .ok .intact
  | dedicated => .ok .dedicatedKeys
  | hash partitions =>
      if partitions = 0 then .error (.invalid .noPartitions) else .ok (.hashed partitions)

end ShuffleBuffer
