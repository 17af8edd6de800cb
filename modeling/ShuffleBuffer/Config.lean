import ShuffleBuffer.Decimal.Shortest
import ShuffleBuffer.Estimate.Tracker
import ShuffleBuffer.Pool

/-! # Configuration

A configuration says how much memory an executor has and which share of it is for storage, how
sizes are estimated and tracked, and where blocks on disk go. -/

namespace ShuffleBuffer

open Estimate

structure MemoryConfig where
  /-- The memory of an executor in MiB. -/
  executorMemory : UInt64 := 1024
  /-- The share of it that the storage pool gets. -/
  storageRatio : Float := 0.5

/-- The bytes of storage memory: whole MiB, and never more than a word holds. -/
def MemoryConfig.storageBytes (m : MemoryConfig) : UInt64 :=
  -- the conversion drops the fraction
  let mebibytes := (m.executorMemory.toFloat * m.storageRatio).toUInt64
  (min (mebibytes.toNat * 0x100000) 0xffffffffffffffff).toUInt64

structure Config where
  memory : MemoryConfig := {}
  estimator : EstimatorOptions := {}
  tracker : TrackerOptions := {}
  /-- Where blocks on disk go, if not to the default place. -/
  directory : Option String := none

/-- A value out of its range. -/
inductive ConfigFlaw where
  | noMemory
  | ratioOutside (ratio : Float)
  | estimator (fault : Fault)
  | tracker (fault : Fault)

def ConfigFlaw.phrase : ConfigFlaw → String
  | noMemory => "memory.executor_memory_mb must be positive"
  | ratioOutside ratio =>
      "memory.storage_pool_ratio " ++ Decimal.positional ratio ++ " is outside (0, 1]"
  | estimator fault => "estimator: " ++ fault.message.getD ""
  | tracker fault => "tracker: " ++ fault.message.getD ""

/-- Why there is no configuration. -/
inductive ConfigFault where
  /-- There is no file, or it is no text. -/
  | unreadable
  /-- The text is no document, or a value has the wrong type. -/
  | malformed
  | invalid (flaw : ConfigFlaw)

def ConfigFault.message : ConfigFault → Option String
  | unreadable | malformed => none
  | invalid flaw => some ("invalid config: " ++ flaw.phrase)

namespace Config

/-- Checks every range; of several flaws the first in the order of the fields is reported. -/
def validate (c : Config) : Except ConfigFault Unit :=
  if c.memory.executorMemory = 0 then .error (.invalid .noMemory)
  else if ¬ (0.0 < c.memory.storageRatio ∧ c.memory.storageRatio ≤ 1.0) then
    .error (.invalid (.ratioOutside c.memory.storageRatio))
  else
    match c.estimator.validate, c.tracker.validate with
    | .error fault, _ => .error (.invalid (.estimator fault))
    | .ok (), .error fault => .error (.invalid (.tracker fault))
    | .ok (), .ok () => .ok ()

theorem parts_of_valid {c : Config} (h : c.validate = .ok ()) :
    c.estimator.validate = .ok () ∧ c.tracker.validate = .ok () := by
  unfold validate at h
  split at h
  · cases h
  · split at h
    · cases h
    · split at h
      · cases h
      · cases h
      · next hestimator htracker => exact ⟨hestimator, htracker⟩

/-- The storage pool that a configuration asks for. -/
def pool (c : Config) : Pool := .ofCapacity c.memory.storageBytes

end Config

end ShuffleBuffer
