import ShuffleBuffer.Estimate.Estimator
import ShuffleBuffer.Estimate.Value

/-! # Size trackers

A tracker is an append-only buffer with a cheap running estimate of its own size. Only when the
number of updates reaches the next checkpoint is a full estimate taken, and the gaps between
checkpoints grow by a constant factor. Between them the size is extrapolated from the two latest
estimates. The full estimate is that of the tracker itself, samples included, before the new
sample is added. A checkpoint moves on before its estimate is taken, so a failed one is not tried
again at every update. -/

namespace ShuffleBuffer.Estimate

structure TrackerOptions where
  /-- By which factor the gap between full estimates grows. -/
  growthRate : Float := 1.1

def TrackerOptions.validate (o : TrackerOptions) : Except Fault Unit :=
  if 1.0 < o.growthRate ∧ o.growthRate.isFinite then .ok () else .error (.invalid .noGrowth)

/-- A full estimate, and the number of updates at which it was taken. -/
structure Sample where
  bytes : UInt64
  updates : UInt64
  deriving DecidableEq

structure Tracker (α : Type) where
  elements : Array α
  /-- The latest full estimates, at most two, the oldest first. -/
  samples : List Sample
  updates : UInt64
  bytesPerUpdate : UInt64
  nextSampleAt : UInt64
  growthRate : Float
  samplesTaken : UInt64
  /-- Values that the elements share. -/
  shared : List Value

namespace Tracker

variable {α : Type}

def sampleShape : Shape :=
  .root (.builtIn 1) "Sample"
    [⟨"bytes", .primitive .long⟩, ⟨"updates", .primitive .long⟩]

def shape : Shape :=
  .root (.builtIn 2) "SizeTracker"
    [⟨"elements", .reference⟩, ⟨"samples", .reference⟩, ⟨"num_updates", .primitive .long⟩,
      ⟨"bytes_per_update", .primitive .long⟩, ⟨"next_sample_at", .primitive .long⟩,
      ⟨"sample_growth_rate", .primitive .double⟩]

/-- The tracker as the estimator sees it. -/
def value [Measured α] (t : Tracker α) : Value :=
  .object shape
    [("elements", .sequence (t.elements.toList.map describe)),
      ("samples", .sequence (t.samples.map fun _ => .object sampleShape [] []))] []

/-- The full estimate of the tracker and everything it holds. -/
def fullEstimate [Measured α] (t : Tracker α) (e : SizeEstimator) :
    Except Fault UInt64 × SizeEstimator :=
  let (root, g) := (Graph.ofShared t.shared).place t.value
  e.estimate g root

/-- The least whole number that is not below `x`, or the largest word if `x` is beyond it. -/
def ceilWord (x : Float) : UInt64 :=
  let floor := x.toUInt64
  if floor.toFloat < x then max floor (floor + 1) else floor

/-- The checkpoint after `updates`: grown by the rate, and at least one update on. -/
def checkpointAfter (growthRate : Float) (updates : UInt64) : UInt64 :=
  max (ceilWord (updates.toFloat * growthRate)) (updates + 1)

/-- The growth in bytes from one sample to a later one beyond one byte per update, or none. -/
def rateBetween (oldest newest : Sample) : UInt64 :=
  let bytes : Int := newest.bytes.toNat - oldest.bytes.toNat
  let updates : Int := newest.updates.toNat - oldest.updates.toNat
  (bytes - updates).toNat.toUInt64

/-- The latest two of some samples. -/
def latestTwo : List Sample → List Sample
  | _ :: b :: c :: rest => latestTwo (b :: c :: rest)
  | samples => samples

/-- The rate over the retained samples. -/
def rateOf : List Sample → UInt64
  | [] => 0
  | oldest :: rest => rateBetween oldest ((oldest :: rest).getLast (by simp))

/-- Takes a full estimate and sets the next checkpoint. -/
def takeSample [Measured α] (t : Tracker α) (e : SizeEstimator) :
    Except Fault Unit × Tracker α × SizeEstimator :=
  let t := { t with nextSampleAt := checkpointAfter t.growthRate t.updates }
  match t.fullEstimate e with
  | (.error fault, e) => (.error fault, t, e)
  | (.ok bytes, e) =>
      let samples := latestTwo (t.samples ++ [⟨bytes, t.updates⟩])
      (.ok (), { t with
        samples
        samplesTaken := t.samplesTaken + 1
        bytesPerUpdate := rateOf samples }, e)

/-- An empty tracker without samples. -/
def blank (growthRate : Float) (shared : List Value) : Tracker α :=
  ⟨#[], [], 1, 0, 1, growthRate, 0, shared⟩

/-- An empty tracker and its first sample. -/
def make [Measured α] (o : TrackerOptions) (e : SizeEstimator) (shared : List Value := []) :
    Except Fault (Tracker α) × SizeEstimator :=
  match o.validate with
  | .error fault => (.error fault, e)
  | .ok () =>
      match (blank o.growthRate shared).takeSample e with
      | (.error fault, _, e) => (.error fault, e)
      | (.ok (), t, e) => (.ok t, e)

/-- Adds an element; at a checkpoint a full estimate is taken. The element stays also when that
estimate fails. -/
def append [Measured α] (t : Tracker α) (e : SizeEstimator) (x : α) :
    Except Fault Unit × Tracker α × SizeEstimator :=
  let t := { t with elements := t.elements.push x, updates := t.updates + 1 }
  if t.nextSampleAt ≤ t.updates then t.takeSample e else (.ok (), t, e)

/-- The extrapolated size: the older sample and the growth since the newer one. -/
def estimateSize (t : Tracker α) : UInt64 :=
  match t.samples with
  | [] => 0
  | oldest :: rest =>
      let newest := (oldest :: rest).getLast (by simp)
      oldest.bytes + t.bytesPerUpdate * (t.updates - newest.updates)

/-- Drops all elements and starts sampling again. -/
def clear [Measured α] (t : Tracker α) (e : SizeEstimator) :
    Except Fault Unit × Tracker α × SizeEstimator :=
  (blank t.growthRate t.shared).takeSample e

/-- Hands out all elements in the order of their appends and starts sampling again. -/
def takeElements [Measured α] (t : Tracker α) (e : SizeEstimator) :
    Except Fault (List α) × Tracker α × SizeEstimator :=
  let (result, rest, e) := t.clear e
  (result.map fun _ => t.elements.toList, rest, e)

def size (t : Tracker α) : Nat := t.elements.size

end Tracker

end ShuffleBuffer.Estimate
