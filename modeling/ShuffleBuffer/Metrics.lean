import ShuffleBuffer.StoreKind

/-! # Counters of admission, spill and commit decisions

Nine 64-bit counters; all of them wrap. -/

namespace ShuffleBuffer

structure Metrics where
  admissionsGranted : UInt64 := 0
  admissionsDenied : UInt64 := 0
  bytesAdmitted : UInt64 := 0
  bytesSpilled : UInt64 := 0
  memoryCommits : UInt64 := 0
  fileCommits : UInt64 := 0
  committedBytes : UInt64 := 0
  duplicatesOmitted : UInt64 := 0
  trackerSamples : UInt64 := 0
  deriving DecidableEq, Inhabited

namespace Metrics

/-- A buffered block was admitted to memory. -/
def admissionGranted (m : Metrics) (bytes : UInt64) : Metrics :=
  { m with admissionsGranted := m.admissionsGranted + 1, bytesAdmitted := m.bytesAdmitted + bytes }

/-- A buffered block was refused by the pool. -/
def admissionDenied (m : Metrics) (bytes : UInt64) : Metrics :=
  { m with admissionsDenied := m.admissionsDenied + 1, bytesSpilled := m.bytesSpilled + bytes }

/-- A block was committed, with its total size where the store reports one. -/
def blockCommitted (m : Metrics) (store : StoreKind) (bytes : Option UInt64) : Metrics :=
  let counted :=
    if store.isMemoryTier then { m with memoryCommits := m.memoryCommits + 1 }
    else { m with fileCommits := m.fileCommits + 1 }
  { counted with committedBytes := counted.committedBytes + bytes.getD 0 }

/-- A writer leaves its output to another edge of its group. -/
def duplicateOmitted (m : Metrics) : Metrics :=
  { m with duplicatesOmitted := m.duplicatesOmitted + 1 }

/-- A size tracker took a full estimate. -/
def trackerSampled (m : Metrics) : Metrics := { m with trackerSamples := m.trackerSamples + 1 }

/-- The counters in their reporting order. -/
def toList (m : Metrics) : List UInt64 :=
  [m.admissionsGranted, m.admissionsDenied, m.bytesAdmitted, m.bytesSpilled, m.memoryCommits,
    m.fileCommits, m.committedBytes, m.duplicatesOmitted, m.trackerSamples]

end Metrics

end ShuffleBuffer
