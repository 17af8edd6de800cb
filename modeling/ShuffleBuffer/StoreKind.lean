/-! # The stores a block can live on

Five stores: decoded values in memory, encoded values in memory, a local file, and two stores
that keep a block in memory when the storage pool admits it and fall back to a local file. -/

namespace ShuffleBuffer

inductive StoreKind where
  /-- Decoded values in memory. -/
  | memory
  /-- Encoded values in memory. -/
  | serializedMemory
  /-- Encoded values in a local file. -/
  | localFile
  /-- Decoded values in memory if the pool admits them, else a local file. -/
  | memoryFile
  /-- Encoded values in memory if the pool admits them, else a local file. -/
  | serializedMemoryFile
  deriving DecidableEq, Inhabited

namespace StoreKind

def name : StoreKind → String
  | memory => "Memory"
  | serializedMemory => "SerializedMemory"
  | localFile => "LocalFile"
  | memoryFile => "MemoryFile"
  | serializedMemoryFile => "SerializedMemoryFile"

def all : List StoreKind :=
  [memory, serializedMemory, localFile, memoryFile, serializedMemoryFile]

/-- Output on this store is buffered until the pool has decided where it goes. -/
def spillsToDisk : StoreKind → Bool
  | memoryFile | serializedMemoryFile => true
  | _ => false

/-- The block is held in memory. -/
def isMemoryTier : StoreKind → Bool
  | localFile => false
  | _ => true

theorem isMemoryTier_of_ne {store : StoreKind} (h : store ≠ localFile) :
    store.isMemoryTier = true := by
  cases store with
  | memory | serializedMemory | memoryFile | serializedMemoryFile => rfl
  | localFile => exact absurd rfl h

/-- What is buffered is meant for memory. -/
theorem isMemoryTier_of_spillsToDisk {store : StoreKind} (h : store.spillsToDisk = true) :
    store.isMemoryTier = true :=
  isMemoryTier_of_ne fun hfile => by
    rw [hfile] at h
    cases h

/-- Committing a block of this store reports the size of each partition. -/
def tracksSizes : StoreKind → Bool
  | memory | memoryFile => false
  | _ => true

end StoreKind

end ShuffleBuffer
