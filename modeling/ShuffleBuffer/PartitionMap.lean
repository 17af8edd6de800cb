import ShuffleBuffer.Ident

/-! # Maps over partition keys

A map holds its entries in ascending order of their keys. -/

namespace ShuffleBuffer

abbrev PartitionMap (γ : Type) := List (PartitionKey × γ)

namespace PartitionMap

variable {γ : Type}

/-- Changes the entry of a key, or makes one. -/
def alter (change : Option γ → γ) (key : PartitionKey) : PartitionMap γ → PartitionMap γ
  | [] => [(key, change none)]
  | (k, x) :: rest =>
      if key < k then (key, change none) :: (k, x) :: rest
      else if key = k then (key, change (some x)) :: rest
      else (k, x) :: alter change key rest

/-- Appends to the list of a key. -/
def append (m : PartitionMap (List γ)) (key : PartitionKey) (xs : List γ) :
    PartitionMap (List γ) :=
  m.alter (fun known => known.getD [] ++ xs) key

end PartitionMap

/-- The bytes of each partition. -/
abbrev PartitionSizes := PartitionMap UInt64

namespace PartitionSizes

def add (sizes : PartitionSizes) (key : PartitionKey) (bytes : UInt64) : PartitionSizes :=
  PartitionMap.alter (fun known => known.getD 0 + bytes) key sizes

def total (sizes : PartitionSizes) : UInt64 := sizes.foldl (fun sum entry => sum + entry.2) 0

end PartitionSizes

end ShuffleBuffer
