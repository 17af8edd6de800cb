import ShuffleBuffer.Edge

/-! # Requests

What writers ask of the registry and of the blocks they hold, as a trace. A request is noted before
it is carried out, whether it succeeds or not. -/

namespace ShuffleBuffer

inductive Request where
  | create (id : BlockId) (store : StoreKind)
  | write (key : PartitionKey)
  | commitPartitions
  | commit (store : StoreKind)
  | spill (store : StoreKind)
  | register (id : BlockId) (store : StoreKind) (reads : UInt32) (persistence : Persistence)
  | replace (id : BlockId) (source target : StoreKind)
  deriving DecidableEq

/-- Equal neighbours of a trace folded into one, each with the number of times it stands there. -/
def Request.runs : List Request → List (Request × Nat)
  | [] => []
  | request :: rest =>
      match runs rest with
      | (next, times) :: more =>
          if request = next then (next, times + 1) :: more
          else (request, 1) :: (next, times) :: more
      | [] => [(request, 1)]

end ShuffleBuffer
