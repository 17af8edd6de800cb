import ShuffleBuffer.Ident

/-! # The storage memory pool

A pool is a signed counter of the storage memory that is left, and a ledger of what each block
was charged. Acquiring always takes the amount off the counter, so the counter may go below
zero, and grants it exactly when something positive is left afterwards; whoever is denied owes a
release of the same amount. The counter is a 64-bit word that wraps; an amount that no such word
holds counts as the largest one there, while the ledger keeps it in full. -/

namespace ShuffleBuffer

/-- An amount as the counter takes it: capped at the largest signed word. -/
def signedAmount (amount : UInt64) : Int64 :=
  if amount < 0x8000000000000000 then amount.toInt64 else Int64.maxValue

structure Pool where
  capacity : UInt64
  remaining : Int64
  charges : List (BlockId × UInt64) := []
  deriving DecidableEq

namespace Pool

def ofCapacity (capacity : UInt64) : Pool := ⟨capacity, signedAmount capacity, []⟩

/-- Takes `amount` off the counter and tells whether a positive rest remains. -/
def acquire (pool : Pool) (amount : UInt64) : Bool × Pool :=
  let rest := pool.remaining - signedAmount amount
  (decide (0 < rest), { pool with remaining := rest })

def release (pool : Pool) (amount : UInt64) : Pool :=
  { pool with remaining := pool.remaining + signedAmount amount }

/-- What is recorded against a block. -/
def charged? (pool : Pool) (id : BlockId) : Option UInt64 := pool.charges.lookup id

/-- Adds `amount` to what is recorded against `id`. -/
def charge (pool : Pool) (id : BlockId) (amount : UInt64) : Pool :=
  let total := (pool.charged? id).getD 0 + amount
  { pool with charges := (id, total) :: pool.charges.filter (·.1 ≠ id) }

/-- Acquires on behalf of a block; only a granted amount is recorded against it. -/
def reserve (pool : Pool) (id : BlockId) (amount : UInt64) : Bool × Pool :=
  match pool.acquire amount with
  | (true, rest) => (true, rest.charge id amount)
  | (false, rest) => (false, rest)

/-- Releases whatever is recorded against a block and forgets it. -/
def releaseBlock (pool : Pool) (id : BlockId) : Option UInt64 × Pool :=
  match pool.charged? id with
  | some amount =>
      (some amount, { pool with charges := pool.charges.filter (·.1 ≠ id) }.release amount)
  | none => (none, pool)

end Pool

end ShuffleBuffer
