import ShuffleBuffer.Sampling.WordStream

/-! # Uniform draws from a range

A draw of `w` bits times the size of the range has its result in the high half and its bias in
the low half. A draw whose low half lies above a bound, the zone, is thrown away and drawn again.
At most half of all draws are thrown away, and the number of redraws is capped, so every draw
ends; a capped draw still lies in the range. -/

namespace ShuffleBuffer.Sampling

/-- How often a draw is repeated before a biased one is taken. -/
def patience : Nat := 4096

/-- The high half of a draw times `size`, redrawn while the low half lies above `zone`. -/
def scaled (bits zone size : Nat) (draw : WordStream → Nat × WordStream) :
    Nat → WordStream → Nat × WordStream
  | 0, s => ((draw s).1 * size / Nat.pow 2 bits, (draw s).2)
  | redraws + 1, s =>
      let (v, s) := draw s
      if v * size % Nat.pow 2 bits ≤ zone then (v * size / Nat.pow 2 bits, s)
      else scaled bits zone size draw redraws s

def drawWord (s : WordStream) : Nat × WordStream := (s.next.1.toNat, s.next.2)

def drawPair (s : WordStream) : Nat × WordStream := (s.nextPair.1.toNat, s.nextPair.2)

/-- A number from `low` to `high`, from one word per draw; the zone is the largest multiple of the
range's size by a power of two. -/
def inRange (low high : Nat) (s : WordStream) : Nat × WordStream :=
  let size := high - low + 1
  let zone := size * Nat.pow 2 (31 - size.log2) - 1
  let (k, s) := scaled 32 zone size drawWord patience s
  (low + k, s)

/-- A number below `size`; the zone is the largest multiple of `size` that a draw can hold. -/
def below (bits size : Nat) (s : WordStream) : Nat × WordStream :=
  let zone := Nat.pow 2 bits - 1 - (Nat.pow 2 bits - size) % size
  scaled bits zone size (if bits = 32 then drawWord else drawPair) patience s

end ShuffleBuffer.Sampling
