import ShuffleBuffer.Sampling.Uniform

/-! # Drawing distinct indices

`sampleIndices` draws `count` different indices below `length`. Which of three ways it takes
depends on the two numbers alone: shuffling the front of the whole list of indices, one draw per
index from a range that grows (Floyd), or drawing again until the index is new. Asked for at least
as many indices as there are, it answers all of them in order and draws nothing. -/

namespace ShuffleBuffer.Sampling

/-- Swaps each of the first `count` places with a drawn place from there to the end. -/
def shuffledFront (length count : Nat) (s : WordStream) : List Nat × WordStream :=
  let (places, s) := (List.range count).foldl (fun (places, s) i =>
    let (k, s) := inRange i (length - 1) s
    (places.swapIfInBounds i k, s)) (Array.range length, s)
  ((places.take count).toList, s)

/-- Puts `j` in front of the first `t`. -/
def insertBefore (t j : Nat) : List Nat → List Nat
  | [] => []
  | x :: xs => if x = t then j :: x :: xs else x :: insertBefore t j xs

/-- Up to this many indices are kept in a drawn order as they come; more are shuffled at the end. -/
def keptInOrder : Nat := 50

/-- One draw for each of the last `count` indices `j`, from `0` to `j`; where the drawn index is
taken already, `j` itself is new. -/
def growing (length count : Nat) (s : WordStream) : List Nat × WordStream :=
  let ordered := decide (count < keptInOrder)
  let (drawn, s) := (List.range' (length - count) count).foldl (fun (drawn, s) j =>
    let (t, s) := inRange 0 j s
    if t ∈ drawn then (if ordered then insertBefore t j drawn else drawn ++ [j], s)
    else (drawn ++ [t], s)) ([], s)
  if ordered then (drawn, s)
  else
    let (places, s) := (List.range' 1 (count - 1)).reverse.foldl (fun (places, s) i =>
      let (k, s) := inRange 0 i s
      (places.swapIfInBounds i k, s)) (drawn.toArray, s)
    (places.toList, s)

/-- A number below `length` that is not in `drawn`; when patience runs out, the least one. -/
def fresh (bits length : Nat) (drawn : List Nat) : Nat → WordStream → Nat × WordStream
  | 0, s => (((List.range (drawn.length + 1)).find? (· ∉ drawn)).getD 0, s)
  | redraws + 1, s =>
      let (v, s) := below bits length s
      if v ∈ drawn then fresh bits length drawn redraws s else (v, s)

/-- Draws numbers below `length` until `count` different ones are there. -/
def redrawn (bits length count : Nat) (s : WordStream) : List Nat × WordStream :=
  let (drawn, s) := (List.range count).foldl (fun (drawn, s) _ =>
    let (v, s) := fresh bits length drawn patience s
    (v :: drawn, s)) ([], s)
  (drawn.reverse, s)

/-- Up to this many indices are drawn from a growing range where a shuffle does not pay. -/
def fewIndices : Nat := 163

/-- From this length on the costs below have their second value. -/
def longList : Nat := 500000

/-- A shuffle of the whole list pays: its length lies below a bound that grows with the number of
indices, computed in single precision. -/
def shufflePays (length count : Nat) : Bool :=
  let long := decide (longList ≤ length)
  let n := count.toUInt32.toFloat32
  let l := length.toUInt32.toFloat32
  if count < fewIndices then
    let perIndex : Float32 := if long then 8.0 / 45.0 else 1.6
    let base : Float32 := if long then 70.0 / 9.0 else 10.0
    decide (11 < count) && decide (l < (base + perIndex * n) * n)
  else
    let factor : Float32 := if long then 330.0 / 9.0 else 270.0
    decide (l < factor * n)

/-- `count` different indices below `length`, and the stream behind the draws. -/
def sampleIndices (length count : Nat) (s : WordStream) : List Nat × WordStream :=
  if length ≤ count then (List.range length, s)
  else if UInt32.size ≤ length then redrawn 64 length count s
  else if shufflePays length count then shuffledFront length count s
  else if count < fewIndices then growing length count s
  else redrawn 32 length count s

end ShuffleBuffer.Sampling
