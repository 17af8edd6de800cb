/-! # A reproducible stream of random words

The stream is the output of the ChaCha block function with eight rounds: block `n` is the mixed
state of key, counter `n` and a zero nonce, added to the unmixed one. The key is stretched from a
64-bit seed by eight steps of a permuted congruential generator. Equal seeds give equal
streams. -/

namespace ShuffleBuffer.Sampling

def rotateLeft (x r : UInt32) : UInt32 := (x <<< r) ||| (x >>> (32 - r))

namespace ChaCha

abbrev Key := Vector UInt32 8
abbrev State := Vector UInt32 16

def quarterRound (s : State) (a b c d : Fin 16) : State :=
  let s := s.set a (s[a] + s[b])
  let s := s.set d (rotateLeft (s[d] ^^^ s[a]) 16)
  let s := s.set c (s[c] + s[d])
  let s := s.set b (rotateLeft (s[b] ^^^ s[c]) 12)
  let s := s.set a (s[a] + s[b])
  let s := s.set d (rotateLeft (s[d] ^^^ s[a]) 8)
  let s := s.set c (s[c] + s[d])
  s.set b (rotateLeft (s[b] ^^^ s[c]) 7)

/-- A round over the four columns, then a round over the four diagonals. -/
def doubleRound (s : State) : State :=
  let s := quarterRound s 0 4 8 12
  let s := quarterRound s 1 5 9 13
  let s := quarterRound s 2 6 10 14
  let s := quarterRound s 3 7 11 15
  let s := quarterRound s 0 5 10 15
  let s := quarterRound s 1 6 11 12
  let s := quarterRound s 2 7 8 13
  quarterRound s 3 4 9 14

def unmixed (k : Key) (counter : UInt64) : State :=
  #v[0x61707865, 0x3320646e, 0x79622d32, 0x6b206574,
    k[0], k[1], k[2], k[3], k[4], k[5], k[6], k[7],
    counter.toUInt32, (counter >>> 32).toUInt32, 0, 0]

def block (k : Key) (counter : UInt64) : State :=
  let s := unmixed k counter
  (doubleRound (doubleRound (doubleRound (doubleRound s)))).zipWith (· + ·) s

end ChaCha

/-- One step of the congruential generator that stretches a seed, and the word it gives. -/
def stretch (s : UInt64) : UInt32 × UInt64 :=
  let s := s * 6364136223846793005 + 11634580027462260723
  let x := (((s >>> 18) ^^^ s) >>> 27).toUInt32
  let r := (s >>> 59).toUInt32
  (rotateLeft x (32 - r), s)

/-- The key words from `n` steps of stretching. -/
def stretched : Nat → UInt64 → List UInt32
  | 0, _ => []
  | n + 1, s => (stretch s).1 :: stretched n (stretch s).2

theorem length_stretched (n : Nat) (s : UInt64) : (stretched n s).length = n := by
  induction n generalizing s with
  | zero => rfl
  | succ n ih => simp [stretched, ih]

def keyOfSeed (seed : UInt64) : ChaCha.Key :=
  ⟨(stretched 8 seed).toArray, by simp [length_stretched]⟩

/-- A stream of words: the block being read and how far it has been read. -/
structure WordStream where
  key : ChaCha.Key
  counter : UInt64
  block : ChaCha.State
  position : Fin 16

namespace WordStream

def ofSeed (seed : UInt64) : WordStream :=
  let key := keyOfSeed seed
  ⟨key, 0, ChaCha.block key 0, 0⟩

/-- The next word, and the stream behind it. -/
def next (s : WordStream) : UInt32 × WordStream :=
  let word := s.block[s.position]
  if s.position = 15 then
    (word, ⟨s.key, s.counter + 1, ChaCha.block s.key (s.counter + 1), 0⟩)
  else (word, { s with position := s.position + 1 })

/-- The next two words as one number, the low half first. -/
def nextPair (s : WordStream) : UInt64 × WordStream :=
  let (low, s) := s.next
  let (high, s) := s.next
  ((high.toUInt64 <<< 32) ||| low.toUInt64, s)

end WordStream

end ShuffleBuffer.Sampling
