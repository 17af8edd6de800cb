import ShuffleBuffer.Bytes

/-! # Hashing elements into partitions

The hash of an element is a 64-bit word. Each word fed to it is mixed in by one rotation, one
exclusive or and one multiplication. Bytes are fed in little-endian groups of eight, then four,
two and one. -/

namespace ShuffleBuffer

namespace Hash

def multiplier : UInt64 := 0x517cc1b727220a95

/-- Mixes one word into the hash. -/
def feedWord (h x : UInt64) : UInt64 := (((h <<< 5) ||| (h >>> 59)) ^^^ x) * multiplier

/-- The number whose little-endian bytes these are. -/
def littleEndian (bytes : Bytes) : UInt64 := bytes.foldr (fun b n => n <<< 8 ||| b.toUInt64) 0

/-- Feeds fewer than eight bytes: four if there are four, then two, then one. -/
def feedRest (h : UInt64) (bytes : Bytes) : UInt64 :=
  let (h, bytes) :=
    if 4 ≤ bytes.length then (feedWord h (littleEndian (bytes.take 4)), bytes.drop 4)
    else (h, bytes)
  let (h, bytes) :=
    if 2 ≤ bytes.length then (feedWord h (littleEndian (bytes.take 2)), bytes.drop 2)
    else (h, bytes)
  if 1 ≤ bytes.length then feedWord h (littleEndian bytes) else h

def feedBytes (h : UInt64) : Bytes → UInt64
  | a :: b :: c :: d :: e :: f :: g :: i :: rest =>
      feedBytes (feedWord h (littleEndian [a, b, c, d, e, f, g, i])) rest
  | bytes => feedRest h bytes

end Hash

/-- Elements that can be hashed: how one is fed to a hash. -/
class Hashed (α : Type) where
  feed : UInt64 → α → UInt64

/-- The hash of an element, from zero. -/
def hashOf [Hashed α] (x : α) : UInt64 := Hashed.feed 0 x

open Hash

instance : Hashed UInt64 := ⟨feedWord⟩
instance : Hashed Int64 := ⟨fun h x => feedWord h x.toUInt64⟩
instance : Hashed Bool := ⟨fun h b => feedWord h b.toUInt64⟩
instance : Hashed Char := ⟨fun h c => feedWord h c.val.toUInt64⟩

/-- A text is its bytes and one closing byte. -/
instance : Hashed String := ⟨fun h s => feedWord (feedBytes h (utf8 s)) 0xff⟩

/-- An optional value is a word that tells whether there is one, and then the value. -/
instance [Hashed α] : Hashed (Option α) where
  feed
    | h, none => feedWord h 0
    | h, some x => Hashed.feed (feedWord h 1) x

/-- A list is its length and then its elements. -/
instance [Hashed α] : Hashed (List α) where
  feed h xs := xs.foldl Hashed.feed (feedWord h xs.length.toUInt64)

end ShuffleBuffer
