import ShuffleBuffer.Bytes
import ShuffleBuffer.Ident

/-! # CRC-32 of stored records

The checksum is the reflected CRC-32 with polynomial `0xEDB88320`, register and result
complemented. The register is updated by one linear step per byte, so feeding two runs of bytes
one after the other is feeding their concatenation. -/

namespace ShuffleBuffer

namespace Crc32

def polynomial : UInt32 := 0xEDB88320

/-- One bit leaves the register; if it was set the polynomial is subtracted. -/
def shiftBit (r : UInt32) : UInt32 :=
  if r &&& 1 = 1 then (r >>> 1) ^^^ polynomial else r >>> 1

/-- Eight bits leave the register. -/
def shiftByte (r : UInt32) : UInt32 :=
  shiftBit (shiftBit (shiftBit (shiftBit (shiftBit (shiftBit (shiftBit (shiftBit r)))))))

def feedByte (r : UInt32) (b : UInt8) : UInt32 := shiftByte (r ^^^ b.toUInt32)

def feed (r : UInt32) (bytes : Bytes) : UInt32 := bytes.foldl feedByte r

/-- The register before the first byte. -/
def initial : UInt32 := 0xFFFFFFFF

def finish (r : UInt32) : UInt32 := r ^^^ 0xFFFFFFFF

theorem feed_append (r : UInt32) (xs ys : Bytes) : feed r (xs ++ ys) = feed (feed r xs) ys :=
  List.foldl_append

end Crc32

def crc32 (bytes : Bytes) : UInt32 := Crc32.finish (Crc32.feed Crc32.initial bytes)

/-- The bytes of a record that its checksum covers: the key, then the payload. -/
def coveredBytes (key : PartitionKey) (payload : Bytes) : Bytes := bigEndian key ++ payload

/-- The checksum stored in the header of one record. -/
def recordChecksum (key : PartitionKey) (payload : Bytes) : UInt32 :=
  crc32 (coveredBytes key payload)

/-- The checksum of all records fed so far. -/
structure RunningChecksum where
  register : UInt32 := Crc32.initial
  deriving DecidableEq, Inhabited

namespace RunningChecksum

def update (c : RunningChecksum) (key : PartitionKey) (payload : Bytes) : RunningChecksum :=
  ⟨Crc32.feed c.register (coveredBytes key payload)⟩

def value (c : RunningChecksum) : UInt32 := Crc32.finish c.register

end RunningChecksum

end ShuffleBuffer
