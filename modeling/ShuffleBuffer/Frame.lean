import ShuffleBuffer.Checksum
import ShuffleBuffer.Step

/-! # Framed records

A record is stored as a twelve-byte header and its payload. The header holds the partition key,
the payload's length and the record's checksum, four big-endian bytes each. A run of records is
the frames one after the other, with nothing between. -/

namespace ShuffleBuffer

structure Frame where
  key : PartitionKey
  payload : Bytes
  deriving DecidableEq

namespace Frame

def headerLength : Nat := 12

/-- The bytes of a frame, whatever the payload's length. -/
def bytes (f : Frame) : Bytes :=
  bigEndian f.key ++ bigEndian f.payload.length.toUInt32 ++
    bigEndian (recordChecksum f.key f.payload) ++ f.payload

/-- Appends a frame to a buffer, field by field, and tells how many bytes that are. A payload's
length must fit its four header bytes. -/
def append (f : Frame) : Step Bytes Nat :=
  if f.payload.length < UInt32.size then do
    Step.modify (· ++ bigEndian f.key)
    Step.modify (· ++ bigEndian f.payload.length.toUInt32)
    Step.modify (· ++ bigEndian (recordChecksum f.key f.payload))
    Step.modify (· ++ f.payload)
    return headerLength + f.payload.length
  else Step.fail (.invalid .recordTooLarge)

/-- What a frame adds to an empty buffer. -/
def encode (f : Frame) : Except Fault Bytes :=
  match f.append [] with
  | (.ok _, buffer) => .ok buffer
  | (.error fault, _) => .error fault

theorem length_bytes (f : Frame) : f.bytes.length = headerLength + f.payload.length := by
  simp [bytes, bigEndian, headerLength]; omega

/-- Splits a run of frames. Of several faults the first in the run is reported; within one frame
a short payload comes before a wrong checksum. -/
def decodeAll : Bytes → Except Fault (List Frame)
  | [] => .ok []
  | k0 :: k1 :: k2 :: k3 :: l0 :: l1 :: l2 :: l3 :: c0 :: c1 :: c2 :: c3 :: rest =>
      let key := ofBigEndian k0 k1 k2 k3
      let length := (ofBigEndian l0 l1 l2 l3).toNat
      let payload := rest.take length
      if payload.length < length then .error (.corruption .truncatedPayload)
      else if recordChecksum key payload ≠ ofBigEndian c0 c1 c2 c3 then
        .error (.corruption .checksumMismatch)
      else (decodeAll (rest.drop length)).map (⟨key, payload⟩ :: ·)
  | _ => .error (.corruption .truncatedHeader)
termination_by run => run.length
decreasing_by simp; omega

end Frame

end ShuffleBuffer
