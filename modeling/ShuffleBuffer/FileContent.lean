import ShuffleBuffer.Bytes

/-! # The content of a file

Most bytes are written at the end of a file, so content is kept in the pieces in which it came.
What can be seen of it is `FileContent.bytes`, and writing is `splice` on that. -/

namespace ShuffleBuffer

/-- Content with some bytes written over it from an offset on; a gap is filled with zeros. -/
def splice (content : Bytes) (offset : Nat) (bytes : Bytes) : Bytes :=
  content.take offset ++ List.replicate (offset - content.length) 0 ++ bytes ++
    content.drop (offset + bytes.length)

theorem splice_end (content bytes : Bytes) :
    splice content content.length bytes = content ++ bytes := by
  simp [splice]

/-- What a file holds, in the pieces in which it was written at its end. -/
structure FileContent where
  /-- The last piece first. -/
  pieces : List Bytes := []
  size : Nat := 0
  size_eq : size = pieces.flatten.length := by rfl

namespace FileContent

def bytes (c : FileContent) : Bytes := c.pieces.reverse.flatten

def ofBytes (bytes : Bytes) : FileContent := ⟨[bytes], bytes.length, by simp⟩

/-- Writes from an offset on. -/
def writeAt (c : FileContent) (offset : Nat) (bytes : Bytes) : FileContent :=
  if offset = c.size then
    ⟨bytes :: c.pieces, c.size + bytes.length, by simp [c.size_eq, Nat.add_comm]⟩
  else ofBytes (splice c.bytes offset bytes)

theorem bytes_ofBytes (bytes : Bytes) : (ofBytes bytes).bytes = bytes := by
  simp [ofBytes, FileContent.bytes]

theorem length_bytes (c : FileContent) : c.bytes.length = c.size := by
  rw [bytes, c.size_eq, List.length_flatten, List.map_reverse, List.sum_reverse,
    List.length_flatten]

/-- Where the bytes are written does not depend on the pieces. -/
theorem bytes_writeAt (c : FileContent) (offset : Nat) (bytes : Bytes) :
    (c.writeAt offset bytes).bytes = splice c.bytes offset bytes := by
  unfold writeAt
  split
  case isTrue h =>
    have hend := splice_end c.bytes bytes
    rw [length_bytes, ← h] at hend
    rw [hend]
    simp [FileContent.bytes]
  case isFalse => rw [bytes_ofBytes]

end FileContent

end ShuffleBuffer
