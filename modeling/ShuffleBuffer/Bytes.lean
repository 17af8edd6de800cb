/-! # Byte strings and words in big-endian order -/

namespace ShuffleBuffer

abbrev Bytes := List UInt8

/-- The four bytes of a word, the most significant first. -/
def bigEndian (w : UInt32) : Bytes :=
  [(w >>> 24).toUInt8, (w >>> 16).toUInt8, (w >>> 8).toUInt8, w.toUInt8]

/-- The word whose bytes are `a b c d`, the most significant first. -/
def ofBigEndian (a b c d : UInt8) : UInt32 :=
  (a.toUInt32 <<< 24) ||| (b.toUInt32 <<< 16) ||| (c.toUInt32 <<< 8) ||| d.toUInt32

/-- The UTF-8 bytes of a text. -/
def utf8 (s : String) : Bytes := s.toUTF8.data.toList

/-- The text that these bytes are the UTF-8 form of, if they are one. -/
def ofUtf8? (bytes : Bytes) : Option String := String.fromUTF8? ⟨bytes.toArray⟩

end ShuffleBuffer
