import ShuffleBuffer.Fault
import ShuffleBuffer.Bytes
import ShuffleBuffer.Json.Reader
import ShuffleBuffer.Json.Writer

/-! # Codecs: elements as bytes

A codec turns an element into bytes and bytes into an element; either may fail. Encoding is told
how many elements the codec was asked to encode before, so that a codec may give out after a
while. -/

namespace ShuffleBuffer

structure Codec (α : Type) where
  /-- The bytes of an element, after `earlier` others. -/
  encode : (earlier : Nat) → α → Except Fault Bytes
  decode : Bytes → Except Fault α

/-- Types whose values are written and read as JSON. -/
class JsonElement (α : Type) where
  write : α → Bytes
  read : Json.Reader α

namespace Codec

/-- JSON for every element. -/
def json [JsonElement α] : Codec α where
  encode _ x := .ok (JsonElement.write x)
  decode bytes :=
    match Json.readAll JsonElement.read bytes with
    | some x => .ok x
    | none => .error .codec

/-- The `k`-th encoding fails, counted from one. -/
def failingEncode (codec : Codec α) (k : Nat) : Codec α :=
  { codec with
    encode := fun earlier x => if earlier + 1 = k then .error .codec else codec.encode earlier x }

/-- Every decoding fails. -/
def failingDecode (codec : Codec α) : Codec α := { codec with decode := fun _ => .error .codec }

end Codec

open Json

/-- An integer type as JSON, from its range and the way to it. -/
abbrev integerElement (low high : Int) (toInt : α → Int) (ofInt : Int → α) : JsonElement α where
  write x := writeInt (toInt x)
  read bs := (readWithin low high bs).map fun (n, rest) => (ofInt n, rest)

instance : JsonElement UInt64 :=
  integerElement 0 0xffffffffffffffff (fun x => x.toNat) (fun n => n.toNat.toUInt64)

instance : JsonElement UInt32 :=
  integerElement 0 0xffffffff (fun x => x.toNat) (fun n => n.toNat.toUInt32)

instance : JsonElement UInt8 :=
  integerElement 0 0xff (fun x => x.toNat) (fun n => n.toNat.toUInt8)

instance : JsonElement Int64 :=
  integerElement Int64.minValue.toInt Int64.maxValue.toInt Int64.toInt Int64.ofInt

instance : JsonElement Int32 :=
  integerElement Int32.minValue.toInt Int32.maxValue.toInt Int32.toInt Int32.ofInt

instance : JsonElement Bool := ⟨writeBool, readBool⟩

instance : JsonElement Char := ⟨fun c => writeText c.toString, readChar⟩

instance : JsonElement String := ⟨writeText, readText⟩

instance [JsonElement α] : JsonElement (Option α) where
  write
    | some x => JsonElement.write x
    | none => writeNull
  read := readOptional JsonElement.read

instance [JsonElement α] : JsonElement (List α) where
  write xs := writeArray (xs.map JsonElement.write)
  read := readArray JsonElement.read

instance [JsonElement α] [JsonElement β] : JsonElement (α × β) where
  write x := writeArray [JsonElement.write x.1, JsonElement.write x.2]
  read := readPair JsonElement.read JsonElement.read

/-- A map whose keys are lists: lists are no texts, so only the empty map can be written. -/
def encodeListKeyed [JsonElement β] (entries : List (List α × β)) : Except Fault Bytes :=
  match writeMap? (fun _ => none) (entries.map fun (k, x) => (k, JsonElement.write x)) with
  | some bytes => .ok bytes
  | none => .error .codec

end ShuffleBuffer
