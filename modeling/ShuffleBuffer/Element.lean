import ShuffleBuffer.Codec
import ShuffleBuffer.Estimate.Value
import ShuffleBuffer.Hash

/-! # Elements: values that can be buffered, hashed and stored

An element type says how its values are described to the estimator, fed to a hash, and written
and read as JSON. Besides scalars, texts, optional texts and lists there are two record types with
a number and a payload. The payload of a flaky record may be missing, and one payload, a single
exclamation mark, cannot be read by the estimator at all. -/

namespace ShuffleBuffer

open Estimate Json

structure Record where
  id : UInt64
  payload : String
  deriving DecidableEq

structure Flaky where
  id : UInt64
  payload : Option String
  deriving DecidableEq

/-! ## Footprints -/

instance : Measured UInt64 := ⟨fun _ => .scalar .u64⟩
instance : Measured Int64 := ⟨fun _ => .scalar .i64⟩
instance : Measured Bool := ⟨fun _ => .scalar .bool⟩
instance : Measured Char := ⟨fun _ => .scalar .char⟩
instance : Measured String := ⟨fun s => .text s.utf8ByteSize⟩

instance [Measured α] : Measured (Option α) where
  describe
    | some x => .pointer (describe x)
    | none => .emptyPointer

instance [Measured α] : Measured (List α) := ⟨fun xs => .sequence (xs.map describe)⟩

/-- The members of both record types. -/
def recordFields : List Field := [⟨"id", .primitive .long⟩, ⟨"payload", .reference⟩]

def Record.shape : Shape := .root (.builtIn 3) "Record" recordFields

def Flaky.shape : Shape := .root (.builtIn 4) "Flaky" recordFields

/-- The payload that the estimator cannot read. -/
def Flaky.unreadable : String := "!"

instance : Measured Record := ⟨fun r => .object Record.shape [("payload", describe r.payload)] []⟩

instance : Measured Flaky where
  describe f :=
    match f.payload with
    | none => .object Flaky.shape [] ["payload"]
    | some payload =>
        if payload = Flaky.unreadable then .object Flaky.shape [] []
        else .object Flaky.shape [("payload", describe payload)] []

/-! ## Hashes -/

instance : Hashed Record := ⟨fun h r => Hashed.feed (Hashed.feed h r.id) r.payload⟩

instance : Hashed Flaky := ⟨fun h f => Hashed.feed (Hashed.feed h f.id) f.payload⟩

/-! ## JSON -/

/-- A record as an object, members in their order. -/
def writeRecord (id : UInt64) (payload : Bytes) : Bytes :=
  writeObject [("id", JsonElement.write id), ("payload", payload)]

/-- A record, as an object with each member at most once and unknown ones skipped, or as an array
of its members in order. `absent` stands for a payload that is not there. -/
def readRecord (payload : Reader β) (absent : Option β) : Reader (UInt64 × β) := fun bs =>
  match skipBlanks bs with
  | openBracket :: _ => readPair JsonElement.read payload bs
  | _ => do
      let member (name : String) (known : Option UInt64 × Option β) :
          Reader (Option UInt64 × Option β) := fun bs =>
        if name = "id" then
          (readOnce JsonElement.read known.1 bs).map fun (id, rest) => ((id, known.2), rest)
        else if name = "payload" then
          (readOnce payload known.2 bs).map fun (value, rest) => ((known.1, value), rest)
        else (skipValue bs).map (known, ·)
      let ((id, value), rest) ← readObject member (none, none) bs
      some ((← id, ← value.or absent), rest)

instance : JsonElement Record where
  write r := writeRecord r.id (JsonElement.write r.payload)
  read bs := (readRecord JsonElement.read none bs).map fun ((id, payload), rest) =>
    (⟨id, payload⟩, rest)

instance : JsonElement Flaky where
  write f := writeRecord f.id (JsonElement.write f.payload)
  read bs := (readRecord JsonElement.read (some none) bs).map fun ((id, payload), rest) =>
    (⟨id, payload⟩, rest)

end ShuffleBuffer
