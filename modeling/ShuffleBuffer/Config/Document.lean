import ShuffleBuffer.Bytes
import ShuffleBuffer.Config
import ShuffleBuffer.Toml.Document

/-! # Configurations as documents

A document has one section for each part of a configuration, and whatever it leaves out keeps its
default. Names that mean nothing are skipped. A section is a table, or an array of its fields in
their order; a date has none of the fields, so a section that is one leaves all defaults. -/

namespace ShuffleBuffer

open Estimate (EstimatorOptions TrackerOptions)
open Toml

/-- A named place in a record, and how a value of a document is put there. -/
structure ConfigField (σ : Type) where
  name : String
  put : Value → σ → Option σ

namespace ConfigField

/-- Puts the values of a section where they belong. -/
def fill (fields : List (ConfigField σ)) : Value → σ → Option σ
  | .table _ entries, s =>
      fields.foldlM (fun s field =>
        match entries.lookup field.name with
        | some value => field.put value s
        | none => some s) s
  | .array items, s => (fields.zip items).foldlM (fun s (field, value) => field.put value s) s
  | .moment, s => some s
  | _, _ => none

/-- A word field takes integers that are not negative. -/
def word (name : String) (put : UInt64 → σ → σ) : ConfigField σ :=
  ⟨name, fun value s =>
    match value with
    | .integer n => if 0 ≤ n then some (put n.toNat.toUInt64 s) else none
    | _ => none⟩

/-- A field for a number takes integers too, rounded to the nearest number. -/
def number (name : String) (put : Float → σ → σ) : ConfigField σ :=
  ⟨name, fun value s =>
    match value with
    | .number x => some (put x s)
    | .integer n => some (put (Float.ofInt n) s)
    | _ => none⟩

def text (name : String) (put : String → σ → σ) : ConfigField σ :=
  ⟨name, fun value s =>
    match value with
    | .text t => some (put t s)
    | _ => none⟩

/-- A part of a record that has fields of its own. -/
def group (name : String) (get : σ → τ) (set : τ → σ → σ) (fields : List (ConfigField τ)) :
    ConfigField σ :=
  ⟨name, fun value s => (fill fields value (get s)).map (set · s)⟩

end ConfigField

namespace Config

def memoryFields : List (ConfigField MemoryConfig) :=
  [.word "executor_memory_mb" fun n m => { m with executorMemory := n },
    .number "storage_pool_ratio" fun x m => { m with storageRatio := x }]

def estimatorFields : List (ConfigField EstimatorOptions) :=
  [.word "sampling_threshold" fun n o => { o with samplingThreshold := n },
    .word "sample_count" fun n o => { o with sampleCount := n },
    .word "seed" fun n o => { o with seed := n },
    .word "alignment" fun n o => { o with alignment := n },
    .word "pointer_size" fun n o => { o with pointerSize := n },
    .word "object_header" fun n o => { o with objectHeader := n }]

def trackerFields : List (ConfigField TrackerOptions) :=
  [.number "sample_growth_rate" fun x _ => ⟨x⟩]

def spillFields : List (ConfigField (Option String)) := [.text "directory" fun s _ => some s]

def fields : List (ConfigField Config) :=
  [.group "memory" Config.memory (fun m c => { c with memory := m }) memoryFields,
    .group "estimator" Config.estimator (fun o c => { c with estimator := o }) estimatorFields,
    .group "tracker" Config.tracker (fun o c => { c with tracker := o }) trackerFields,
    .group "spill" Config.directory (fun d c => { c with directory := d }) spillFields]

/-- The configuration that a document describes. -/
def ofEntries? (entries : Entries) : Option Config :=
  ConfigField.fill fields (.table .header entries) {}

/-- Reads and checks a document. -/
def ofText (document : String) : Except ConfigFault Config :=
  match parse? document >>= ofEntries? with
  | none => .error .malformed
  | some c => c.validate.map fun _ => c

/-- Reads and checks the content of a configuration file; none stands for a missing file. -/
def ofFile (content : Option Bytes) : Except ConfigFault Config :=
  match content >>= ofUtf8? with
  | none => .error .unreadable
  | some document => ofText document

/-- Reads the file that the environment names, given that it names one; otherwise all is default. -/
def ofEnvironment (named : Option (Option Bytes)) : Except ConfigFault Config :=
  match named with
  | some content => ofFile content
  | none => .ok {}

end Config

end ShuffleBuffer
