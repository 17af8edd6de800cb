import ShuffleBuffer.Estimate.Graph
import ShuffleBuffer.Estimate.Layout
import ShuffleBuffer.Sampling.Indices

/-! # The size estimator

The footprint of a value is the sum of the charges of everything it reaches, each identity once.
The walk keeps a stack; a value is marked when it is put on the stack, the value put there last
is visited first, and what has been marked stays marked when a fault ends the walk. A sequence
that is longer than the sampling threshold is charged for a sample of its elements: each drawn
element is walked to the end on a stack of its own, and the sum is scaled up to the length.

Every visit takes a value that was marked on the way in, so the number of values bounds the number
of visits, and this bound is the walk's fuel. -/

namespace ShuffleBuffer.Estimate

structure EstimatorOptions where
  /-- Sequences longer than this are sampled. -/
  samplingThreshold : UInt64 := 400
  /-- How many different elements are drawn from a sampled sequence. -/
  sampleCount : UInt64 := 100
  seed : UInt64 := 42
  /-- Charges are rounded up to a multiple of this. -/
  alignment : UInt64 := 8
  /-- The size of one reference slot. -/
  pointerSize : UInt64 := 8
  /-- The header of every object and sequence. -/
  objectHeader : UInt64 := 16
  deriving DecidableEq

namespace EstimatorOptions

def validate (o : EstimatorOptions) : Except Fault Unit :=
  if o.sampleCount = 0 then .error (.invalid .noSamples)
  else if o.samplingThreshold ≤ o.sampleCount then .error (.invalid .tooManySamples)
  else if o.alignment = 0 ∨ o.alignment &&& (o.alignment - 1) ≠ 0 then
    .error (.invalid .oddAlignment)
  else .ok ()

/-- Rounds up to a multiple of the alignment, which is a power of two. -/
def align (o : EstimatorOptions) (size : UInt64) : UInt64 :=
  let mask := o.alignment - 1
  (size + mask) &&& ~~~mask

/-- The width of the length that every sequence header holds. -/
def lengthFieldSize : UInt64 := 4

def sequenceHeader (o : EstimatorOptions) : UInt64 := o.align (o.objectHeader + lengthFieldSize)

/-- Header and slots of a sequence of `length` elements that are not scalars. -/
def sequenceOverhead (o : EstimatorOptions) (length : UInt64) : UInt64 :=
  o.sequenceHeader + o.align (length * o.pointerSize)

/-- Header and contents of a non-empty sequence of scalars. -/
def scalarRun (o : EstimatorOptions) (length : UInt64) (kind : PrimitiveKind) : UInt64 :=
  o.sequenceHeader + o.align (length * kind.width)

/-- Scales the charge of a sample up to a whole sequence, in floating point. -/
def extrapolate (o : EstimatorOptions) (length sampled : UInt64) : UInt64 :=
  (length.toFloat / o.sampleCount.toFloat * sampled.toFloat).toUInt64

def isSampled (o : EstimatorOptions) (length : Nat) : Bool :=
  decide (o.samplingThreshold.toNat < length)

/-- The indices drawn from a sequence; they depend on its length alone. -/
def drawn (o : EstimatorOptions) (length : Nat) : List Nat :=
  (Sampling.sampleIndices length o.sampleCount.toNat (.ofSeed o.seed)).1

end EstimatorOptions

/-- The identities already charged, as one mark per identity of a graph. An identity beyond the
marks counts as charged. -/
structure Visited where
  marks : Array Bool
  deriving DecidableEq

namespace Visited

/-- No identity of a graph is charged. -/
def none (g : Graph) : Visited := ⟨.replicate g.nodes.size false⟩

def contains (v : Visited) (id : NodeId) : Bool := v.marks.getD id true

def mark (v : Visited) (id : NodeId) : Visited := ⟨v.marks.setIfInBounds id true⟩

end Visited

/-- What a walk carries along: the marks and the layouts known so far. -/
structure Walk where
  visited : Visited
  layouts : LayoutCache

namespace Walk

/-- Puts an identity on the stack and marks it, unless it is marked. -/
def push (w : Walk) (pending : List NodeId) (id : NodeId) : List NodeId × Walk :=
  if w.visited.contains id then (pending, w)
  else (id :: pending, { w with visited := w.visited.mark id })

def pushAll (w : Walk) (pending : List NodeId) (ids : List NodeId) : List NodeId × Walk :=
  ids.foldl (fun (pending, w) id => w.push pending id) (pending, w)

/-- Reads members one after the other and puts their values on the stack, up to the first that
cannot be read. -/
def pushReferences (w : Walk) (node : Node) :
    List NodeId → List String → Except Fault (List NodeId) × Walk
  | pending, [] => (.ok pending, w)
  | pending, field :: fields =>
      match node.reference field with
      | .error fault => (.error fault, w)
      | .ok none => w.pushReferences node pending fields
      | .ok (some target) =>
          let (pending, w) := w.push pending target
          w.pushReferences node pending fields

/-- The aligned size of an object's shell. -/
def shell (w : Walk) (o : EstimatorOptions) (shape : Shape) : UInt64 × List String × Walk :=
  let (found, layouts) := w.layouts.get shape
  (o.align found.layout.baseSize, found.layout.references, { w with layouts })

/-- What a visit to one value comes to. -/
inductive Outcome where
  /-- A charge, and a stack with what the value leads to. -/
  | charged (bytes : UInt64) (pending : List NodeId) (w : Walk)
  /-- A charge, and elements drawn from a sequence of this length. -/
  | sampled (bytes : UInt64) (length : UInt64) (drawn : List NodeId) (w : Walk)
  | failed (fault : Fault) (w : Walk)

/-- The elements of a sequence that are not scalars, or those drawn of them. -/
def visitElements (w : Walk) (o : EstimatorOptions) (elements : Array NodeId)
    (pending : List NodeId) : Outcome :=
  let length := elements.size.toUInt64
  let overhead := o.sequenceOverhead length
  if o.isSampled elements.size then
    .sampled overhead length ((o.drawn elements.size).filterMap (elements[·]?)) w
  else
    let (pending, w) := w.pushAll pending elements.toList
    .charged overhead pending w

/-- Elements without size have no identity: each index is charged, and they lead nowhere. -/
def visitUnits (w : Walk) (o : EstimatorOptions) (count : Nat) (pending : List NodeId) : Outcome :=
  let length := count.toUInt64
  let overhead := o.sequenceOverhead length
  let (each, _, w) := w.shell o .unit
  if o.isSampled count then
    .charged (overhead + o.extrapolate length (o.sampleCount * each)) pending w
  else .charged (overhead + length * each) pending w

/-- Charges one value and puts what it leads to on the stack. A sequence is priced by its first
element. -/
def visit (w : Walk) (o : EstimatorOptions) (g : Graph) (id : NodeId) (pending : List NodeId) :
    Outcome :=
  match g.node id with
  | .metadata => .charged 0 pending w
  | .scalar type => .charged (o.align type.kind.width) pending w
  | .pointer none => .charged 0 pending w
  | .pointer (some target) =>
      let (pending, w) := w.push pending target
      .charged 0 pending w
  | .object shape references =>
      let (bytes, fields, w) := w.shell o shape
      match w.pushReferences (.object shape references) pending fields with
      | (.ok pending, w) => .charged bytes pending w
      | (.error fault, w) => .failed fault w
  | .scalars type count =>
      if count = 0 then .charged o.sequenceHeader pending w
      else .charged (o.scalarRun count.toUInt64 type.kind) pending w
  | .units count =>
      if count = 0 then .charged o.sequenceHeader pending w else w.visitUnits o count pending
  | .sequence elements =>
      match elements[0]? with
      | none => .charged o.sequenceHeader pending w
      | some first =>
          match g.node first with
          | .scalar type => .charged (o.scalarRun elements.size.toUInt64 type.kind) pending w
          | _ => w.visitElements o elements pending

/-- Walks drawn elements one after the other, each to the end, and sums their charges. -/
def drainEach (drain : List NodeId → Walk → Except Fault UInt64 × Walk) :
    List NodeId → UInt64 → Walk → Except Fault UInt64 × Walk
  | [], sum, w => (.ok sum, w)
  | id :: ids, sum, w =>
      let (pending, w) := w.push [] id
      match drain pending w with
      | (.ok bytes, w) => drainEach drain ids (sum + bytes) w
      | (.error fault, w) => (.error fault, w)

/-- Visits what is on the stack until it is empty, adding to `size`. -/
def drain (o : EstimatorOptions) (g : Graph) :
    Nat → List NodeId → UInt64 → Walk → Except Fault UInt64 × Walk
  | _, [], size, w => (.ok size, w)
  | 0, _ :: _, size, w => (.ok size, w)
  | fuel + 1, id :: pending, size, w =>
      match w.visit o g id pending with
      | .failed fault w => (.error fault, w)
      | .charged bytes pending w => drain o g fuel pending (size + bytes) w
      | .sampled bytes length ids w =>
          match drainEach (fun pending w => drain o g fuel pending 0 w) ids 0 w with
          | (.error fault, w) => (.error fault, w)
          | (.ok sampled, w) =>
              drain o g fuel pending (size + bytes + o.extrapolate length sampled) w

end Walk

/-- Estimates footprints; between estimates it keeps only the layouts it has computed. -/
structure SizeEstimator where
  options : EstimatorOptions
  layouts : LayoutCache

namespace SizeEstimator

def ofOptions (o : EstimatorOptions) : SizeEstimator := ⟨o, ⟨o.objectHeader, o.pointerSize, [], 0⟩⟩

def make (o : EstimatorOptions) : Except Fault SizeEstimator := do
  o.validate
  return .ofOptions o

/-- The layout of a shape, from the cache where it is known. -/
def layout (e : SizeEstimator) (shape : Shape) : Layout × SizeEstimator :=
  let (found, layouts) := e.layouts.get shape
  (found.layout, { e with layouts })

/-- The footprint of everything that `root` reaches and that is not charged yet. -/
def estimateWith (e : SizeEstimator) (g : Graph) (root : NodeId) (visited : Visited) :
    Except Fault UInt64 × Visited × SizeEstimator :=
  let (pending, w) := Walk.push ⟨visited, e.layouts⟩ [] root
  let (result, w) := w.drain e.options g visited.marks.size pending 0
  (result, w.visited, { e with layouts := w.layouts })

/-- The footprint of `root` and everything it reaches. -/
def estimate (e : SizeEstimator) (g : Graph) (root : NodeId) :
    Except Fault UInt64 × SizeEstimator :=
  let (result, _, e) := e.estimateWith g root (.none g)
  (result, e)

end SizeEstimator

end ShuffleBuffer.Estimate
