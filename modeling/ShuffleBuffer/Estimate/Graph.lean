import ShuffleBuffer.Estimate.Shape
import ShuffleBuffer.Fault

/-! # Graphs of values

A value whose footprint is estimated is a node of a finite graph: nodes are numbered, and the
number is the value's identity. Sharing is two edges to one number, and graphs may have cycles.
Scalars that lie next to each other in a sequence, and elements that take no room, are never
shared; sequences of them hold only their count. -/

namespace ShuffleBuffer.Estimate

/-- The identity of a value: its number in the graph. -/
abbrev NodeId := Nat

inductive Node where
  | scalar (type : ScalarType)
  /-- Type information; it costs nothing. -/
  | metadata
  /-- A pointer to a value, or an empty one; it costs nothing beyond its owner's slot. -/
  | pointer (target : Option NodeId)
  /-- A composite: which of its reference members can be read, and what they lead to. -/
  | object (shape : Shape) (references : List (String × Option NodeId))
  | sequence (elements : Array NodeId)
  /-- A sequence of scalars of one type, stored in place. -/
  | scalars (type : ScalarType) (count : Nat)
  /-- A sequence of elements that take no room of their own. -/
  | units (count : Nat)

namespace Node

def kind : Node → Kind
  | scalar type => .primitive type.kind
  | metadata => .metadata
  | pointer _ => .pointer
  | object shape _ => .object shape
  | sequence _ | scalars .. | units _ => .sequence

/-- The number of elements; only sequences have any. -/
def elementCount : Node → Nat
  | sequence elements => elements.size
  | scalars _ count | units count => count
  | _ => 0

/-- What a node is called in a report of an unreadable member. -/
def typeName : Node → String
  | scalar type => type.name
  | object shape _ => shape.name
  | metadata => "metadata"
  | pointer _ => "pointer"
  | sequence _ | scalars .. | units _ => "sequence"

/-- Reads a reference member: empty, or the identity of its value. Only objects have any, and a
member that the object does not hold cannot be read. -/
def reference (node : Node) (field : String) : Except Fault (Option NodeId) :=
  let held := match node with
    | object _ references => references.lookup field
    | _ => none
  match held with
  | some target => .ok target
  | none => .error (.unreadableField field node.typeName)

end Node

structure Graph where
  nodes : Array Node

namespace Graph

/-- The node of an identity; an identity that the graph does not have costs nothing. -/
def node (g : Graph) (id : NodeId) : Node := g.nodes.getD id .metadata

def kind (g : Graph) (id : NodeId) : Kind := (g.node id).kind

/-- The kind of the element at an index of a sequence, or of a pointer's target at index 0. -/
def elementKind? (g : Graph) (id : NodeId) (index : Nat) : Option Kind :=
  match g.node id with
  | .sequence elements => elements[index]?.map g.kind
  | .scalars type count => if index < count then some (.primitive type.kind) else none
  | .units count => if index < count then some (.object .unit) else none
  | .pointer (some target) => if index = 0 then some (g.kind target) else none
  | _ => none

/-- The kind of what a reference member leads to, if anything. -/
def referenceKind (g : Graph) (id : NodeId) (field : String) : Except Fault (Option Kind) :=
  ((g.node id).reference field).map (Option.map g.kind)

end Graph

end ShuffleBuffer.Estimate
