import ShuffleBuffer.Estimate.Graph

/-! # Descriptions of values

A `Value` describes one value as a tree. Each part written in it is a value of its own, with an
identity of its own; `shared i` alone leads to the `i`-th of a list of values that several trees
share. Placing a tree appends its parts to a graph. -/

namespace ShuffleBuffer.Estimate

inductive Value where
  | scalar (type : ScalarType)
  /-- A text of this many bytes. -/
  | text (bytes : Nat)
  | metadata
  | sequence (items : List Value)
  /-- A sequence of this many elements without size. -/
  | units (count : Nat)
  | emptyPointer
  | pointer (target : Value)
  /-- A pointer to a shared value. -/
  | shared (index : Nat)
  /-- A composite: the members that lead to a value, and those that are empty. Any other member
  cannot be read. -/
  | object (shape : Shape) (filled : List (String × Value)) (empty : List String)

namespace Value

/-- A description behind `n` pointers. -/
def behind : Nat → Value → Value
  | 0, v => v
  | n + 1, v => pointer (behind n v)

mutual

/-- The node of a value, its parts appended to the graph. -/
def node (nodes : Array Node) : Value → Node × Array Node
  | scalar type => (.scalar type, nodes)
  | text bytes => (.scalars .u8 bytes, nodes)
  | metadata => (.metadata, nodes)
  | sequence items =>
      let (ids, nodes) := placeAll nodes #[] items
      (.sequence ids, nodes)
  | units count => (.units count, nodes)
  | emptyPointer => (.pointer none, nodes)
  | pointer target =>
      let (n, nodes) := node nodes target
      (.pointer (some nodes.size), nodes.push n)
  | shared index => (.pointer (some index), nodes)
  | object shape filled empty =>
      let (references, nodes) := placeFields nodes filled
      (.object shape (references ++ empty.map (·, none)), nodes)

/-- The identities of a list of values, appended to the graph one after the other. -/
def placeAll (nodes : Array Node) (ids : Array NodeId) : List Value → Array NodeId × Array Node
  | [] => (ids, nodes)
  | v :: rest =>
      let (n, nodes) := node nodes v
      let id := nodes.size
      placeAll (nodes.push n) (ids.push id) rest

/-- The members of an object, their values appended to the graph. -/
def placeFields (nodes : Array Node) :
    List (String × Value) → List (String × Option NodeId) × Array Node
  | [] => ([], nodes)
  | (name, v) :: rest =>
      let (n, nodes) := node nodes v
      let id := nodes.size
      let (references, nodes) := placeFields (nodes.push n) rest
      ((name, some id) :: references, nodes)

end

end Value

namespace Graph

/-- The graph of a list of shared values: the `i`-th has identity `i`. -/
def ofShared (shared : List Value) : Graph :=
  let room := Array.replicate shared.length Node.metadata
  ⟨shared.zipIdx.foldl (fun nodes (v, i) =>
    let (n, nodes) := v.node nodes
    nodes.setIfInBounds i n) room⟩

/-- Appends a value to the graph; its identity is the last one. -/
def place (g : Graph) (v : Value) : NodeId × Graph :=
  let (n, nodes) := v.node g.nodes
  (nodes.size, ⟨nodes.push n⟩)

end Graph

/-- Values that can be described to the estimator. -/
class Measured (α : Type) where
  describe : α → Value

export Measured (describe)

instance : Measured Value := ⟨id⟩

end ShuffleBuffer.Estimate
