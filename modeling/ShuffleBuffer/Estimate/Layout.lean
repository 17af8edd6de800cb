import ShuffleBuffer.Estimate.Shape

/-! # Layouts of shapes, and a cache of them

The layout of a shape is the size of its shell and the names of its reference members, ancestors'
members first. `Shape.layout` computes it from the whole chain. A `LayoutCache` computes each
shape once, its ancestors along with it; every computed entry carries a stamp, so that an answer
from the cache can be told from one computed anew. -/

namespace ShuffleBuffer.Estimate

structure Layout where
  /-- The bytes of the object itself, not yet aligned. -/
  baseSize : UInt64
  /-- The reference members in declaration order, ancestors' members first. -/
  references : List String
  deriving DecidableEq

/-- Adds one member: a scalar takes its width, a reference takes a slot. -/
def Layout.addField (pointerSize : UInt64) (layout : Layout) (field : Field) : Layout :=
  match field.kind with
  | .primitive kind => { layout with baseSize := layout.baseSize + kind.width }
  | .reference => ⟨layout.baseSize + pointerSize, layout.references ++ [field.name]⟩

def Layout.addFields (pointerSize : UInt64) (layout : Layout) (fields : List Field) : Layout :=
  fields.foldl (addField pointerSize) layout

/-- The layout of a shape whose bare shell takes `rootSize` bytes. -/
def Shape.layout (rootSize pointerSize : UInt64) : Shape → Layout
  | root _ _ fields => Layout.addFields pointerSize ⟨rootSize, []⟩ fields
  | extending _ _ parent fields =>
      (parent.layout rootSize pointerSize).addFields pointerSize fields

/-- A layout and the number of the computation that made it. -/
structure CachedLayout where
  layout : Layout
  stamp : Nat
  deriving DecidableEq

structure LayoutCache where
  rootSize : UInt64
  pointerSize : UInt64
  entries : List (Shape × CachedLayout) := []
  computations : Nat := 0

namespace LayoutCache

def size (cache : LayoutCache) : Nat := cache.entries.length

/-- Forgets every layout; layouts computed later are new ones. -/
def clear (cache : LayoutCache) : LayoutCache := { cache with entries := [] }

def insert (cache : LayoutCache) (shape : Shape) (layout : Layout) :
    CachedLayout × LayoutCache :=
  let made : CachedLayout := ⟨layout, cache.computations⟩
  (made, { cache with
    entries := (shape, made) :: cache.entries
    computations := cache.computations + 1 })

/-- The layout of a shape: the cached one, else computed from the parent's and cached. -/
def get (cache : LayoutCache) : Shape → CachedLayout × LayoutCache
  | .root tag name fields =>
      let shape := Shape.root tag name fields
      match cache.entries.lookup shape with
      | some found => (found, cache)
      | none =>
          cache.insert shape (Layout.addFields cache.pointerSize ⟨cache.rootSize, []⟩ fields)
  | .extending tag name parent fields =>
      let shape := Shape.extending tag name parent fields
      match cache.entries.lookup shape with
      | some found => (found, cache)
      | none =>
          let (above, cache) := cache.get parent
          cache.insert shape (above.layout.addFields cache.pointerSize fields)

end LayoutCache

end ShuffleBuffer.Estimate
