import Mathlib
import ShuffleBuffer.Estimate.Estimator
import ShuffleBuffer.Proofs.Lookup

/-! # What the layout cache answers

A layout is determined by the members of a shape and its ancestors: the shell is the sum of their
rooms, the references are the names of those that lead elsewhere. A cache that was only ever asked
and cleared answers exactly this, so nothing that is computed through it depends on its content. -/

namespace ShuffleBuffer.Estimate

/-- The room that a member takes in its owner. -/
def Field.room (pointerSize : Nat) (f : Field) : Nat :=
  match f.kind with
  | .primitive kind => kind.width.toNat
  | .reference => pointerSize

/-- The name of a member that leads to a value of its own. -/
def Field.reference? (f : Field) : Option String :=
  match f.kind with
  | .primitive _ => none
  | .reference => some f.name

namespace Shape

/-- The shell of a shape, in unbounded numbers: that of a bare object and the room of every member
of the whole chain. -/
def bareSize (rootSize pointerSize : Nat) (s : Shape) : Nat :=
  rootSize + (s.fields.map (Field.room pointerSize)).sum

/-- The reference members of the whole chain, ancestors first. -/
def references (s : Shape) : List String := s.fields.filterMap Field.reference?

theorem fields_extending (tag : ShapeTag) (name : String) (parent : Shape) (own : List Field) :
    (extending tag name parent own).fields = parent.fields ++ own := by
  simp [fields, chain, ownFields]

end Shape

theorem Layout.addFields_eq (pointerSize : UInt64) (fields : List Field) (layout : Layout) :
    layout.addFields pointerSize fields =
      ⟨layout.baseSize + UInt64.ofNat (fields.map (Field.room pointerSize.toNat)).sum,
        layout.references ++ fields.filterMap Field.reference?⟩ := by
  induction fields generalizing layout with
  | nil => simp [addFields]
  | cons f fields ih =>
    have hfold : layout.addFields pointerSize (f :: fields) =
        (layout.addField pointerSize f).addFields pointerSize fields := rfl
    rw [hfold, ih]
    cases hkind : f.kind with
    | primitive kind =>
      simp [addField, hkind, Field.room, Field.reference?, UInt64.ofNat_add, UInt64.add_assoc]
    | reference =>
      simp [addField, hkind, Field.room, Field.reference?, UInt64.ofNat_add, UInt64.add_assoc]

/-- The layout computed from the chain is the shell and the references of the chain. -/
theorem Shape.layout_eq (rootSize pointerSize : UInt64) (s : Shape) :
    s.layout rootSize pointerSize =
      ⟨UInt64.ofNat (s.bareSize rootSize.toNat pointerSize.toNat), s.references⟩ := by
  induction s with
  | root tag name own =>
    rw [Shape.layout, Layout.addFields_eq]
    simp [bareSize, references, fields, chain, ownFields, UInt64.ofNat_add]
  | extending tag name parent own ih =>
    rw [Shape.layout, Layout.addFields_eq, ih]
    simp [bareSize, references, fields_extending, UInt64.ofNat_add, UInt64.add_assoc]

namespace LayoutCache

/-- The caches that an estimator can come to have: empty at first, then asked and cleared. -/
inductive Reachable (rootSize pointerSize : UInt64) : LayoutCache → Prop
  | empty : Reachable rootSize pointerSize ⟨rootSize, pointerSize, [], 0⟩
  | get {cache : LayoutCache} (shape : Shape) :
      Reachable rootSize pointerSize cache → Reachable rootSize pointerSize (cache.get shape).2
  | clear {cache : LayoutCache} :
      Reachable rootSize pointerSize cache → Reachable rootSize pointerSize cache.clear

/-- Every kept layout is the one computed from the chain. -/
structure Sound (rootSize pointerSize : UInt64) (cache : LayoutCache) : Prop where
  rootSize_eq : cache.rootSize = rootSize
  pointerSize_eq : cache.pointerSize = pointerSize
  layout_eq : ∀ shape found, (shape, found) ∈ cache.entries →
    found.layout = shape.layout rootSize pointerSize

variable {rootSize pointerSize : UInt64} {cache : LayoutCache}

theorem Sound.insert (h : Sound rootSize pointerSize cache) {shape : Shape} {layout : Layout}
    (hl : layout = shape.layout rootSize pointerSize) :
    (cache.insert shape layout).1.layout = shape.layout rootSize pointerSize ∧
      Sound rootSize pointerSize (cache.insert shape layout).2 := by
  refine ⟨hl, h.rootSize_eq, h.pointerSize_eq, ?_⟩
  intro shape' found hmem
  rcases List.mem_cons.mp hmem with heq | hmem
  · cases heq; exact hl
  · exact h.layout_eq shape' found hmem

/-- The answer is the layout of the chain, whatever is kept, and what is kept stays so. -/
theorem Sound.get (h : Sound rootSize pointerSize cache) (shape : Shape) :
    (cache.get shape).1.layout = shape.layout rootSize pointerSize ∧
      Sound rootSize pointerSize (cache.get shape).2 := by
  induction shape generalizing cache with
  | root tag name own =>
    unfold LayoutCache.get
    simp only
    split
    · rename_i found hfound
      exact ⟨h.layout_eq _ _ (mem_of_lookup hfound), h⟩
    · apply h.insert
      rw [h.rootSize_eq, h.pointerSize_eq, Shape.layout]
  | extending tag name parent own ih =>
    unfold LayoutCache.get
    simp only
    split
    · rename_i found hfound
      exact ⟨h.layout_eq _ _ (mem_of_lookup hfound), h⟩
    · obtain ⟨habove, hsound⟩ := ih h
      apply hsound.insert
      rw [habove, hsound.pointerSize_eq, Shape.layout]

theorem Reachable.sound (h : Reachable rootSize pointerSize cache) :
    Sound rootSize pointerSize cache := by
  induction h with
  | empty => exact ⟨rfl, rfl, fun _ _ hmem => by cases hmem⟩
  | get shape _ ih => exact (ih.get shape).2
  | clear _ ih => exact ⟨ih.rootSize_eq, ih.pointerSize_eq, fun _ _ hmem => by cases hmem⟩

end LayoutCache

end ShuffleBuffer.Estimate
