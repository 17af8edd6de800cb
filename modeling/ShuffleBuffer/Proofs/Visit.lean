import Mathlib.Logic.Relation
import ShuffleBuffer.Proofs.Alignment
import ShuffleBuffer.Proofs.Marks

/-! # One visit of a walk

The graph alone says what a value leads to, whether it can be read and, unless its elements are
sampled, what it costs. A visit charges the cost, pushes what the value leads to, and fails exactly
on a value that cannot be read, whatever layouts are cached. -/

namespace ShuffleBuffer.Estimate

namespace Graph

/-- The scalar type by which a sequence of these elements is priced, if the first is a scalar. -/
def scalarElements? (g : Graph) (elements : Array NodeId) : Option ScalarType :=
  match elements[0]?.map g.node with
  | some (.scalar type) => some type
  | _ => none

/-- What a value leads to. Elements next to a scalar lie in place and are not reached. -/
def targets (g : Graph) (id : NodeId) : List NodeId :=
  match g.node id with
  | .pointer (some target) => [target]
  | .object shape _ => shape.references.filterMap fun field =>
      match (g.node id).reference field with
      | .ok target => target
      | .error _ => none
  | .sequence elements => if (g.scalarElements? elements).isSome then [] else elements.toList
  | _ => []

/-- A way from one value to another through what each leads to. -/
def Reaches (g : Graph) : NodeId → NodeId → Prop :=
  Relation.ReflTransGen fun id target => target ∈ g.targets id

/-- Every reference member that the value's shape declares can be read. -/
def Readable (g : Graph) (id : NodeId) : Prop :=
  ∀ shape references, g.node id = .object shape references →
    ∀ field ∈ shape.references, ∃ target, (g.node id).reference field = .ok target

/-- A sequence of elements that are not scalars, too long to be walked. -/
def Oversized (g : Graph) (o : EstimatorOptions) (id : NodeId) : Prop :=
  match g.node id with
  | .sequence elements =>
      g.scalarElements? elements = none ∧ o.samplingThreshold.toNat < elements.size
  | .units count => o.samplingThreshold.toNat < count
  | _ => False

/-- What a value costs by itself, in unbounded numbers. Elements without size are charged with
their sequence, once for each index. -/
def cost (g : Graph) (o : EstimatorOptions) (id : NodeId) : Nat :=
  let up := roundUp o.alignment.toNat
  let shell (shape : Shape) := up (shape.bareSize o.objectHeader.toNat o.pointerSize.toNat)
  let header := up (o.objectHeader.toNat + 4)
  match g.node id with
  | .metadata | .pointer _ => 0
  | .scalar type => up type.kind.width.toNat
  | .object shape _ => shell shape
  | .scalars type count =>
      if count = 0 then header else header + up (count * type.kind.width.toNat)
  | .units count =>
      if count = 0 then header
      else header + up (count * o.pointerSize.toNat) + count * shell .unit
  | .sequence elements =>
      if elements.size = 0 then header
      else
        match g.scalarElements? elements with
        | some type => header + up (elements.size * type.kind.width.toNat)
        | none => header + up (elements.size * o.pointerSize.toNat)

end Graph

namespace EstimatorOptions

variable {o : EstimatorOptions}

theorem sequenceHeader_eq (h : o.validate = .ok ()) :
    o.sequenceHeader = UInt64.ofNat (roundUp o.alignment.toNat (o.objectHeader.toNat + 4)) := by
  rw [sequenceHeader, ← align_ofNat h, UInt64.ofNat_add, UInt64.ofNat_toNat]
  rfl

theorem scalarRun_eq (h : o.validate = .ok ()) (length : Nat) (kind : PrimitiveKind) :
    o.scalarRun length.toUInt64 kind = UInt64.ofNat
      (roundUp o.alignment.toNat (o.objectHeader.toNat + 4) +
        roundUp o.alignment.toNat (length * kind.width.toNat)) := by
  rw [scalarRun, sequenceHeader_eq h, UInt64.ofNat_add, ← align_ofNat h (length * _),
    UInt64.ofNat_mul, UInt64.ofNat_toNat]

theorem sequenceOverhead_eq (h : o.validate = .ok ()) (length : Nat) :
    o.sequenceOverhead length.toUInt64 = UInt64.ofNat
      (roundUp o.alignment.toNat (o.objectHeader.toNat + 4) +
        roundUp o.alignment.toNat (length * o.pointerSize.toNat)) := by
  rw [sequenceOverhead, sequenceHeader_eq h, UInt64.ofNat_add, ← align_ofNat h (length * _),
    UInt64.ofNat_mul, UInt64.ofNat_toNat]

end EstimatorOptions

namespace Walk

/-- The layouts of a walk are those that an estimator with these options computes. -/
abbrev SoundFor (w : Walk) (o : EstimatorOptions) : Prop :=
  w.layouts.Sound o.objectHeader o.pointerSize

theorem shell_spec {w : Walk} {o : EstimatorOptions} (hw : w.SoundFor o) (h : o.validate = .ok ())
    (shape : Shape) :
    ∃ w', w.shell o shape = (UInt64.ofNat (roundUp o.alignment.toNat
        (shape.bareSize o.objectHeader.toNat o.pointerSize.toNat)), shape.references, w') ∧
      w'.visited = w.visited ∧ w'.SoundFor o := by
  obtain ⟨hlayout, hsound⟩ := hw.get shape
  refine ⟨{ w with layouts := (w.layouts.get shape).2 }, ?_, rfl, hsound⟩
  simp only [shell, hlayout, Shape.layout_eq, EstimatorOptions.align_ofNat h]

/-- Reading members pushes what they lead to, or stops at the first that cannot be read. -/
theorem pushReferences_spec (w : Walk) (node : Node) (pending : List NodeId)
    (fields : List String) :
    match w.pushReferences node pending fields with
    | (.ok pending', w') =>
        (∀ field ∈ fields, ∃ target, node.reference field = .ok target) ∧
        w'.layouts = w.layouts ∧
        Pushed (fields.filterMap fun field =>
          match node.reference field with
          | .ok target => target
          | .error _ => none) w pending w' pending'
    | (.error fault, w') =>
        (∃ field ∈ fields, node.reference field = .error fault) ∧
        w'.layouts = w.layouts ∧ w'.unmarked ⊆ w.unmarked := by
  induction fields generalizing w pending with
  | nil => exact ⟨by simp, rfl, Pushed.refl w pending⟩
  | cons field fields ih =>
    rw [pushReferences]
    cases hread : node.reference field with
    | error fault =>
      exact ⟨⟨field, by simp, hread⟩, rfl, Finset.Subset.refl _⟩
    | ok target =>
      cases target with
      | none =>
        have hrest := ih w pending
        simp only
        split at hrest
        · obtain ⟨hok, hlayouts, hpushed⟩ := hrest
          refine ⟨?_, hlayouts, by simpa [hread] using hpushed⟩
          intro f hf
          rcases List.mem_cons.mp hf with rfl | hf
          · exact ⟨_, hread⟩
          · exact hok f hf
        · obtain ⟨⟨f, hf, hfault⟩, hrest⟩ := hrest
          exact ⟨⟨f, List.mem_cons_of_mem _ hf, hfault⟩, hrest⟩
      | some id =>
        have hfirst := push_pushed w pending id
        have hlayout := layouts_push w pending id
        have hrest := ih (w.push pending id).2 (w.push pending id).1
        simp only
        split at hrest
        · obtain ⟨hok, hlayouts, hpushed⟩ := hrest
          refine ⟨?_, hlayouts.trans hlayout, ?_⟩
          · intro f hf
            rcases List.mem_cons.mp hf with rfl | hf
            · exact ⟨_, hread⟩
            · exact hok f hf
          · simpa [hread] using hfirst.trans hpushed
        · obtain ⟨⟨f, hf, hfault⟩, hlayouts, hshrinks⟩ := hrest
          exact ⟨⟨f, List.mem_cons_of_mem _ hf, hfault⟩, hlayouts.trans hlayout,
            hshrinks.trans hfirst.shrinks⟩

/-- What a visit comes to, for a walk with the layouts of its options: it charges the value, whose
members can all be read, and pushes what it leads to; or it draws elements of an oversized
sequence; or a member cannot be read. -/
inductive Visits (g : Graph) (o : EstimatorOptions) (id : NodeId) (w : Walk)
    (pending : List NodeId) : Outcome → Prop
  | charged {bytes : UInt64} {pending' : List NodeId} {w' : Walk} :
      g.Readable id → Pushed (g.targets id) w pending w' pending' → w'.SoundFor o →
      (¬ g.Oversized o id → bytes = UInt64.ofNat (g.cost o id)) →
      Visits g o id w pending (.charged bytes pending' w')
  | sampled {bytes length : UInt64} {drawn : List NodeId} : g.Oversized o id →
      Visits g o id w pending (.sampled bytes length drawn w)
  | failed {field shape : String} {w' : Walk} :
      ¬ g.Readable id → w'.unmarked ⊆ w.unmarked → w'.SoundFor o →
      Visits g o id w pending (.failed (.unreadableField field shape) w')

section Cases

variable {w : Walk} {o : EstimatorOptions} {g : Graph} {id : NodeId} {pending : List NodeId}

theorem visit_object (hw : w.SoundFor o) (h : o.validate = .ok ()) {shape : Shape}
    {references : List (String × Option NodeId)} (hnode : g.node id = .object shape references) :
    Visits g o id w pending (w.visit o g id pending) := by
  obtain ⟨v, hshell, hmarks, hsound⟩ := shell_spec hw h shape
  have hreads := pushReferences_spec v (.object shape references) pending shape.references
  cases hpushes : v.pushReferences (.object shape references) pending shape.references with
  | mk result w' =>
    rw [hpushes] at hreads
    cases result with
    | ok pending' =>
      obtain ⟨hok, hlayouts, hpushed⟩ := hreads
      simp only [visit, hnode, hshell, hpushes]
      refine .charged ?_ ?_ ?_ ?_
      · intro shape' references' hnode' field hfield
        rw [hnode] at hnode'
        cases hnode'
        rw [hnode]
        exact hok field hfield
      · simpa only [Graph.targets, hnode] using hpushed.congr hmarks.symm rfl
      · rw [SoundFor, hlayouts]; exact hsound
      · intro _
        simp [Graph.cost, hnode]
    | error fault =>
      obtain ⟨⟨field, hfield, hfault⟩, hlayouts, hshrinks⟩ := hreads
      simp only [visit, hnode, hshell, hpushes]
      obtain rfl : fault = .unreadableField field (Node.object shape references).typeName := by
        unfold Node.reference at hfault
        simp only at hfault
        cases hheld : references.lookup field with
        | some target =>
          rw [hheld] at hfault
          cases hfault
        | none =>
          rw [hheld] at hfault
          exact (Except.error.inj hfault).symm
      refine .failed ?_ ?_ ?_
      · intro hreadable
        obtain ⟨target, hok⟩ := hreadable shape references hnode field hfield
        rw [hnode, hfault] at hok
        cases hok
      · have hsame : v.unmarked = w.unmarked := congrArg Visited.unmarked hmarks
        exact hsame ▸ hshrinks
      · rw [SoundFor, hlayouts]; exact hsound

theorem visit_units (hw : w.SoundFor o) (h : o.validate = .ok ()) {count : Nat}
    (hnode : g.node id = .units count) : Visits g o id w pending (w.visit o g id pending) := by
  have hread : g.Readable id := by simp [Graph.Readable, hnode]
  have hpushed : Pushed (g.targets id) w pending w pending := by
    simpa [Graph.targets, hnode] using Pushed.refl w pending
  simp only [visit, hnode]
  split
  next hzero =>
    exact .charged hread hpushed hw fun _ => by
      simp [Graph.cost, hnode, hzero, EstimatorOptions.sequenceHeader_eq h]
  next hpos =>
    obtain ⟨v, hshell, hmarks, hsound⟩ := shell_spec hw h .unit
    have hv : Pushed (g.targets id) w pending v pending := hpushed.congr rfl hmarks
    simp only [visitUnits, hshell]
    split
    next hlong =>
      refine .charged hread hv hsound fun hshort => ?_
      exact absurd (of_decide_eq_true hlong) (by simpa [Graph.Oversized, hnode] using hshort)
    next =>
      refine .charged hread hv hsound fun _ => ?_
      simp only [Graph.cost, hnode, if_neg hpos, EstimatorOptions.sequenceOverhead_eq h,
        UInt64.ofNat_add, UInt64.ofNat_mul, Nat.toUInt64]

theorem visit_elements (hw : w.SoundFor o) (h : o.validate = .ok ()) {elements : Array NodeId}
    (hnode : g.node id = .sequence elements) (hsize : elements.size ≠ 0)
    (hother : g.scalarElements? elements = none) :
    Visits g o id w pending (w.visitElements o elements pending) := by
  have hread : g.Readable id := by simp [Graph.Readable, hnode]
  simp only [visitElements]
  split
  next hlong =>
    refine .sampled ?_
    simpa [Graph.Oversized, hnode, hother] using of_decide_eq_true hlong
  next =>
    have hpushed := pushAll_pushed w pending elements.toList
    have hlayouts := layouts_pushAll w pending elements.toList
    generalize w.pushAll pending elements.toList = pushed at hpushed hlayouts
    refine .charged hread ?_ ?_ fun _ => ?_
    · simpa [Graph.targets, hnode, hother] using hpushed
    · rw [SoundFor, hlayouts]; exact hw
    · simp only [Graph.cost, hnode, if_neg hsize, hother, EstimatorOptions.sequenceOverhead_eq h]

theorem visit_sequence (hw : w.SoundFor o) (h : o.validate = .ok ()) {elements : Array NodeId}
    (hnode : g.node id = .sequence elements) :
    Visits g o id w pending (w.visit o g id pending) := by
  have hread : g.Readable id := by simp [Graph.Readable, hnode]
  simp only [visit, hnode]
  split
  next hempty =>
    have hsize : elements.size = 0 := by simpa using hempty
    have hlist : elements.toList = [] := by simpa using hsize
    have hnone : g.scalarElements? elements = none := by simp [Graph.scalarElements?, hempty]
    refine .charged hread ?_ hw fun _ => ?_
    · simpa [Graph.targets, hnode, hnone, hlist] using Pushed.refl w pending
    · simp [Graph.cost, hnode, hsize, EstimatorOptions.sequenceHeader_eq h]
  next first hfirst =>
    have hsize : elements.size ≠ 0 := by
      intro hzero
      simp [Array.getElem?_eq_none (Nat.le_of_eq hzero)] at hfirst
    split
    next type hscalar =>
      have hsome : g.scalarElements? elements = some type := by
        simp [Graph.scalarElements?, hfirst, hscalar]
      refine .charged hread ?_ hw fun _ => ?_
      · simpa [Graph.targets, hnode, hsome] using Pushed.refl w pending
      · simp only [Graph.cost, hnode, if_neg hsize, hsome, EstimatorOptions.scalarRun_eq h]
    next hother =>
      apply visit_elements hw h hnode hsize
      simp only [Graph.scalarElements?, hfirst, Option.map_some]
      split
      · rename_i type heq
        exact absurd (Option.some.inj heq) (hother type)
      · rfl

theorem visit_spec (hw : w.SoundFor o) (h : o.validate = .ok ()) (g : Graph) (id : NodeId)
    (pending : List NodeId) : Visits g o id w pending (w.visit o g id pending) := by
  -- all other values lead nowhere, but for a pointer to its target
  have hleaf : g.targets id = [] → Pushed (g.targets id) w pending w pending := by
    intro hnone; rw [hnone]; exact Pushed.refl w pending
  cases hnode : g.node id with
  | object shape references => exact visit_object hw h hnode
  | sequence elements => exact visit_sequence hw h hnode
  | units count => exact visit_units hw h hnode
  | metadata =>
    simp only [visit, hnode]
    exact .charged (by simp [Graph.Readable, hnode]) (hleaf (by simp [Graph.targets, hnode])) hw
      (by simp [Graph.cost, hnode])
  | scalar type =>
    simp only [visit, hnode]
    refine .charged (by simp [Graph.Readable, hnode]) (hleaf (by simp [Graph.targets, hnode])) hw
      fun _ => ?_
    rw [← UInt64.ofNat_toNat (x := type.kind.width), EstimatorOptions.align_ofNat h]
    simp [Graph.cost, hnode]
  | scalars type count =>
    have hread : g.Readable id := by simp [Graph.Readable, hnode]
    have hpushed := hleaf (by simp [Graph.targets, hnode])
    simp only [visit, hnode]
    split
    next hzero =>
      exact .charged hread hpushed hw fun _ => by
        simp [Graph.cost, hnode, hzero, EstimatorOptions.sequenceHeader_eq h]
    next hpos =>
      exact .charged hread hpushed hw fun _ => by
        simp only [Graph.cost, hnode, if_neg hpos, EstimatorOptions.scalarRun_eq h]
  | pointer target =>
    have hread : g.Readable id := by simp [Graph.Readable, hnode]
    cases target with
    | none =>
      simp only [visit, hnode]
      exact .charged hread (hleaf (by simp [Graph.targets, hnode])) hw (by simp [Graph.cost, hnode])
    | some target =>
      have hpushed := push_pushed w pending target
      have hlayouts := layouts_push w pending target
      simp only [visit, hnode]
      generalize w.push pending target = pushed at hpushed hlayouts
      refine .charged hread ?_ ?_ (by simp [Graph.cost, hnode])
      · simpa [Graph.targets, hnode] using hpushed
      · rw [SoundFor, hlayouts]; exact hw

end Cases

end Walk

end ShuffleBuffer.Estimate
