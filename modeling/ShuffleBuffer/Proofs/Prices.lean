import ShuffleBuffer.Proofs.Samples

/-! # The price of a value

Every value has a price, oversized or not, and a visit charges it. Part of the price is rounded up;
the rest is scaled up, for elements without size of which there are too many. From a value the walk
comes to its targets, or to the elements that are drawn from it. -/

namespace ShuffleBuffer.Estimate

variable {o : EstimatorOptions} {g : Graph} {id : NodeId}

namespace Graph

/-- The elements of a sequence that is sampled: they are no scalars, and too many to be walked. -/
def sampled? (g : Graph) (o : EstimatorOptions) (id : NodeId) : Option (Array NodeId) :=
  match g.node id with
  | .sequence elements =>
      if g.scalarElements? elements = none ∧ o.isSampled elements.size = true then some elements
      else none
  | _ => none

/-- What the walk comes to from a value. -/
def leads (g : Graph) (o : EstimatorOptions) (id : NodeId) : List NodeId :=
  match g.sampled? o id with
  | some elements => (o.drawn elements.size).filterMap (elements[·]?)
  | none => g.targets id

/-- The part of a price that is rounded up, in unbounded numbers. -/
def rounded (g : Graph) (o : EstimatorOptions) (id : NodeId) : Nat :=
  match g.node id with
  | .units count =>
      if o.isSampled count then
        roundUp o.alignment.toNat (o.objectHeader.toNat + 4) +
          roundUp o.alignment.toNat (count * o.pointerSize.toNat)
      else g.cost o id
  | _ => g.cost o id

/-- What is scaled up for too many elements without size: the price of one, for as many as else
would be drawn. -/
def scaledUnits (g : Graph) (o : EstimatorOptions) (id : NodeId) : UInt64 :=
  match g.node id with
  | .units count =>
      let each := UInt64.ofNat (roundUp o.alignment.toNat
        (Shape.unit.bareSize o.objectHeader.toNat o.pointerSize.toNat))
      if o.isSampled count then o.extrapolate count.toUInt64 (o.sampleCount * each) else 0
  | _ => 0

def price (g : Graph) (o : EstimatorOptions) (id : NodeId) : UInt64 :=
  UInt64.ofNat (g.rounded o id) + g.scaledUnits o id

theorem sampled_eq_some {elements : Array NodeId} :
    g.sampled? o id = some elements ↔ g.node id = .sequence elements ∧
      g.scalarElements? elements = none ∧ o.samplingThreshold.toNat < elements.size := by
  unfold sampled?
  split
  · next found hnode =>
    rw [hnode, Option.ite_none_right_eq_some, EstimatorOptions.isSampled, decide_eq_true_iff]
    constructor
    · rintro ⟨hlong, hsame⟩
      cases hsame
      exact ⟨rfl, hlong⟩
    · rintro ⟨hsame, hlong⟩
      cases hsame
      exact ⟨hlong, rfl⟩
  · next hother => exact ⟨nofun, fun h => absurd h.1 (hother elements)⟩

theorem leads_of_sampled {elements : Array NodeId} (h : g.sampled? o id = some elements) :
    g.leads o id = (o.drawn elements.size).filterMap (elements[·]?) := by
  rw [leads, h]

theorem leads_of_walked (h : g.sampled? o id = none) : g.leads o id = g.targets id := by
  rw [leads, h]

theorem lt_of_sampled {elements : Array NodeId} (h : g.sampled? o id = some elements) :
    id < g.nodes.size := by
  by_contra hge
  have hnode := (sampled_eq_some.mp h).1
  rw [node_of_ge (Nat.not_lt.mp hge)] at hnode
  cases hnode

theorem leads_of_ge (h : g.nodes.size ≤ id) : g.leads o id = [] := by
  cases hsampled : g.sampled? o id with
  | none => rw [leads_of_walked hsampled, targets_of_ge h]
  | some elements => exact absurd (lt_of_sampled hsampled) (Nat.not_lt.mpr h)

/-- A value that is not oversized costs what it costs, and nothing of it is scaled up. -/
theorem rounded_of_short (h : ¬ g.Oversized o id) : g.rounded o id = g.cost o id := by
  unfold rounded
  cases hnode : g.node id with
  | units count =>
    refine if_neg fun hlong => h ?_
    simpa only [Oversized, hnode] using of_decide_eq_true hlong
  | _ => rfl

theorem scaledUnits_of_short (h : ¬ g.Oversized o id) : g.scaledUnits o id = 0 := by
  unfold scaledUnits
  cases hnode : g.node id with
  | units count =>
    refine if_neg fun hlong => h ?_
    simpa only [Oversized, hnode] using of_decide_eq_true hlong
  | _ => rfl

theorem price_of_short (h : ¬ g.Oversized o id) : g.price o id = UInt64.ofNat (g.cost o id) := by
  rw [price, rounded_of_short h, scaledUnits_of_short h, UInt64.add_zero]

theorem price_of_sampled (h : o.validate = .ok ()) {elements : Array NodeId}
    (hsampled : g.sampled? o id = some elements) :
    g.price o id = o.sequenceOverhead elements.size.toUInt64 := by
  obtain ⟨hnode, hother, hlong⟩ := sampled_eq_some.mp hsampled
  have hsize : elements.size ≠ 0 := by omega
  simp only [price, rounded, scaledUnits, cost, hnode, if_neg hsize, hother, UInt64.add_zero,
    EstimatorOptions.sequenceOverhead_eq h]

end Graph

namespace Walk

variable {w : Walk} {pending : List NodeId}

/-- What a visit comes to: the price of the value, and what it leads to goes on the stack or is
drawn; or a member cannot be read. -/
inductive Prices (g : Graph) (o : EstimatorOptions) (id : NodeId) (w : Walk)
    (pending : List NodeId) : Outcome → Prop
  | charged {pending' : List NodeId} {w' : Walk} : g.sampled? o id = none →
      g.Readable id → Pushed (g.leads o id) w pending w' pending' → w'.SoundFor o →
      Prices g o id w pending (.charged (g.price o id) pending' w')
  | sampled {elements : Array NodeId} : g.sampled? o id = some elements →
      Prices g o id w pending
        (.sampled (g.price o id) elements.size.toUInt64 (g.leads o id) w)
  | failed {fault : Fault} {w' : Walk} : ¬ g.Readable id →
      Prices g o id w pending (.failed fault w')

theorem visit_manyUnits (h : o.validate = .ok ()) (hw : w.SoundFor o) {count : Nat}
    (hnode : g.node id = .units count) (hlong : o.samplingThreshold.toNat < count) :
    Prices g o id w pending (w.visit o g id pending) := by
  have hsampled : o.isSampled count = true := decide_eq_true hlong
  have hpos : count ≠ 0 := by omega
  have hwalked : g.sampled? o id = none := by simp only [Graph.sampled?, hnode]
  obtain ⟨v, hshell, hmarks, hsound⟩ := shell_spec hw h .unit
  have hprice : g.price o id = o.sequenceOverhead count.toUInt64 + g.scaledUnits o id := by
    simp only [Graph.price, Graph.rounded, hnode, hsampled, if_true,
      EstimatorOptions.sequenceOverhead_eq h]
  have hpushed : Pushed (g.leads o id) w pending v pending := by
    rw [Graph.leads_of_walked hwalked]
    simpa [Graph.targets, hnode] using (Pushed.refl w pending).congr rfl hmarks
  have hread : g.Readable id := by simp [Graph.Readable, hnode]
  have hcharged := Prices.charged (o := o) hwalked hread hpushed hsound
  rw [hprice] at hcharged
  simpa only [visit, hnode, if_neg hpos, visitUnits, hshell, hsampled, if_true,
    Graph.scaledUnits] using hcharged

theorem visit_prices (h : o.validate = .ok ()) (hw : w.SoundFor o) (g : Graph) (id : NodeId)
    (pending : List NodeId) : Prices g o id w pending (w.visit o g id pending) := by
  cases hsampled : g.sampled? o id with
  | some elements =>
    obtain ⟨hnode, hother, hlong⟩ := Graph.sampled_eq_some.mp hsampled
    rw [visit_long hnode hother hlong, ← Graph.price_of_sampled h hsampled,
      ← Graph.leads_of_sampled hsampled]
    exact .sampled hsampled
  | none =>
    by_cases hlong : g.Oversized o id
    · cases hnode : g.node id with
      | units count =>
        exact visit_manyUnits h hw hnode (by simpa only [Graph.Oversized, hnode] using hlong)
      | sequence elements =>
        have hsome : g.sampled? o id = some elements :=
          Graph.sampled_eq_some.mpr ⟨hnode, by simpa only [Graph.Oversized, hnode] using hlong⟩
        cases hsampled.symm.trans hsome
      | _ => simp [Graph.Oversized, hnode] at hlong
    · have hspec := visit_spec hw h g id pending
      generalize w.visit o g id pending = outcome at hspec
      cases hspec with
      | charged hread hpushed hsound hcost =>
        rw [hcost hlong, ← Graph.price_of_short hlong]
        rw [← Graph.leads_of_walked hsampled] at hpushed
        exact .charged hsampled hread hpushed hsound
      | sampled hover => exact absurd hover hlong
      | failed hunreadable _ _ => exact .failed hunreadable

end Walk

end ShuffleBuffer.Estimate
