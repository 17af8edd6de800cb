import ShuffleBuffer.Proofs.Zones

/-! # Members in another order

A walk puts the members of a value on its stack in the order in which the shape lists them, and what
is put there last is visited first. In a graph of zones an estimate does not depend on this order.
Where a value is shared between a sample and the rest, it does: what comes first charges it. -/

namespace ShuffleBuffer.Estimate

/-- Two shapes that list the same members, their own and those of every ancestor, each in an order
of its own. -/
inductive Shape.Reordered : Shape → Shape → Prop
  | root {tag tag' : ShapeTag} {name : String} {fields fields' : List Field} :
      fields.Perm fields' → Reordered (.root tag name fields) (.root tag' name fields')
  | extending {tag tag' : ShapeTag} {name : String} {parent parent' : Shape}
      {fields fields' : List Field} : Reordered parent parent' → fields.Perm fields' →
      Reordered (.extending tag name parent fields) (.extending tag' name parent' fields')

namespace Shape.Reordered

variable {s s' : Shape}

theorem name_eq (h : s.Reordered s') : s'.name = s.name := by
  cases h <;> rfl

theorem fields_perm (h : s.Reordered s') : s.fields.Perm s'.fields := by
  induction h with
  | root hown => simpa [fields, chain, ownFields] using hown
  | extending _ hown ih =>
    rw [fields_extending, fields_extending]
    exact ih.append hown

theorem references_perm (h : s.Reordered s') : s.references.Perm s'.references :=
  h.fields_perm.filterMap _

theorem bareSize_eq (h : s.Reordered s') (rootSize pointerSize : Nat) :
    s'.bareSize rootSize pointerSize = s.bareSize rootSize pointerSize :=
  congrArg (rootSize + ·) (h.fields_perm.map _).sum_eq.symm

end Shape.Reordered

/-- Two nodes that are the same but for the order of an object's members. -/
inductive Node.Reordered : Node → Node → Prop
  | refl (node : Node) : Reordered node node
  | object {shape shape' : Shape} (references : List (String × Option NodeId)) :
      shape.Reordered shape' → Reordered (.object shape references) (.object shape' references)

theorem Node.Reordered.reference_eq {node node' : Node} (h : node.Reordered node')
    (field : String) : node'.reference field = node.reference field := by
  cases h with
  | refl => rfl
  | object references hshape => simp only [Node.reference, Node.typeName, hshape.name_eq]

namespace Graph

/-- The members that the shape of an object declares. -/
def declared (g : Graph) (id : NodeId) : List String :=
  match g.node id with
  | .object shape _ => shape.references
  | _ => []

theorem readable_iff {g : Graph} {id : NodeId} : g.Readable id ↔
    ∀ field ∈ g.declared id, ((g.node id).reference field).isOk = true := by
  unfold Readable declared
  cases g.node id with
  | object shape references =>
    constructor
    · intro hread field hfield
      obtain ⟨target, hok⟩ := hread shape references rfl field hfield
      rw [hok]
      rfl
    · rintro hread _ _ ⟨⟩ field hfield
      have hok := hread field hfield
      generalize Node.reference (.object shape references) field = found at hok
      cases found with
      | ok target => exact ⟨target, rfl⟩
      | error fault => cases hok
  | _ => simp

instance (g : Graph) (id : NodeId) : Decidable (g.Readable id) :=
  decidable_of_iff _ readable_iff.symm

theorem readable_of_all (g : Graph) (h : ∀ id < g.nodes.size, g.Readable id) (id : NodeId) :
    g.Readable id := by
  by_cases hid : id < g.nodes.size
  · exact h id hid
  · exact readable_of_ge (Nat.not_lt.mp hid)

/-- Two graphs that are the same but for the order of their objects' members. -/
structure Reordered (g g' : Graph) : Prop where
  size_eq : g'.nodes.size = g.nodes.size
  node : ∀ id, (g.node id).Reordered (g'.node id)

namespace Reordered

variable {g g' : Graph} {o : EstimatorOptions} {root : NodeId} {zone : NodeId → Option NodeId}

theorem scalarElements_eq (h : g.Reordered g') (elements : Array NodeId) :
    g'.scalarElements? elements = g.scalarElements? elements := by
  unfold scalarElements?
  cases elements[0]? with
  | none => rfl
  | some first =>
    have hfirst := h.node first
    rw [Option.map_some, Option.map_some]
    generalize g.node first = node at hfirst
    generalize g'.node first = node' at hfirst
    cases hfirst <;> rfl

theorem sampled_eq (h : g.Reordered g') (id : NodeId) : g'.sampled? o id = g.sampled? o id := by
  have hnode := h.node id
  unfold sampled?
  generalize g.node id = node at hnode
  generalize g'.node id = node' at hnode
  cases hnode with
  | refl => simp only [h.scalarElements_eq]
  | object => rfl

theorem price_eq (h : g.Reordered g') (id : NodeId) : g'.price o id = g.price o id := by
  have hnode := h.node id
  unfold price rounded scaledUnits cost
  generalize g.node id = node at hnode
  generalize g'.node id = node' at hnode
  cases hnode with
  | refl => simp only [h.scalarElements_eq]
  | object references hshape => simp only [hshape.bareSize_eq]

theorem targets_perm (h : g.Reordered g') (id : NodeId) :
    (g.targets id).Perm (g'.targets id) := by
  have hnode := h.node id
  unfold targets
  generalize g.node id = node at hnode
  generalize g'.node id = node' at hnode
  cases hnode with
  | refl => simp only [h.scalarElements_eq]; exact List.Perm.refl _
  | object references hshape =>
    simp only [(Node.Reordered.object references hshape).reference_eq]
    exact hshape.references_perm.filterMap _

theorem leads_perm (h : g.Reordered g') (id : NodeId) :
    (g.leads o id).Perm (g'.leads o id) := by
  unfold leads
  rw [h.sampled_eq]
  cases g.sampled? o id with
  | none => exact h.targets_perm id
  | some elements => exact List.Perm.refl _

theorem mem_leads (h : g.Reordered g') {id target : NodeId} :
    target ∈ g'.leads o id ↔ target ∈ g.leads o id := (h.leads_perm id).symm.mem_iff

theorem readable (h : g.Reordered g') {id : NodeId} (hread : g.Readable id) :
    g'.Readable id := by
  intro shape' references hnode' field hfield
  have hnode := h.node id
  rw [hnode.reference_eq]
  rw [hnode'] at hnode
  generalize hfound : g.node id = node at hnode
  cases hnode with
  | refl => exact hfound ▸ hread _ _ hfound field hfield
  | object _ hshape =>
    exact hfound ▸ hread _ _ hfound field (hshape.references_perm.mem_iff.mpr hfield)

theorem meets_eq (h : g.Reordered g') : g'.Meets o = g.Meets o := by
  simp only [Meets, h.mem_leads]

/-- The zones of a graph do not depend on the order of its members. -/
theorem zoned (h : g.Reordered g') (hzoned : g.Zoned o root zone) : g'.Zoned o root zone := by
  refine ⟨hzoned.outside, fun id hmeets target htarget => ?_⟩
  rw [h.meets_eq] at hmeets
  simpa only [zoneBelow, Encloses, h.sampled_eq, h.mem_leads] using
    hzoned.step id hmeets target (h.mem_leads.mp htarget)

theorem region_eq (h : g.Reordered g') (z : Option NodeId) {starts starts' : List NodeId}
    (hstarts : starts.Perm starts') :
    g'.region o zone z starts' = g.region o zone z starts := by
  ext id
  simp only [mem_region, Within, h.size_eq, h.sampled_eq, h.mem_leads, hstarts.mem_iff]

theorem weigh_eq (h : g.Reordered g') (depth : Nat) (id : NodeId) :
    g'.weigh o zone depth id = g.weigh o zone depth id := by
  induction depth generalizing id with
  | zero => exact h.price_eq id
  | succ depth ih =>
    simp only [weigh, h.sampled_eq, h.price_eq, h.region_eq _ (h.leads_perm id), ih]

end Reordered

end Graph

namespace SizeEstimator

variable {g g' : Graph} {root : NodeId} {zone : NodeId → Option NodeId} {e e' : SizeEstimator}

/-- Where every value that the walk meets belongs to one zone, the order in which shapes list their
members makes no difference, whatever layouts are cached. -/
theorem estimate_reordered (he : e.Usable) (he' : e'.Usable) (hoptions : e'.options = e.options)
    (hsame : g.Reordered g') (hzoned : g.Zoned e.options root zone)
    (hreadable : ∀ id, g.Meets e.options root id → g.Readable id) :
    ∃ bytes, (e.estimate g root).1 = .ok bytes ∧ (e'.estimate g' root).1 = .ok bytes := by
  have hzoned' : g'.Zoned e'.options root zone := hoptions ▸ hsame.zoned hzoned
  have hreadable' : ∀ id, g'.Meets e'.options root id → g'.Readable id := by
    rw [hoptions, hsame.meets_eq]
    exact fun id hmeets => hsame.readable (hreadable id hmeets)
  refine ⟨_, estimate_zoned he hzoned hreadable (Nat.le_refl g.nodes.size), ?_⟩
  rw [estimate_zoned he' hzoned' hreadable' hsame.size_eq.le, hoptions,
    hsame.region_eq none (List.Perm.refl [root])]
  exact congrArg Except.ok (Finset.sum_congr rfl fun id _ => hsame.weigh_eq _ id)

/-- Members that lead elsewhere. -/
def members (names : List String) : List Field := names.map (⟨·, .reference⟩)

/-- An invoice of four items and a note. All items are one, which leads to a text of its own and
back to the invoice. -/
def invoice (own item : List String) : Graph :=
  ⟨#[.object (.root (.declared 0) "Invoice" (members own)) [("items", some 1), ("note", some 8)],
    .sequence #[2, 3, 4, 5], .pointer (some 6), .pointer (some 6), .pointer (some 6),
    .pointer (some 6),
    .object (.root (.declared 1) "Item" (members item)) [("invoice", some 0), ("text", some 7)],
    .scalars .u8 5, .scalars .u8 3]⟩

/-- The items and the text are met within the sample, the invoice and its note outside. -/
def invoiceZone (id : NodeId) : Option NodeId := if 2 ≤ id ∧ id ≤ 7 then some 1 else none

theorem invoice_reordered {own own' item item' : List String} (hown : own.Perm own')
    (hitem : item.Perm item') : (invoice own item).Reordered (invoice own' item') where
  size_eq := rfl
  node
    | 0 => .object _ (.root (hown.map _))
    | 6 => .object _ (.root (hitem.map _))
    | 1 | 2 | 3 | 4 | 5 | 7 | 8 => .refl _
    | _ + 9 => .refl _

/-- The items are charged as a sample and the note is not, whatever member comes first. -/
theorem estimate_reordered_invoice :
    let e := ofOptions { samplingThreshold := 3, sampleCount := 2 }
    let g := invoice ["items", "note"] ["invoice", "text"]
    let g' := invoice ["note", "items"] ["text", "invoice"]
    e.Usable ∧ g.Reordered g' ∧ g.Zoned e.options 0 invoiceZone ∧ (∀ id, g.Readable id) ∧
      ∃ bytes, (e.estimate g 0).1 = .ok bytes ∧ (e.estimate g' 0).1 = .ok bytes := by
  intro e g g'
  have he : e.Usable := usable_ofOptions (by decide)
  have hsame : g.Reordered g' := invoice_reordered (.swap _ _ _) (.swap _ _ _)
  have hsteps : ∀ id < 9, ∀ target ∈ g.leads e.options id,
      invoiceZone target = g.zoneBelow e.options invoiceZone id ∨
        g.zoneBelow e.options invoiceZone id = some 1 ∧ target = 0 := by
    decide +kernel
  have hzoned : g.Zoned e.options 0 invoiceZone := by
    refine ⟨rfl, fun id _ target htarget => ?_⟩
    by_cases hid : id < 9
    · refine (hsteps id hid target htarget).imp_right ?_
      rintro ⟨hbelow, rfl⟩
      exact ⟨1, hbelow, .inl rfl⟩
    · rw [Graph.leads_of_ge (Nat.not_lt.mp hid)] at htarget
      cases htarget
  have hreadable : ∀ id, g.Readable id := g.readable_of_all (by decide)
  exact ⟨he, hsame, hzoned, hreadable,
    estimate_reordered he he rfl hsame hzoned fun id _ => hreadable id⟩

/-- An owner of a text and of a sequence that leads to this text four times. -/
def owner (own : List String) : Graph :=
  ⟨#[.object (.root (.declared 0) "Owner" (members own)) [("text", some 1), ("texts", some 2)],
    .pointer (some 7), .sequence #[3, 4, 5, 6], .pointer (some 7), .pointer (some 7),
    .pointer (some 7), .pointer (some 7), .scalars .u8 100]⟩

theorem owner_reordered {own own' : List String} (hown : own.Perm own') :
    (owner own).Reordered (owner own') where
  size_eq := rfl
  node
    | 0 => .object _ (.root (hown.map _))
    | 1 | 2 | 3 | 4 | 5 | 6 | 7 => .refl _
    | _ + 8 => .refl _

/-- Where the sequence is met first, the text is charged within its sample and scaled up. -/
theorem member_order_counts :
    let e := ofOptions { samplingThreshold := 3, sampleCount := 2 }
    e.options.validate = .ok () ∧ (owner ["text", "texts"]).Reordered (owner ["texts", "text"]) ∧
      (∀ id, (owner ["text", "texts"]).Readable id) ∧
      (e.estimate (owner ["text", "texts"]) 0).1 = .ok 344 ∧
      (e.estimate (owner ["texts", "text"]) 0).1 = .ok 216 :=
  ⟨by decide, owner_reordered (.swap _ _ _), Graph.readable_of_all _ (by decide),
    by decide +kernel, by decide +kernel⟩

end SizeEstimator

end ShuffleBuffer.Estimate
