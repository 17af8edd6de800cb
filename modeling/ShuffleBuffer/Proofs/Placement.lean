import ShuffleBuffer.Estimate.Value
import ShuffleBuffer.Proofs.Footprint

/-! # Placed values

Placing a value only appends to a graph, and what is appended leads to nodes of the same graph. If
all members that the value's shapes declare are described, each node can be read. So a graph of such
values is whole: it has everything that any of its nodes leads to, and no walk over it fails. -/

namespace ShuffleBuffer.Estimate

/-- Every reference member that a shape in the value declares is described, as filled or as empty, and
every shared value is one of the first `bound`. -/
inductive Value.Readable (bound : Nat) : Value → Prop
  | scalar (type : ScalarType) : Readable bound (.scalar type)
  | text (bytes : Nat) : Readable bound (.text bytes)
  | metadata : Readable bound .metadata
  | sequence {items : List Value} : (∀ v ∈ items, Readable bound v) →
      Readable bound (.sequence items)
  | units (count : Nat) : Readable bound (.units count)
  | emptyPointer : Readable bound .emptyPointer
  | pointer {target : Value} : Readable bound target → Readable bound (.pointer target)
  | shared {index : Nat} : index < bound → Readable bound (.shared index)
  | object {shape : Shape} {filled : List (String × Value)} {empty : List String} :
      (∀ field ∈ shape.references, field ∈ filled.map Prod.fst ++ empty) →
      (∀ entry ∈ filled, Readable bound entry.2) → Readable bound (.object shape filled empty)

/-- A node leads to the first `bound` nodes only, and all that its shape declares can be read. -/
structure Node.Whole (bound : Nat) (n : Node) : Prop where
  pointer : ∀ target, n = .pointer (some target) → target < bound
  elements : ∀ ids, n = .sequence ids → ∀ id ∈ ids.toList, id < bound
  references : ∀ shape references, n = .object shape references →
    (∀ field id, (field, some id) ∈ references → id < bound) ∧
    ∀ field ∈ shape.references, ∃ target, n.reference field = .ok target

/-- Nodes that lead to each other only. -/
def Whole (nodes : Array Node) : Prop := ∀ n ∈ nodes.toList, n.Whole nodes.size

/-- Nodes were appended, and all of them lead to each other only. -/
structure Grown (nodes nodes' : Array Node) : Prop where
  appended : nodes.toList <+: nodes'.toList
  whole : Whole nodes'

variable {nodes nodes' nodes'' : Array Node} {bound : Nat} {n : Node}

theorem Node.Whole.mono (h : n.Whole bound) {more : Nat} (hmore : bound ≤ more) : n.Whole more where
  pointer target hn := Nat.lt_of_lt_of_le (h.pointer target hn) hmore
  elements ids hn id hid := Nat.lt_of_lt_of_le (h.elements ids hn id hid) hmore
  references shape references hn := by
    obtain ⟨hbound, hread⟩ := h.references shape references hn
    exact ⟨fun field id hid => Nat.lt_of_lt_of_le (hbound field id hid) hmore, hread⟩

theorem Grown.refl (h : Whole nodes) : Grown nodes nodes := ⟨List.prefix_rfl, h⟩

theorem Grown.trans (h : Grown nodes nodes') (h' : Grown nodes' nodes'') : Grown nodes nodes'' :=
  ⟨h.appended.trans h'.appended, h'.whole⟩

theorem Grown.size_le (h : Grown nodes nodes') : nodes.size ≤ nodes'.size := by
  simpa using h.appended.length_le

theorem Grown.push (h : Grown nodes nodes') (hn : n.Whole nodes'.size) :
    Grown nodes (nodes'.push n) := by
  refine ⟨?_, ?_⟩
  · rw [Array.toList_push]
    exact h.appended.trans (List.prefix_append _ _)
  · intro other hother
    rw [Array.toList_push, List.mem_append, List.mem_singleton] at hother
    rw [Array.size_push]
    rcases hother with hold | rfl
    · exact (h.whole other hold).mono (Nat.le_succ _)
    · exact hn.mono (Nat.le_succ _)

namespace Value

/-- Wherever a value is placed, nodes are appended that lead to each other only, and its own node
leads to these. -/
def Places (bound : Nat) (v : Value) : Prop :=
  ∀ nodes : Array Node, Estimate.Whole nodes → bound ≤ nodes.size →
    Grown nodes (v.node nodes).2 ∧ (v.node nodes).1.Whole (v.node nodes).2.size

theorem placeAll_grown {items : List Value} (hitems : ∀ v ∈ items, v.Places bound)
    (hnodes : Estimate.Whole nodes) (hbound : bound ≤ nodes.size) {ids : Array NodeId}
    (hids : ∀ id ∈ ids.toList, id < nodes.size) :
    Grown nodes (placeAll nodes ids items).2 ∧
      ∀ id ∈ (placeAll nodes ids items).1.toList, id < (placeAll nodes ids items).2.size := by
  induction items generalizing nodes ids with
  | nil => exact ⟨.refl hnodes, hids⟩
  | cons v items ih =>
    obtain ⟨hgrown, hnode⟩ := hitems v List.mem_cons_self nodes hnodes hbound
    have hpushed := hgrown.push hnode
    have hsize := hgrown.size_le
    rw [placeAll]
    obtain ⟨hrest, hall⟩ := ih (fun v hv => hitems v (.tail _ hv)) hpushed.whole
      (hbound.trans hpushed.size_le)
      (show ∀ id ∈ (ids.push (v.node nodes).2.size).toList, id < ((v.node nodes).2.push _).size by
        intro id hid
        rw [Array.toList_push, List.mem_append, List.mem_singleton] at hid
        rw [Array.size_push]
        rcases hid with hold | rfl
        · exact Nat.lt_succ_of_lt (Nat.lt_of_lt_of_le (hids id hold) hsize)
        · exact Nat.lt_succ_self _)
    exact ⟨hpushed.trans hrest, hall⟩

theorem placeFields_grown {fields : List (String × Value)}
    (hfields : ∀ entry ∈ fields, entry.2.Places bound) (hnodes : Estimate.Whole nodes)
    (hbound : bound ≤ nodes.size) :
    Grown nodes (placeFields nodes fields).2 ∧
      (placeFields nodes fields).1.map Prod.fst = fields.map Prod.fst ∧
      ∀ field id, (field, some id) ∈ (placeFields nodes fields).1 →
        id < (placeFields nodes fields).2.size := by
  induction fields generalizing nodes with
  | nil => exact ⟨.refl hnodes, rfl, nofun⟩
  | cons entry fields ih =>
    obtain ⟨name, v⟩ := entry
    obtain ⟨hgrown, hnode⟩ := hfields _ List.mem_cons_self nodes hnodes hbound
    have hpushed := hgrown.push hnode
    obtain ⟨hrest, hnames, hall⟩ := ih (fun entry hentry => hfields entry (.tail _ hentry))
      hpushed.whole (hbound.trans hpushed.size_le)
    rw [placeFields]
    refine ⟨hpushed.trans hrest, congrArg (name :: ·) hnames, fun field id hid => ?_⟩
    rcases List.mem_cons.mp hid with hfirst | hlater
    · cases hfirst
      have := hrest.size_le
      rw [Array.size_push] at this
      exact this
    · exact hall field id hlater

/-- What is described as filled or as empty is read back. -/
theorem reference_object {shape : Shape} {references : List (String × Option NodeId)}
    {empty : List String} {field : String} (h : field ∈ references.map Prod.fst ++ empty) :
    ∃ target, (Node.object shape (references ++ empty.map (·, none))).reference field =
      .ok target := by
  have hheld : ((references ++ empty.map (·, none)).lookup field).isSome = true := by
    rw [List.lookup_isSome_iff]
    rcases List.mem_append.mp h with hfilled | hempty
    · obtain ⟨entry, hentry, hname⟩ := List.mem_map.mp hfilled
      exact ⟨entry, List.mem_append_left _ hentry, beq_iff_eq.mpr hname.symm⟩
    · exact ⟨_, List.mem_append_right _ (List.mem_map.mpr ⟨field, hempty, rfl⟩), beq_self_eq_true _⟩
  obtain ⟨target, htarget⟩ := Option.isSome_iff_exists.mp hheld
  exact ⟨target, by simp only [Node.reference, htarget]⟩

theorem Readable.places {v : Value} (h : v.Readable bound) : v.Places bound := by
  induction h with
  | scalar | text | metadata | units | emptyPointer =>
    exact fun nodes hnodes _ => ⟨.refl hnodes, nofun, nofun, nofun⟩
  | shared hindex =>
    intro nodes hnodes hbound
    refine ⟨.refl hnodes, fun target htarget => ?_, nofun, nofun⟩
    cases htarget
    exact Nat.lt_of_lt_of_le hindex hbound
  | pointer _ ih =>
    intro nodes hnodes hbound
    obtain ⟨hgrown, hnode⟩ := ih nodes hnodes hbound
    rw [node]
    refine ⟨hgrown.push hnode, fun target htarget => ?_, nofun, nofun⟩
    cases htarget
    simp
  | sequence _ ih =>
    intro nodes hnodes hbound
    obtain ⟨hgrown, hids⟩ := placeAll_grown ih hnodes hbound
      (show ∀ id ∈ (#[] : Array NodeId).toList, id < nodes.size by simp)
    rw [node]
    refine ⟨hgrown, nofun, fun ids hsame => ?_, nofun⟩
    cases hsame
    exact hids
  | @object shape filled empty hdeclared _ ih =>
    intro nodes hnodes hbound
    obtain ⟨hgrown, hnames, hids⟩ := placeFields_grown ih hnodes hbound
    rw [node]
    refine ⟨hgrown, nofun, nofun, fun shape references hsame => ?_⟩
    cases hsame
    refine ⟨fun field id hid => ?_, fun field hfield => ?_⟩
    · rcases List.mem_append.mp hid with hfilled | hempty
      · exact hids field id hfilled
      · simp at hempty
    · refine reference_object ?_
      rw [hnames]
      exact hdeclared field hfield

end Value

namespace Graph

variable {g g' : Graph} {id : NodeId}

/-- A value keeps its node when others are appended. -/
theorem node_of_appended (h : g.nodes.toList <+: g'.nodes.toList) (hid : id < g.nodes.size) :
    g'.node id = g.node id := by
  have hkept : g'.nodes[id]? = g.nodes[id]? := by
    have hlist := List.prefix_iff_getElem?.mp h id hid
    rw [Array.getElem?_toList] at hlist
    rw [hlist, Array.getElem?_eq_getElem hid, Array.getElem_toList]
  rw [node, node, Array.getD_eq_getD_getElem?, Array.getD_eq_getD_getElem?, hkept]

theorem whole_node (hg : Whole g.nodes) (id : NodeId) : (g.node id).Whole g.nodes.size := by
  by_cases hid : id < g.nodes.size
  · refine hg _ ?_
    simp [node, hid]
  · rw [node_of_ge (Nat.le_of_not_lt hid)]
    refine ⟨fun _ h => ?_, fun _ h => ?_, fun _ _ h => ?_⟩
    · cases h
    · cases h
    · cases h

/-- Nothing in such a graph keeps a walk from going on. -/
theorem readable_of_whole (hg : Whole g.nodes) (id : NodeId) : g.Readable id :=
  fun shape references hnode =>
    hnode ▸ ((whole_node hg id).references shape references hnode).2

theorem place_grown {v : Value} (hv : v.Readable bound) (hg : Whole g.nodes)
    (hbound : bound ≤ g.nodes.size) :
    Grown g.nodes (g.place v).2.nodes ∧ (g.place v).1 < (g.place v).2.nodes.size := by
  obtain ⟨hgrown, hnode⟩ := hv.places g.nodes hg hbound
  refine ⟨hgrown.push hnode, ?_⟩
  show (v.node g.nodes).2.size < ((v.node g.nodes).2.push _).size
  rw [Array.size_push]
  exact Nat.lt_succ_self _

end Graph

end ShuffleBuffer.Estimate
