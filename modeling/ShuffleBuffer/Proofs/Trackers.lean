import ShuffleBuffer.Estimate.Tracker
import ShuffleBuffer.Proofs.Footprint

/-! # What trackers do

All that a tracker does to an estimator is to have it estimate. An appended element stays whether
the estimate at a checkpoint succeeds or not, and an empty tracker can always be estimated: it is a
record with two empty sequences. So the elements of a tracker can always be taken out. -/

namespace ShuffleBuffer.Estimate

namespace SizeEstimator

/-- An estimator that can be made, after any number of estimates. -/
structure Usable (e : SizeEstimator) : Prop where
  valid : e.options.validate = .ok ()
  sound : e.Sound

theorem usable_ofOptions {o : EstimatorOptions} (h : o.validate = .ok ()) :
    (ofOptions o).Usable :=
  ⟨h, Reachable.sound .empty⟩

theorem Usable.estimate {e : SizeEstimator} (h : e.Usable) (g : Graph) (root : NodeId) :
    (e.estimate g root).2.Usable := by
  obtain ⟨hoptions, hsound⟩ := estimate_sound h.valid h.sound g root
  exact ⟨hoptions ▸ h.valid, hsound⟩

end SizeEstimator

namespace Tracker

variable {α : Type} [Measured α]

theorem takeSample_estimator (t : Tracker α) (e : SizeEstimator) :
    ∃ g root, (t.takeSample e).2.2 = (e.estimate g root).2 := by
  refine ⟨((Graph.ofShared t.shared).place t.value).2,
    ((Graph.ofShared t.shared).place t.value).1, ?_⟩
  unfold takeSample
  simp only [fullEstimate, value]
  split
  · rename_i heq; rw [heq]
  · rename_i heq; rw [heq]

theorem make_estimator (o : TrackerOptions) (e : SizeEstimator) :
    (Tracker.make (α := α) o e).2 = e ∨
      ∃ g root, (Tracker.make (α := α) o e).2 = (e.estimate g root).2 := by
  unfold make
  split
  · exact .inl rfl
  · right
    obtain ⟨g, root, hestimate⟩ := takeSample_estimator (blank (α := α) o.growthRate []) e
    refine ⟨g, root, ?_⟩
    rw [← hestimate]
    split
    · rename_i heq; rw [heq]
    · rename_i heq; rw [heq]

theorem append_estimator (t : Tracker α) (e : SizeEstimator) (x : α) :
    (t.append e x).2.2 = e ∨ ∃ g root, (t.append e x).2.2 = (e.estimate g root).2 := by
  unfold append
  simp only
  split
  · exact .inr (takeSample_estimator _ e)
  · exact .inl rfl

theorem takeSample_elements (t : Tracker α) (e : SizeEstimator) :
    (t.takeSample e).2.1.elements = t.elements := by
  unfold takeSample
  simp only
  split
  · rfl
  · rfl

theorem append_elements (t : Tracker α) (e : SizeEstimator) (x : α) :
    (t.append e x).2.1.elements = t.elements.push x := by
  unfold append
  simp only
  split
  · rw [takeSample_elements]
  · rfl

/-- A tracker that is made is the blank one after its first sample. -/
theorem takeSample_of_make {o : TrackerOptions} {e e' : SizeEstimator} {shared : List Value}
    {t : Tracker α} (h : Tracker.make o e shared = (.ok t, e')) :
    (blank o.growthRate shared).takeSample e = (.ok (), t, e') := by
  unfold make at h
  split at h
  · cases h
  · generalize (blank (α := α) o.growthRate shared).takeSample e = taken at h ⊢
    obtain ⟨result, t', estimator⟩ := taken
    cases result with
    | error fault => cases h
    | ok _ =>
      cases h
      rfl

theorem eq_of_make {o : TrackerOptions} {e e' : SizeEstimator} {shared : List Value}
    {t : Tracker α} (h : Tracker.make o e shared = (.ok t, e')) :
    t = ((blank o.growthRate shared).takeSample e).2.1 := by
  rw [takeSample_of_make h]

/-- A new tracker is empty. -/
theorem make_elements {o : TrackerOptions} {e e' : SizeEstimator} {t : Tracker α}
    (h : Tracker.make o e = (.ok t, e')) : t.elements = #[] := by
  rw [eq_of_make h, takeSample_elements]
  rfl

/-! ## The empty tracker -/

/-- A graph with an empty tracker: after its other values, two empty sequences and the record. -/
def withBlank (g : Graph) : Graph :=
  ⟨((g.nodes.push (.sequence #[])).push (.sequence #[])).push
    (.object shape [("elements", some g.nodes.size), ("samples", some (g.nodes.size + 1))])⟩

theorem place_blank (growthRate : Float) (shared : List Value) (g : Graph) :
    g.place (blank (α := α) growthRate shared).value = (g.nodes.size + 2, withBlank g) := by
  simp [withBlank, Graph.place, value, blank, Value.node, Value.placeFields, Value.placeAll]

variable {g : Graph} {id : NodeId}

omit [Measured α] in
theorem node_sequence (h : id = g.nodes.size ∨ id = g.nodes.size + 1) :
    (withBlank g).node id = .sequence #[] := by
  rcases h with rfl | rfl
  · simp [withBlank, Graph.node, Array.getD, Array.getElem_push, Nat.le_add_right_of_le]
  · simp [withBlank, Graph.node, Array.getD, Array.getElem_push]

theorem node_record (g : Graph) :
    (withBlank g).node (g.nodes.size + 2) = .object shape
      [("elements", some g.nodes.size), ("samples", some (g.nodes.size + 1))] := by
  simp [withBlank, Graph.node, Array.getD, Array.getElem_push]

theorem references_shape : shape.references = ["elements", "samples"] := by
  simp [shape, Shape.references, Shape.fields, Shape.chain, Shape.ownFields, Field.reference?]

theorem targets_sequence (h : id = g.nodes.size ∨ id = g.nodes.size + 1) :
    (withBlank g).targets id = [] := by
  simp [Graph.targets, node_sequence h, Graph.scalarElements?]

theorem targets_record (g : Graph) :
    (withBlank g).targets (g.nodes.size + 2) = [g.nodes.size, g.nodes.size + 1] := by
  simp [Graph.targets, node_record, references_shape, Node.reference, List.lookup]

theorem reaches_blank (h : (withBlank g).Reaches (g.nodes.size + 2) id) :
    (id = g.nodes.size ∨ id = g.nodes.size + 1) ∨ id = g.nodes.size + 2 := by
  induction h with
  | refl => exact .inr rfl
  | tail _ hstep ih =>
    rcases ih with hsequence | rfl
    · rw [targets_sequence hsequence] at hstep
      cases hstep
    · rw [targets_record] at hstep
      simpa using Or.inl hstep

/-- An empty tracker can always be estimated, whatever its elements would share. -/
theorem fullEstimate_blank {e : SizeEstimator} (h : e.Usable) (growthRate : Float)
    (shared : List Value) :
    ∃ bytes, ((blank (α := α) growthRate shared).fullEstimate e).1 = .ok bytes := by
  rw [fullEstimate, place_blank]
  refine ⟨_, SizeEstimator.estimate_of_readable h.valid h.sound ?_ ?_⟩
  · intro id hid hlong
    rcases reaches_blank hid with hsequence | rfl
    · simp [Graph.Oversized, node_sequence hsequence] at hlong
    · simp [Graph.Oversized, node_record] at hlong
  · intro id hid owner references hnode field hfield
    rcases reaches_blank hid with hsequence | rfl
    · rw [node_sequence hsequence] at hnode
      cases hnode
    · rw [node_record] at hnode ⊢
      cases hnode
      rw [references_shape] at hfield
      have hname : field = "elements" ∨ field = "samples" := by simpa using hfield
      rcases hname with rfl | rfl
      · exact ⟨_, rfl⟩
      · exact ⟨_, rfl⟩

theorem takeSample_blank {e : SizeEstimator} (h : e.Usable) (growthRate : Float)
    (shared : List Value) : ((blank (α := α) growthRate shared).takeSample e).1 = .ok () := by
  obtain ⟨bytes, hbytes⟩ := fullEstimate_blank (α := α) h growthRate shared
  unfold takeSample
  simp only
  split
  · rename_i fault e' heq
    have hfault : ((blank (α := α) growthRate shared).fullEstimate e).1 = .error fault :=
      congrArg Prod.fst heq
    rw [hbytes] at hfault
    cases hfault
  · rfl

/-- All elements can be taken out of a tracker, in the order of their appends. -/
theorem takeElements_ok {e : SizeEstimator} (h : e.Usable) (t : Tracker α) :
    (t.takeElements e).1 = .ok t.elements.toList := by
  have hclear : (t.clear e).1 = .ok () := takeSample_blank h t.growthRate t.shared
  rw [takeElements]
  simp [hclear, Except.map]

/-- Where the growth rate is valid, making a tracker is taking the first sample of the blank one. -/
theorem make_eq {o : TrackerOptions} {e : SizeEstimator} (ho : o.validate = .ok ())
    (h : e.Usable) (shared : List Value) :
    Tracker.make (α := α) o e shared =
      (.ok ((blank o.growthRate shared).takeSample e).2.1,
        ((blank (α := α) o.growthRate shared).takeSample e).2.2) := by
  have hsample := takeSample_blank (α := α) h o.growthRate shared
  unfold make
  rw [ho]
  generalize (blank (α := α) o.growthRate shared).takeSample e = taken at hsample ⊢
  obtain ⟨result, t, estimator⟩ := taken
  dsimp only at hsample
  subst hsample
  rfl

/-- A tracker can be made wherever the growth rate is valid. -/
theorem make_ok {o : TrackerOptions} {e : SizeEstimator} (ho : o.validate = .ok ())
    (h : e.Usable) : ∃ t : Tracker α, (Tracker.make o e).1 = .ok t :=
  ⟨_, congrArg Prod.fst (make_eq ho h [])⟩

/-! ## Estimators stay usable -/

variable {e : SizeEstimator}

theorem takeElements_usable (t : Tracker α) (h : e.Usable) : (t.takeElements e).2.2.Usable := by
  obtain ⟨g, root, hestimate⟩ := takeSample_estimator (blank (α := α) t.growthRate t.shared) e
  rw [takeElements, clear, hestimate]
  exact h.estimate g root

theorem append_usable (t : Tracker α) (x : α) (h : e.Usable) : (t.append e x).2.2.Usable := by
  rcases append_estimator t e x with hsame | ⟨g, root, hestimate⟩
  · rwa [hsame]
  · rw [hestimate]
    exact h.estimate g root

theorem make_usable (o : TrackerOptions) (h : e.Usable) :
    (Tracker.make (α := α) o e).2.Usable := by
  rcases make_estimator (α := α) o e with hsame | ⟨g, root, hestimate⟩
  · rwa [hsame]
  · rw [hestimate]
    exact h.estimate g root

end Tracker

end ShuffleBuffer.Estimate
