import ShuffleBuffer.Proofs.Prefixes

/-! # What a tracker takes itself

A tracker is placed as the vector of its elements and, after everything that these lead to, its
samples and itself. So a full estimate is that of the vector on top of what the tracker takes, which
depends on the number of samples alone. -/

namespace ShuffleBuffer.Estimate

namespace EstimatorOptions

variable {o : EstimatorOptions}

/-- The bytes of a bare object of a shape. -/
def shellBytes (o : EstimatorOptions) (shape : Shape) : UInt64 :=
  UInt64.ofNat (roundUp o.alignment.toNat (shape.bareSize o.objectHeader.toNat o.pointerSize.toNat))

/-- The estimate of the vector of some elements. -/
def vectorBytes {α : Type} [Measured α] (o : EstimatorOptions) (xs : List α) : Except Fault UInt64 :=
  let (root, g) := Graph.place ⟨#[]⟩ (.sequence (xs.map describe))
  ((SizeEstimator.ofOptions o).estimate g root).1

/-- The samples of a tracker are never sampled themselves. -/
theorem two_le_samplingThreshold (h : o.validate = .ok ()) : 2 ≤ o.samplingThreshold.toNat := by
  unfold validate at h
  split at h
  · cases h
  · next hcount =>
    split at h
    · cases h
    · next hthreshold =>
      have hpos : o.sampleCount.toNat ≠ 0 := fun hzero => hcount (UInt64.toNat_inj.mp hzero)
      have hless := UInt64.lt_iff_toNat_lt.mp (UInt64.not_le.mp hthreshold)
      omega

end EstimatorOptions

namespace Walk

variable {o : EstimatorOptions} {g : Graph} {w : Walk}

theorem push_fresh {id : NodeId} (h : w.visited.contains id = false) (pending : List NodeId) :
    w.push pending id = (id :: pending, { w with visited := w.visited.mark id }) := by
  rw [push, if_neg (Bool.eq_false_iff.mp h)]

/-- Values that are not marked are put on the stack, the last one on top. -/
theorem pushAll_fresh {ids : List NodeId} (hdistinct : ids.Nodup)
    (hfresh : ∀ id ∈ ids, w.visited.contains id = false) (pending : List NodeId) :
    (w.pushAll pending ids).1 = ids.reverse ++ pending ∧
      ∀ id, (w.pushAll pending ids).2.visited.contains id =
        (w.visited.contains id || decide (id ∈ ids)) := by
  induction ids generalizing w pending with
  | nil => simp [pushAll]
  | cons id ids ih =>
    obtain ⟨hnew, hdistinct⟩ := List.nodup_cons.mp hdistinct
    obtain ⟨hid, hfresh⟩ := List.forall_mem_cons.mp hfresh
    rw [pushAll_cons, push_fresh hid]
    have hlater : ∀ other ∈ ids, (w.visited.mark id).contains other = false := by
      intro other hother
      rw [Visited.contains_mark, hfresh other hother]
      exact decide_eq_false fun hsame => hnew (hsame ▸ hother)
    obtain ⟨hstack, hmarks⟩ := ih (w := { w with visited := w.visited.mark id }) hdistinct hlater
      (id :: pending)
    refine ⟨by rw [hstack]; simp, fun other => ?_⟩
    rw [hmarks other, Visited.contains_mark, Bool.or_assoc]
    simp

theorem pushReferences_fresh {node : Node} {field : String} {id : NodeId}
    (hread : node.reference field = .ok (some id)) (hfresh : w.visited.contains id = false)
    (pending : List NodeId) (fields : List String) :
    w.pushReferences node pending (field :: fields) =
      { w with visited := w.visited.mark id }.pushReferences node (id :: pending) fields := by
  rw [pushReferences, hread]
  dsimp only
  rw [push_fresh hfresh]

/-- Objects without members are charged one after the other. -/
theorem drain_shells (ho : o.validate = .ok ()) {shape : Shape} (hshape : shape.references = [])
    {ids : List NodeId} (hids : ∀ id ∈ ids, ∃ references, g.node id = .object shape references)
    (fuel : Nat) (pending : List NodeId) (size : UInt64) (hw : w.SoundFor o) :
    ∃ w', drain o g (ids.length + fuel) (ids ++ pending) size w =
        drain o g fuel pending (size + UInt64.ofNat ids.length * o.shellBytes shape) w' ∧
      w'.visited = w.visited ∧ w'.SoundFor o := by
  induction ids generalizing size w with
  | nil => exact ⟨w, by simp, rfl, hw⟩
  | cons id ids ih =>
    obtain ⟨⟨references, hnode⟩, hids⟩ := List.forall_mem_cons.mp hids
    obtain ⟨v, hshell, hmarks, hsound⟩ := shell_spec hw ho shape
    have hvisit : w.visit o g id (ids ++ pending) =
        .charged (o.shellBytes shape) (ids ++ pending) v := by
      simp only [visit, hnode, hshell, hshape]
      rfl
    obtain ⟨w', hrest, hmarks', hsound'⟩ := ih hids (size + o.shellBytes shape) hsound
    refine ⟨w', ?_, hmarks'.trans hmarks, hsound'⟩
    rw [List.length_cons, Nat.add_right_comm, List.cons_append, drain, hvisit]
    dsimp only
    rw [hrest, UInt64.add_assoc]
    congr 2
    rw [Nat.add_comm ids.length, UInt64.ofNat_add, UInt64.add_mul]
    simp

end Walk

/-! ## The graph of a tracker -/

namespace Tracker

variable {α : Type} [Measured α]

/-- What a tracker with this many samples takes itself. -/
def overhead (o : EstimatorOptions) (samples : Nat) : UInt64 :=
  o.shellBytes shape + o.sequenceOverhead samples.toUInt64 +
    UInt64.ofNat samples * o.shellBytes sampleShape

/-- A graph with the vector of elements, and after its values some samples, their vector and the
tracker. -/
def withSamples (g : Graph) (elements : NodeId) (samples : Nat) : Graph :=
  ⟨((g.nodes ++ Array.replicate samples (Node.object sampleShape [])).push
      (.sequence (Array.range' g.nodes.size samples))).push
    (.object shape [("elements", some elements), ("samples", some (g.nodes.size + samples))])⟩

theorem placeAll_samples (samples : List Sample) (nodes : Array Node) (ids : Array NodeId) :
    Value.placeAll nodes ids (samples.map fun _ => .object sampleShape [] []) =
      (ids ++ Array.range' nodes.size samples.length,
        nodes ++ Array.replicate samples.length (Node.object sampleShape [])) := by
  induction samples generalizing nodes ids with
  | nil => simp [Value.placeAll]
  | cons sample samples ih =>
    rw [List.map_cons, Value.placeAll, Value.node, Value.placeFields]
    dsimp only
    rw [List.map_nil, List.append_nil, ih, Array.size_push]
    refine Prod.ext ?_ ?_
    · apply Array.toList_inj.mp
      simp [List.range'_succ]
    · apply Array.toList_inj.mp
      simp [List.replicate_succ]

theorem place_value (t : Tracker α) (g : Graph) :
    let v := g.place (.sequence (t.elements.toList.map describe))
    g.place t.value = (v.2.nodes.size + t.samples.length + 1,
      withSamples v.2 v.1 t.samples.length) := by
  simp only [Graph.place, value, Value.node, Value.placeFields, placeAll_samples, withSamples]
  simp [Nat.add_assoc]

variable {g : Graph} {elements samples : Nat}

section Nodes

omit [Measured α]

theorem size_withSamples :
    (withSamples g elements samples).nodes.size = g.nodes.size + samples + 2 := by
  simp [withSamples, Nat.add_assoc]

theorem toList_withSamples : (withSamples g elements samples).nodes.toList =
    g.nodes.toList ++ (List.replicate samples (Node.object sampleShape []) ++
      [.sequence (Array.range' g.nodes.size samples), .object shape
        [("elements", some elements), ("samples", some (g.nodes.size + samples))]]) := by
  simp [withSamples]

theorem prefix_withSamples :
    g.nodes.toList <+: (withSamples g elements samples).nodes.toList := by
  rw [toList_withSamples]
  exact List.prefix_append _ _

/-- The nodes that come after those of the elements. -/
theorem node_withSamples (index : Nat) :
    (withSamples g elements samples).node (g.nodes.size + index) =
      ((List.replicate samples (Node.object sampleShape []) ++
        [.sequence (Array.range' g.nodes.size samples), .object shape
          [("elements", some elements), ("samples", some (g.nodes.size + samples))]])[index]?).getD
        .metadata := by
  rw [Graph.node, Array.getD_eq_getD_getElem?, ← Array.getElem?_toList, toList_withSamples,
    List.getElem?_append_right (by simp)]
  simp

theorem node_sample {index : Nat} (h : index < samples) :
    (withSamples g elements samples).node (g.nodes.size + index) = .object sampleShape [] := by
  rw [node_withSamples, List.getElem?_append_left (by simpa using h)]
  simp [h]

theorem node_samples : (withSamples g elements samples).node (g.nodes.size + samples) =
    .sequence (Array.range' g.nodes.size samples) := by
  simp [node_withSamples]

theorem node_tracker : (withSamples g elements samples).node (g.nodes.size + samples + 1) =
    .object shape
      [("elements", some elements), ("samples", some (g.nodes.size + samples))] := by
  rw [Nat.add_assoc, node_withSamples]
  simp

end Nodes

/-! ## The estimate of a tracker -/

section Visits

variable {o : EstimatorOptions} {w : Walk}

omit [Measured α]

/-- The tracker leads to its elements and, before them on the stack, to its samples. -/
theorem visit_tracker (pending : List NodeId) (ho : o.validate = .ok ()) (hw : w.SoundFor o)
    (helements : w.visited.contains elements = false)
    (hsamples : w.visited.contains (g.nodes.size + samples) = false)
    (hlt : elements < g.nodes.size) :
    ∃ w', w.visit o (withSamples g elements samples) (g.nodes.size + samples + 1) pending =
        .charged (o.shellBytes shape) ((g.nodes.size + samples) :: elements :: pending) w' ∧
      w'.visited = (w.visited.mark elements).mark (g.nodes.size + samples) ∧ w'.SoundFor o := by
  obtain ⟨v, hshell, hmarks, hsound⟩ := Walk.shell_spec hw ho shape
  refine ⟨{ v with visited := (w.visited.mark elements).mark (g.nodes.size + samples) },
    ?_, rfl, hsound⟩
  have hother : (v.visited.mark elements).contains (g.nodes.size + samples) = false := by
    rw [Visited.contains_mark, hmarks, hsamples]
    exact decide_eq_false (Nat.ne_of_gt (Nat.lt_of_lt_of_le hlt (Nat.le_add_right _ _)))
  simp only [Walk.visit, node_tracker, hshell, references_shape]
  rw [Walk.pushReferences_fresh rfl (hmarks ▸ helements), Walk.pushReferences_fresh rfl hother,
    Walk.pushReferences, hmarks]
  rfl

/-- The vector of samples leads to each of them, the last one on top. -/
theorem visit_samples (elements : Nat) (pending : List NodeId)
    (ho : samples ≤ o.samplingThreshold.toNat) (hw : w.SoundFor o)
    (hfresh : ∀ id ∈ List.range' g.nodes.size samples, w.visited.contains id = false) :
    ∃ w', w.visit o (withSamples g elements samples) (g.nodes.size + samples) pending =
        .charged (o.sequenceOverhead samples.toUInt64)
          ((List.range' g.nodes.size samples).reverse ++ pending) w' ∧
      (∀ id, w'.visited.contains id =
        (w.visited.contains id || decide (id ∈ List.range' g.nodes.size samples))) ∧
      w'.SoundFor o := by
  cases samples with
  | zero =>
    refine ⟨w, ?_, by simp, hw⟩
    simp only [Walk.visit, node_samples]
    simp [EstimatorOptions.sequenceOverhead, EstimatorOptions.align]
  | succ count =>
    obtain ⟨hstack, hmarks⟩ := Walk.pushAll_fresh List.nodup_range' hfresh pending
    refine ⟨_, ?_, hmarks, ?_⟩
    · have hfirst : (Array.range' g.nodes.size (count + 1))[0]? = some g.nodes.size := by simp
      have hnode : (withSamples g elements (count + 1)).node g.nodes.size =
          .object sampleShape [] := node_sample (Nat.succ_pos count)
      have hshort : o.isSampled (count + 1) = false := decide_eq_false (Nat.not_lt.mpr ho)
      simp only [Walk.visit, node_samples, hfirst, hnode, Walk.visitElements, Array.size_range',
        hshort]
      simp [hstack]
    · rw [Walk.SoundFor, Walk.layouts_pushAll]
      exact hw

/-- A walk that has marked no value before the tracker charges for the tracker and its samples
first. Then it goes on with the elements, and all that the tracker adds is marked. -/
theorem drain_tracker (ho : o.validate = .ok ()) (hw : w.SoundFor o)
    (hlt : elements < g.nodes.size) (hsamples : samples ≤ o.samplingThreshold.toNat)
    (hbefore : ∀ id < g.nodes.size + samples + 1, w.visited.contains id = false) :
    ∃ w' : Walk, w.drain o (withSamples g elements samples) (g.nodes.size + samples + 2)
          [g.nodes.size + samples + 1] 0 =
        w'.drain o (withSamples g elements samples) g.nodes.size [elements]
          (overhead o samples + 0) ∧
      (∀ id, w'.visited.contains id = (w.visited.contains id || decide (id = elements) ||
        decide (id = g.nodes.size + samples) ||
        decide (id ∈ List.range' g.nodes.size samples))) ∧
      w'.SoundFor o := by
  -- the tracker is on the stack, then its two vectors, then the samples and the elements
  obtain ⟨w₁, hvisit₁, hmarks₁, hsound₁⟩ := visit_tracker [] ho hw (hbefore elements (by omega))
    (hbefore (g.nodes.size + samples) (by omega)) hlt
  have hfresh : ∀ id ∈ List.range' g.nodes.size samples, w₁.visited.contains id = false := by
    intro id hid
    have hrange := List.mem_range'_1.mp hid
    have hnew : ¬ (id = elements ∨ id = g.nodes.size + samples) := by omega
    rw [hmarks₁, Visited.contains_mark, Visited.contains_mark, hbefore id (by omega)]
    simpa using hnew
  obtain ⟨w₂, hvisit₂, hmarks₂, hsound₂⟩ :=
    visit_samples elements [elements] hsamples hsound₁ hfresh
  have hids : ∀ id ∈ (List.range' g.nodes.size samples).reverse, ∃ references,
      (withSamples g elements samples).node id = .object sampleShape references := by
    intro id hid
    obtain ⟨index, hindex, rfl⟩ := List.mem_range'.mp (List.mem_reverse.mp hid)
    rw [Nat.one_mul]
    exact ⟨[], node_sample hindex⟩
  obtain ⟨w₃, hdrain, hmarks₃, hsound₃⟩ := Walk.drain_shells ho rfl hids g.nodes.size
    [elements] (0 + o.shellBytes shape + o.sequenceOverhead samples.toUInt64) hsound₂
  rw [List.length_reverse, List.length_range', Nat.add_comm samples] at hdrain
  have hsize : 0 + o.shellBytes shape + o.sequenceOverhead samples.toUInt64 +
      UInt64.ofNat samples * o.shellBytes sampleShape = overhead o samples + 0 := by
    rw [overhead, UInt64.zero_add, UInt64.add_zero]
  refine ⟨w₃, ?_, fun id => ?_, hsound₃⟩
  · rw [Walk.drain, hvisit₁]
    dsimp only
    rw [Walk.drain, hvisit₂]
    dsimp only
    rw [hdrain, hsize]
  · rw [hmarks₃, hmarks₂, hmarks₁, Visited.contains_mark, Visited.contains_mark]

end Visits

/-- The tracker, its vector of elements, that of its samples, and the samples, next to what is not in
the graph: everything after the elements, and their vector. -/
theorem marked_iff {n k id root : Nat} :
    (((n + k + 2 ≤ id ∨ id = n + k + 1) ∨ id = root) ∨ id = n + k) ∨ (n ≤ id ∧ id < n + k) ↔
      n ≤ id ∨ id = root := by
  omega

omit [Measured α] in
/-- A tracker is estimated as the vector of its elements on top of what it takes itself. -/
theorem estimate_withSamples {e : SizeEstimator} (h : e.Usable) (hg : Whole g.nodes)
    (hlt : elements < g.nodes.size) (hsamples : samples ≤ e.options.samplingThreshold.toNat) :
    (e.estimate (withSamples g elements samples) (g.nodes.size + samples + 1)).1 =
      (e.estimate g elements).1.map (overhead e.options samples + ·) := by
  have hroot : g.nodes.size + samples + 1 < (withSamples g elements samples).nodes.size := by
    rw [size_withSamples]
    exact Nat.lt_succ_self _
  have hmarks := e.contains_start hroot
  have hsound : (e.start (withSamples g elements samples)
      (g.nodes.size + samples + 1)).2.SoundFor e.options := SizeEstimator.start_sound h.sound
  rw [SizeEstimator.estimate_fst, SizeEstimator.estimate_fst, e.start_pending hroot,
    e.start_pending hlt, size_withSamples]
  generalize (e.start (withSamples g elements samples) (g.nodes.size + samples + 1)).2 = w
    at hmarks hsound ⊢
  rw [size_withSamples] at hmarks
  have hbefore : ∀ id < g.nodes.size + samples + 1, w.visited.contains id = false := by
    intro id hid
    have hin : ¬ (g.nodes.size + samples + 2 ≤ id ∨ id = g.nodes.size + samples + 1) := by omega
    rw [hmarks]
    simpa using hin
  obtain ⟨w', hdrain, hmarks', hsound'⟩ := drain_tracker h.valid hsound hlt hsamples hbefore
  -- from here on the walk is that over the graph of the elements alone
  have halike : (e.start g elements).2.Alike e.options w' := by
    refine ⟨fun id => ?_, SizeEstimator.start_sound h.sound, hsound'⟩
    rw [e.contains_start hlt, hmarks', hmarks, Bool.eq_iff_iff]
    simpa using marked_iff
  rw [hdrain]
  exact (halike.drain h.valid (.of_whole hg prefix_withSamples) g.nodes.size
    (by simpa using hlt) (overhead e.options samples) 0).1

/-! ## Full estimates -/

section FullEstimate

variable {e : SizeEstimator} {xs : List α} (h : e.Usable)
  (hread : ∀ x ∈ xs, (describe x).Readable 0)

include hread in
/-- The graph of a vector of elements has everything that they lead to. -/
theorem placed_whole :
    let v := Graph.place ⟨#[]⟩ (.sequence (xs.map describe))
    Whole v.2.nodes ∧ v.1 < v.2.nodes.size := by
  have hvector : (Value.sequence (xs.map describe)).Readable 0 := by
    refine .sequence fun v hv => ?_
    obtain ⟨x, hx, rfl⟩ := List.mem_map.mp hv
    exact hread x hx
  have hempty : Whole #[] := fun _ hn => absurd hn List.not_mem_nil
  obtain ⟨hgrown, hroot⟩ := Graph.place_grown (g := ⟨#[]⟩) hvector hempty (Nat.zero_le _)
  exact ⟨hgrown.whole, hroot⟩

include h hread in
/-- The vector of elements that can be read can be estimated. -/
theorem vectorBytes_ok : ∃ bytes, e.options.vectorBytes xs = .ok bytes :=
  SizeEstimator.estimate_ok (SizeEstimator.usable_ofOptions h.valid) (placed_whole hread).1 _

include h hread in
/-- A full estimate is that of the vector of the elements on top of what the tracker takes. -/
theorem fullEstimate_eq {t : Tracker α} (helements : t.elements.toList = xs)
    (hshared : t.shared = []) (hsamples : t.samples.length ≤ 2) :
    (t.fullEstimate e).1 =
      (e.options.vectorBytes xs).map (overhead e.options t.samples.length + ·) := by
  subst helements
  obtain ⟨hwhole, hroot⟩ := placed_whole hread
  have hfew := hsamples.trans (EstimatorOptions.two_le_samplingThreshold h.valid)
  have hempty : Graph.ofShared t.shared = ⟨#[]⟩ := by
    rw [hshared]
    rfl
  rw [fullEstimate, hempty, place_value]
  dsimp only
  rw [estimate_withSamples h hwhole hroot hfew]
  exact congrArg _ (SizeEstimator.estimate_congr (SizeEstimator.usable_ofOptions h.valid) h rfl _
    _)

end FullEstimate

end Tracker

end ShuffleBuffer.Estimate
