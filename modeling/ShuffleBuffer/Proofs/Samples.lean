import ShuffleBuffer.Proofs.Draws
import ShuffleBuffer.Proofs.Overhead

/-! # What is extrapolated from a sample

Elements that have nothing in common do not get into each other's way: what one drawn element
reaches is still unmarked after all others have been walked. So a sample comes to the sum of what
its elements are estimated on their own, in whatever order they were drawn. -/

namespace ShuffleBuffer.Estimate

variable {o : EstimatorOptions} {g : Graph} {elements : Array NodeId}

/-- The elements reach nothing in common; all of it can be read and none of it has to be sampled. -/
structure Graph.Apart (g : Graph) (o : EstimatorOptions) (elements : Array NodeId) : Prop where
  plain : ∀ element ∈ elements, g.Plain o element
  disjoint : ∀ i j (hi : i < elements.size) (hj : j < elements.size), i ≠ j →
    Disjoint (g.reachable elements[i]) (g.reachable elements[j])

/-- The estimate of the element at an index on its own. -/
noncomputable def Graph.alone (g : Graph) (o : EstimatorOptions) (elements : Array NodeId)
    (i : Nat) : UInt64 :=
  UInt64.ofNat (g.footprint o (elements.getD i 0))

/-- Nothing that the elements reach is charged. -/
def Visited.Untouched (v : Visited) (g : Graph) (elements : Array NodeId) : Prop :=
  ∀ element ∈ elements, ∀ id ∈ g.reachable element, v.contains id = false

/-- Sums of words wrap like the words themselves. -/
theorem sum_words (words : List UInt64) :
    words.sum = UInt64.ofNat (words.map UInt64.toNat).sum := by
  induction words with
  | nil => rfl
  | cons word words ih =>
    rw [List.sum_cons, ih, List.map_cons, List.sum_cons, UInt64.ofNat_add, UInt64.ofNat_toNat]

namespace Walk

variable {w : Walk} {ids : List NodeId} {fuel : Nat}

/-- What is extrapolated: the elements drawn from a sequence, walked one after the other. -/
def drainSample (w : Walk) (o : EstimatorOptions) (g : Graph) (fuel : Nat)
    (elements : Array NodeId) : Except Fault UInt64 × Walk :=
  drainEach (fun pending w => drain o g fuel pending 0 w)
    ((o.drawn elements.size).filterMap (elements[·]?)) 0 w

/-- Values that reach nothing in common and nothing marked are charged as on their own. -/
theorem drainEach_regions (h : o.validate = .ok ()) (hplain : ∀ id ∈ ids, g.Plain o id)
    (hdisjoint : ids.Pairwise fun a b => Disjoint (g.reachable a) (g.reachable b))
    (hw : w.SoundFor o) (hfresh : ∀ id ∈ ids, g.reachable id ⊆ w.unmarked)
    (hfuel : w.unmarked.card ≤ fuel) (sum : UInt64) :
    ∃ w', drainEach (fun pending w => drain o g fuel pending 0 w) ids sum w =
      (.ok (sum + (ids.map fun id => UInt64.ofNat (g.footprint o id)).sum), w') := by
  induction ids generalizing w sum with
  | nil => exact ⟨w, by rw [List.map_nil, List.sum_nil, UInt64.add_zero, drainEach]⟩
  | cons id ids ih =>
    obtain ⟨hid, hplain⟩ := List.forall_mem_cons.mp hplain
    obtain ⟨hnew, hfresh⟩ := List.forall_mem_cons.mp hfresh
    obtain ⟨hfar, hdisjoint⟩ := List.pairwise_cons.mp hdisjoint
    obtain ⟨w', hdrain, hsound, hmarks⟩ :=
      drain_region h hw hid (Visited.closedFrom_of_unmarked hnew) hfuel
    rw [Finset.inter_eq_left.mpr hnew] at hdrain
    -- what the others reach is none of what was marked now
    have hstill : ∀ other ∈ ids, g.reachable other ⊆ w'.unmarked := by
      intro other hother late hlate
      refine (hmarks late).mpr ⟨hfresh other hother hlate, fun hway => ?_⟩
      have hreached := Graph.mem_reachable.mpr ⟨(Graph.mem_reachable.mp hlate).1, hway⟩
      exact Finset.disjoint_left.mp (hfar other hother) hreached hlate
    have hfewer : w'.unmarked.card ≤ fuel :=
      (Finset.card_le_card fun late hlate => ((hmarks late).mp hlate).1).trans hfuel
    obtain ⟨w'', hrest⟩ := ih hplain hdisjoint hsound hstill hfewer
      (sum + UInt64.ofNat (g.footprint o id))
    refine ⟨w'', ?_⟩
    rw [drainEach]
    dsimp only
    rw [hdrain]
    dsimp only
    rw [← Graph.footprint, hrest, List.map_cons, List.sum_cons, UInt64.add_assoc]

/-- A sample is worth what the drawn elements are on their own. -/
theorem drainSample_eq (h : o.validate = .ok ())
    (hlong : o.samplingThreshold.toNat < elements.size) (hapart : g.Apart o elements)
    (hw : w.SoundFor o) (huntouched : w.visited.Untouched g elements)
    (hfuel : w.unmarked.card ≤ fuel) :
    ∃ w', w.drainSample o g fuel elements =
      (.ok ((o.drawn elements.size).map (g.alone o elements)).sum, w') := by
  have hdrawn := EstimatorOptions.drawn_distinct h hlong
  have hids : (o.drawn elements.size).filterMap (elements[·]?) =
      (o.drawn elements.size).map (elements.getD · 0) := by
    rw [← List.filterMap_eq_map]
    refine List.filterMap_congr fun i hi => ?_
    rw [Array.getElem?_eq_getElem (hdrawn.below i hi), Function.comp_apply,
      Array.getElem_eq_getD 0]
  have hmem : ∀ id ∈ (o.drawn elements.size).map (elements.getD · 0), id ∈ elements := by
    intro id hid
    obtain ⟨i, hi, rfl⟩ := List.mem_map.mp hid
    rw [← Array.getElem_eq_getD (h := hdrawn.below i hi)]
    exact Array.getElem_mem _
  have hdisjoint : ((o.drawn elements.size).map (elements.getD · 0)).Pairwise
      fun a b => Disjoint (g.reachable a) (g.reachable b) := by
    refine List.pairwise_map.mpr (List.Pairwise.imp_of_mem (fun {i j} hi hj hne => ?_) hdrawn.nodup)
    rw [← Array.getElem_eq_getD (h := hdrawn.below i hi),
      ← Array.getElem_eq_getD (h := hdrawn.below j hj)]
    exact hapart.disjoint i j _ _ hne
  have hfresh : ∀ id ∈ (o.drawn elements.size).map (elements.getD · 0),
      g.reachable id ⊆ w.unmarked := fun id hid late hlate =>
    Visited.mem_unmarked.mpr (huntouched id (hmem id hid) late hlate)
  obtain ⟨w', hdrain⟩ := drainEach_regions h (fun id hid => hapart.plain id (hmem id hid)) hdisjoint
    hw hfresh hfuel 0
  refine ⟨w', ?_⟩
  rw [drainSample, hids, hdrain, UInt64.zero_add, List.map_map]
  rfl

/-- A long sequence of elements that are not scalars is sampled. -/
theorem visit_long {root : NodeId} (hnode : g.node root = .sequence elements)
    (hother : g.scalarElements? elements = none)
    (hlong : o.samplingThreshold.toNat < elements.size) (pending : List NodeId) :
    w.visit o g root pending = .sampled (o.sequenceOverhead elements.size.toUInt64)
      elements.size.toUInt64 ((o.drawn elements.size).filterMap (elements[·]?)) w := by
  have hsampled : o.isSampled elements.size = true := decide_eq_true hlong
  have hfirst := Array.getElem?_eq_getElem (Nat.zero_lt_of_lt hlong)
  simp only [visit, hnode, hfirst]
  split
  · next type hscalar =>
    rw [Graph.scalarElements?, hfirst, Option.map_some, hscalar] at hother
    cases hother
  · rw [visitElements, if_pos hsampled]

/-- Wherever a walk comes to a long sequence, it goes on with what the sample is scaled up to. -/
theorem drain_long {root : NodeId} (hnode : g.node root = .sequence elements)
    (hother : g.scalarElements? elements = none)
    (hlong : o.samplingThreshold.toNat < elements.size) {total : UInt64} {w' : Walk}
    (hsample : w.drainSample o g fuel elements = (.ok total, w')) (pending : List NodeId)
    (size : UInt64) :
    drain o g (fuel + 1) (root :: pending) size w = drain o g fuel pending
      (size + o.sequenceOverhead elements.size.toUInt64 +
        o.extrapolate elements.size.toUInt64 total) w' := by
  rw [drainSample] at hsample
  rw [drain, visit_long hnode hother hlong]
  dsimp only
  rw [hsample]

end Walk

namespace SizeEstimator

variable {e : SizeEstimator} {root : NodeId} {visited : Visited}

/-- A long sequence is none of what its elements reach, so its own mark is none of theirs. -/
theorem untouched_mark (hnode : g.node root = .sequence elements)
    (hother : g.scalarElements? elements = none)
    (hlong : o.samplingThreshold.toNat < elements.size) (hapart : g.Apart o elements)
    (h : visited.Untouched g elements) : (visited.mark root).Untouched g elements := by
  intro element helement id hid
  have hne : id ≠ root := by
    rintro rfl
    refine (hapart.plain element helement).short id (Graph.mem_reachable.mp hid).2 ?_
    rw [Graph.Oversized, hnode]
    exact ⟨hother, hlong⟩
  rw [Visited.contains_mark, h element helement id hid, decide_eq_false hne]
  rfl

theorem estimate_alone (he : e.Usable) (hapart : g.Apart e.options elements) {i : Nat}
    (hi : i < elements.size) :
    (e.estimate g elements[i]).1 = .ok (g.alone e.options elements i) := by
  have hplain := hapart.plain elements[i] (Array.getElem_mem hi)
  rw [Graph.alone, ← Array.getElem_eq_getD (h := hi)]
  exact estimate_of_readable he.valid he.sound hplain.short hplain.readable

/-- The estimate of a long sequence by itself. -/
theorem estimateWith_long (he : e.Usable) (hnode : g.node root = .sequence elements)
    (hother : g.scalarElements? elements = none)
    (hlong : e.options.samplingThreshold.toNat < elements.size)
    (hapart : g.Apart e.options elements) (hroot : visited.contains root = false)
    (huntouched : visited.Untouched g elements) :
    (e.estimateWith g root visited).1 = .ok (e.options.sequenceOverhead elements.size.toUInt64 +
      e.options.extrapolate elements.size.toUInt64
        ((e.options.drawn elements.size).map (g.alone e.options elements)).sum) := by
  obtain ⟨fuel, hfuel⟩ := Nat.exists_eq_succ_of_ne_zero
    (Nat.ne_zero_of_lt (Visited.lt_of_not_contains hroot))
  have hcard : (visited.mark root).unmarked.card ≤ fuel := by
    have hall := visited.card_unmarked_le
    rw [Visited.unmarked_mark, Finset.card_erase_of_mem (Visited.mem_unmarked.mpr hroot)]
    omega
  obtain ⟨w', hsample⟩ := Walk.drainSample_eq (w := ⟨visited.mark root, e.layouts⟩) he.valid hlong
    hapart he.sound (untouched_mark hnode hother hlong hapart huntouched) hcard
  have hdrain := Walk.drain_long hnode hother hlong hsample [] 0
  rw [estimateWith, Walk.push_fresh hroot, hfuel]
  dsimp only
  rw [hdrain, UInt64.zero_add]
  cases fuel <;> rfl

/-- Of a sequence that is longer than the threshold, different elements are drawn, as many as the
options say. If the elements reach nothing in common and nothing that is charged, what is scaled up
is the sum of their estimates on their own, wherever a walk comes to the sequence; if these are all
the same, it does not depend on what was drawn. -/
theorem estimateWith_sampled (he : e.Usable) (hnode : g.node root = .sequence elements)
    (hother : g.scalarElements? elements = none)
    (hlong : e.options.samplingThreshold.toNat < elements.size)
    (hapart : g.Apart e.options elements) :
    let o := e.options
    let drawn := o.drawn elements.size
    let length := elements.size.toUInt64
    Sampling.Distinct elements.size o.sampleCount.toNat drawn ∧
      ∃ alone : Nat → UInt64,
        (∀ i (hi : i < elements.size), (e.estimate g elements[i]).1 = .ok (alone i)) ∧
        let total := (drawn.map alone).sum
        total = UInt64.ofNat (drawn.map fun i => (alone i).toNat).sum ∧
        (∀ (w : Walk) (fuel : Nat), w.SoundFor o → w.visited.Untouched g elements →
          w.unmarked.card ≤ fuel → ∃ w', w.drainSample o g fuel elements = (.ok total, w') ∧
            ∀ pending size, Walk.drain o g (fuel + 1) (root :: pending) size w =
              Walk.drain o g fuel pending
                (size + o.sequenceOverhead length + o.extrapolate length total) w') ∧
        (∀ visited : Visited, visited.contains root = false → visited.Untouched g elements →
          (e.estimateWith g root visited).1 = .ok (o.sequenceOverhead length +
            (length.toFloat / o.sampleCount.toFloat * total.toFloat).toUInt64)) ∧
        ∀ c, (∀ i < elements.size, alone i = c) → total = o.sampleCount * c := by
  intro o drawn length
  have hdrawn : Sampling.Distinct elements.size o.sampleCount.toNat drawn :=
    EstimatorOptions.drawn_distinct he.valid hlong
  have hwords : (drawn.map (g.alone o elements)).sum =
      UInt64.ofNat (drawn.map fun i => (g.alone o elements i).toNat).sum := by
    rw [sum_words, List.map_map]
    rfl
  refine ⟨hdrawn, g.alone o elements, fun i hi => estimate_alone he hapart hi, hwords,
    fun w fuel hw huntouched hfuel => ?_, fun visited hroot huntouched => ?_, fun c hsame => ?_⟩
  · obtain ⟨w', hsample⟩ := Walk.drainSample_eq he.valid hlong hapart hw huntouched hfuel
    exact ⟨w', hsample, Walk.drain_long hnode hother hlong hsample⟩
  · exact estimateWith_long he hnode hother hlong hapart hroot huntouched
  · have hconstant : drawn.map (fun i => (g.alone o elements i).toNat) =
        List.replicate o.sampleCount.toNat c.toNat := by
      rw [← hdrawn.length, ← List.map_const']
      exact List.map_congr_left fun i hi => congrArg UInt64.toNat (hsame i (hdrawn.below i hi))
    rw [hwords, hconstant, List.sum_replicate_nat, UInt64.ofNat_mul, UInt64.ofNat_toNat,
      UInt64.ofNat_toNat]

/-- A sequence of four texts. -/
def texts : Graph :=
  ⟨#[.sequence #[1, 2, 3, 4], .scalars .u8 5, .scalars .u8 9, .scalars .u8 17, .scalars .u8 40]⟩

/-- The last two texts are drawn, in this order. -/
theorem estimateWith_sampled_texts :
    let o : EstimatorOptions := { samplingThreshold := 3, sampleCount := 2, seed := 0 }
    let e := ofOptions o
    e.Usable ∧ texts.node 0 = .sequence #[1, 2, 3, 4] ∧
      texts.scalarElements? #[1, 2, 3, 4] = none ∧ o.samplingThreshold.toNat < 4 ∧
      texts.Apart o #[1, 2, 3, 4] ∧ (Visited.none texts).contains 0 = false ∧
      (Visited.none texts).Untouched texts #[1, 2, 3, 4] ∧ o.drawn 4 = [3, 2] ∧
      (e.estimate texts 4).1 = .ok 64 ∧ (e.estimate texts 3).1 = .ok 48 ∧
      (e.estimateWith texts 0 (.none texts)).1 = .ok (56 +
        ((4 : UInt64).toFloat / (2 : UInt64).toFloat * (112 : UInt64).toFloat).toUInt64) := by
  intro o e
  have he : e.Usable := usable_ofOptions (by decide)
  have htext : ∀ element ∈ #[1, 2, 3, 4], ∃ count, texts.node element = .scalars .u8 count := by
    intro element helement
    have hcases : element = 1 ∨ element = 2 ∨ element = 3 ∨ element = 4 := by simpa using helement
    rcases hcases with rfl | rfl | rfl | rfl
    · exact ⟨5, rfl⟩
    · exact ⟨9, rfl⟩
    · exact ⟨17, rfl⟩
    · exact ⟨40, rfl⟩
  have hleaf {element id : NodeId} (helement : element ∈ #[1, 2, 3, 4])
      (hway : texts.Reaches element id) : id = element := by
    obtain ⟨count, hnode⟩ := htext element helement
    have hnone : texts.targets element = [] := by simp [Graph.targets, hnode]
    rcases hway.cases_head with rfl | ⟨target, hstep, -⟩
    · rfl
    · rw [hnone] at hstep
      cases hstep
  have hapart : texts.Apart o #[1, 2, 3, 4] := by
    refine ⟨fun element helement => ⟨fun id hway => ?_, fun id hway => ?_⟩, fun i j hi hj hne => ?_⟩
    · obtain rfl := hleaf helement hway
      obtain ⟨count, hnode⟩ := htext id helement
      simp [Graph.Readable, hnode]
    · obtain rfl := hleaf helement hway
      obtain ⟨count, hnode⟩ := htext id helement
      simp [Graph.Oversized, hnode]
    · refine Finset.disjoint_left.mpr fun id hleft hright => hne ?_
      have hsame := (hleaf (Array.getElem_mem hi) (Graph.mem_reachable.mp hleft).2).symm.trans
        (hleaf (Array.getElem_mem hj) (Graph.mem_reachable.mp hright).2)
      have hall : ∀ i j : Fin 4, #[1, 2, 3, 4][i] = #[1, 2, 3, 4][j] → i = j := by decide
      exact congrArg Fin.val (hall ⟨i, hi⟩ ⟨j, hj⟩ hsame)
  have huntouched : (Visited.none texts).Untouched texts #[1, 2, 3, 4] := by
    intro element _ id hid
    rw [Visited.contains_none]
    exact decide_eq_false (Nat.not_le.mpr (Graph.mem_reachable.mp hid).1)
  have hdrawn : o.drawn 4 = [3, 2] := by decide +kernel
  have hlast : (e.estimate texts 4).1 = .ok 64 := by decide +kernel
  have hthird : (e.estimate texts 3).1 = .ok 48 := by decide +kernel
  have hnode : texts.node 0 = .sequence #[1, 2, 3, 4] := rfl
  obtain ⟨-, alone, halone, -, -, hestimate, -⟩ :=
    estimateWith_sampled he hnode rfl (by decide) hapart
  refine ⟨he, hnode, rfl, by decide, hapart, by decide, huntouched, hdrawn, hlast, hthird, ?_⟩
  have hsum : ((o.drawn 4).map alone).sum = 112 := by
    rw [hdrawn, List.map_cons, List.map_singleton,
      Except.ok.inj ((halone 3 (by decide)).symm.trans hlast),
      Except.ok.inj ((halone 2 (by decide)).symm.trans hthird)]
    rfl
  have hoverhead : o.sequenceOverhead 4 = 56 := by decide
  rw [← hoverhead, ← hsum]
  exact hestimate (.none texts) (by decide) huntouched

end SizeEstimator

end ShuffleBuffer.Estimate
