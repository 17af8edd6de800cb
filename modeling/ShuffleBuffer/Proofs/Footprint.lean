import Mathlib
import ShuffleBuffer.Proofs.Walk

/-! # Footprints

Where no reachable sequence is oversized, an estimate is exact: it is the sum of the costs of
everything the root reaches, each identity once, in whatever order the walk meets them. If one of
them cannot be read, the estimate is a fault and never a sum. -/

namespace ShuffleBuffer.Estimate

variable {o : EstimatorOptions} {g : Graph}

namespace Graph

open Classical in
/-- The values of a graph that can be reached from one of them, that one included. -/
noncomputable def reachable (g : Graph) (root : NodeId) : Finset NodeId :=
  (Finset.range g.nodes.size).filter (g.Reaches root)

/-- What everything reachable costs together, each value once. -/
noncomputable def footprint (g : Graph) (o : EstimatorOptions) (root : NodeId) : Nat :=
  ∑ id ∈ g.reachable root, g.cost o id

theorem mem_reachable {root id : NodeId} :
    id ∈ g.reachable root ↔ id < g.nodes.size ∧ g.Reaches root id := by
  simp [reachable]

theorem footprint_le (g : Graph) (o : EstimatorOptions) (root : NodeId) :
    g.footprint o root ≤ ∑ id ∈ Finset.range g.nodes.size, g.cost o id := by
  apply Finset.sum_le_sum_of_subset
  intro id hid
  exact Finset.mem_range.mpr (mem_reachable.mp hid).1

theorem node_of_ge {id : NodeId} (h : g.nodes.size ≤ id) : g.node id = .metadata := by
  simp [node, Array.getD, Nat.not_lt.mpr h]

theorem targets_of_ge {id : NodeId} (h : g.nodes.size ≤ id) : g.targets id = [] := by
  simp [targets, node_of_ge h]

theorem readable_of_ge {id : NodeId} (h : g.nodes.size ≤ id) : g.Readable id := by
  simp [Readable, node_of_ge h]

theorem cost_of_ge {id : NodeId} (h : g.nodes.size ≤ id) : g.cost o id = 0 := by
  simp [cost, node_of_ge h]

/-- Everything that a root reaches can be read, and none of it has to be sampled. -/
structure Plain (g : Graph) (o : EstimatorOptions) (root : NodeId) : Prop where
  readable : ∀ id, g.Reaches root id → g.Readable id
  short : ∀ id, g.Reaches root id → ¬ g.Oversized o id

end Graph

namespace Visited

variable {v : Visited} {root : NodeId}

/-- What a root reaches and is marked leads to nothing that is not. -/
def ClosedFrom (v : Visited) (g : Graph) (root : NodeId) : Prop :=
  ∀ id, g.Reaches root id → id ∉ v.unmarked → ∀ target ∈ g.targets id, target ∉ v.unmarked

/-- Marks beyond the graph do no harm: nothing is reached from there. -/
theorem closedFrom_of_unmarked (h : g.reachable root ⊆ v.unmarked) : v.ClosedFrom g root := by
  intro id hway hmarked target htarget
  have hge : g.nodes.size ≤ id := by
    by_contra hlt
    exact hmarked (h (Graph.mem_reachable.mpr ⟨Nat.not_le.mp hlt, hway⟩))
  rw [g.targets_of_ge hge] at htarget
  cases htarget

theorem reachable_subset_none (g : Graph) (root : NodeId) :
    g.reachable root ⊆ (Visited.none g).unmarked := by
  rw [unmarked_none]
  exact fun id hid => Finset.mem_range.mpr (Graph.mem_reachable.mp hid).1

end Visited

namespace Walk

/-- All members of a value can be read and what it leads to is marked. -/
def Explored (g : Graph) (w : Walk) (id : NodeId) : Prop :=
  g.Readable id ∧ ∀ target ∈ g.targets id, target ∉ w.unmarked

/-- What a walk that meets no oversized sequence comes to: it charges what lay on the stack and
what it has marked since, all of which are explored; or it stops at a value that cannot be read. -/
inductive Drains (g : Graph) (o : EstimatorOptions) (pending : List NodeId) (size : UInt64)
    (w : Walk) : Except Fault UInt64 × Walk → Prop
  | emptied {w' : Walk} : w'.unmarked ⊆ w.unmarked →
      (∀ id ∈ pending, w'.Explored g id) →
      (∀ id ∈ w.unmarked \ w'.unmarked,
        w'.Explored g id ∧ ∃ root ∈ pending, g.Reaches root id) →
      Drains g o pending size w (.ok (size + UInt64.ofNat
        ((pending.map (g.cost o)).sum + ∑ id ∈ w.unmarked \ w'.unmarked, g.cost o id)), w')
  | stopped {field shape : String} {w' : Walk} :
      (∃ root ∈ pending, ∃ id, g.Reaches root id ∧ ¬ g.Readable id) →
      Drains g o pending size w (.error (.unreadableField field shape), w')

variable {w w' : Walk} {id : NodeId} {pending pending' : List NodeId} {size bytes : UInt64}

theorem Drains.nil (w : Walk) : Drains g o [] size w (.ok size, w) := by
  have h : Drains g o [] size w _ := .emptied (Finset.Subset.refl w.unmarked) (by simp) (by simp)
  simpa using h

/-- What lies on the stack after a visit was reachable from the stack before it. -/
theorem Pushed.reaches (h : Pushed (g.targets id) w pending w' pending') {root : NodeId}
    (hroot : root ∈ pending') : ∃ origin ∈ id :: pending, g.Reaches origin root := by
  obtain ⟨⟨fresh, rfl, -, hmem, -⟩, -, -⟩ := h
  rcases List.mem_append.mp hroot with hfresh | hold
  · exact ⟨id, List.mem_cons_self, Relation.ReflTransGen.single (hmem root hfresh)⟩
  · exact ⟨root, List.mem_cons_of_mem _ hold, Relation.ReflTransGen.refl⟩

/-- What was marked on the way lies on the stack, so each of these is charged there and not once
more among those that are marked later. -/
theorem Pushed.sum_charges {M : Type*} [AddCommMonoid M] {ids : List NodeId} {w'' : Walk}
    (h : Pushed ids w pending w' pending') (hless : w''.unmarked ⊆ w'.unmarked)
    (f : NodeId → M) : (pending'.map f).sum + ∑ id ∈ w'.unmarked \ w''.unmarked, f id =
      (pending.map f).sum + ∑ id ∈ w.unmarked \ w''.unmarked, f id := by
  obtain ⟨⟨fresh, rfl, hnodup, -, hfresh⟩, -, hshrinks⟩ := h
  have hdisjoint : Disjoint (w.unmarked \ w'.unmarked) (w'.unmarked \ w''.unmarked) :=
    Finset.disjoint_of_subset_right Finset.sdiff_subset Finset.sdiff_disjoint
  rw [List.map_append, List.sum_append, ← List.sum_toFinset f hnodup, hfresh, add_right_comm,
    ← Finset.sum_union hdisjoint, Finset.sdiff_union_sdiff_cancel hshrinks hless, add_comm]

/-- A charge in front of a walk. -/
theorem Drains.cons {result : Except Fault UInt64 × Walk} (hread : g.Readable id)
    (hpushed : Pushed (g.targets id) w pending w' pending')
    (hrest : Drains g o pending' (size + UInt64.ofNat (g.cost o id)) w' result) :
    Drains g o (id :: pending) size w result := by
  cases hrest with
  | stopped hstop =>
    obtain ⟨root, hroot, bad, hbad, hunreadable⟩ := hstop
    obtain ⟨origin, horigin, hway⟩ := hpushed.reaches hroot
    exact .stopped ⟨origin, horigin, bad, hway.trans hbad, hunreadable⟩
  | @emptied w'' hless hstack hsince =>
    rw [hpushed.sum_charges hless, UInt64.add_assoc, ← UInt64.ofNat_add, ← Nat.add_assoc]
    refine .emptied (hless.trans hpushed.shrinks) ?_ ?_
    · intro root hroot
      rcases List.mem_cons.mp hroot with rfl | hold
      · exact ⟨hread, fun target htarget hlate => hpushed.marked target htarget (hless hlate)⟩
      · obtain ⟨⟨fresh, rfl, -, -, -⟩, -, -⟩ := hpushed
        exact hstack root (List.mem_append_right _ hold)
    · intro late hlate
      obtain ⟨hin, hout⟩ := Finset.mem_sdiff.mp hlate
      by_cases hthen : late ∈ w'.unmarked
      · obtain ⟨hexplored, root, hroot, hway⟩ := hsince late (Finset.mem_sdiff.mpr ⟨hthen, hout⟩)
        obtain ⟨origin, horigin, hfirst⟩ := hpushed.reaches hroot
        exact ⟨hexplored, origin, horigin, hfirst.trans hway⟩
      · have hstacked := hpushed.mem_of_marked hin hthen
        exact ⟨hstack late hstacked, hpushed.reaches hstacked⟩

/-- With fuel for the stack and all unmarked values, a walk that meets no oversized sequence
charges what it should. -/
theorem drain_spec (h : o.validate = .ok ()) (fuel : Nat) (pending : List NodeId)
    (size : UInt64) (w : Walk) (hw : w.SoundFor o)
    (hfuel : pending.length + w.unmarked.card ≤ fuel)
    (hshort : ∀ root ∈ pending, ∀ id, g.Reaches root id → ¬ g.Oversized o id) :
    Drains g o pending size w (drain o g fuel pending size w) := by
  induction fuel generalizing pending size w with
  | zero =>
    cases pending with
    | nil => exact Drains.nil w
    | cons id pending => simp at hfuel
  | succ fuel ih =>
    cases pending with
    | nil => exact Drains.nil w
    | cons id pending =>
      have hvisit := visit_spec hw h g id pending
      rw [drain]
      generalize w.visit o g id pending = outcome at hvisit
      have hself : ¬ g.Oversized o id :=
        hshort id List.mem_cons_self id Relation.ReflTransGen.refl
      cases hvisit with
      | @charged bytes pending' w' hread hpushed hsound hbytes =>
        dsimp only
        rw [hbytes hself]
        refine Drains.cons hread hpushed (ih _ _ _ hsound ?_ ?_)
        · rw [hpushed.balance]
          simp only [List.length_cons] at hfuel
          omega
        · intro root hroot late hlate
          obtain ⟨origin, horigin, hway⟩ := hpushed.reaches hroot
          exact hshort origin horigin late (hway.trans hlate)
      | sampled hlong => exact absurd hlong hself
      | failed hunreadable _ _ =>
        exact .stopped ⟨id, List.mem_cons_self, id, Relation.ReflTransGen.refl, hunreadable⟩

/-! ## What a walk from one root adds -/

section Ended

variable {root : NodeId} {w₁ : Walk} (hpushed : Pushed [root] w [] w₁ pending)
  (hclosed : w.visited.ClosedFrom g root) (hless : w'.unmarked ⊆ w₁.unmarked)
  (hstack : ∀ id ∈ pending, w'.Explored g id)
  (hsince : ∀ id ∈ w₁.unmarked \ w'.unmarked,
    w'.Explored g id ∧ ∃ origin ∈ pending, g.Reaches origin id)

include hpushed hstack hsince

theorem new_of_ended {id : NodeId} (hin : id ∈ w.unmarked) (hout : id ∉ w'.unmarked) :
    w'.Explored g id ∧ g.Reaches root id := by
  by_cases hlate : id ∈ w₁.unmarked
  · obtain ⟨hexplored, origin, horigin, hway⟩ := hsince id (Finset.mem_sdiff.mpr ⟨hlate, hout⟩)
    obtain rfl := List.mem_singleton.mp (hpushed.source horigin)
    exact ⟨hexplored, hway⟩
  · have hstacked := hpushed.mem_of_marked hin hlate
    obtain rfl := List.mem_singleton.mp (hpushed.source hstacked)
    exact ⟨hstack id hstacked, .refl⟩

include hclosed hless

/-- Where the marks were closed, all that the root reaches is marked in the end. -/
theorem marked_of_reaches {id : NodeId} (hway : g.Reaches root id) : id ∉ w'.unmarked := by
  induction hway with
  | refl => exact fun hlate => hpushed.marked root (by simp) (hless hlate)
  | @tail mid id hway hstep ih =>
    by_cases hlate : mid ∈ w.unmarked
    · exact (new_of_ended hpushed hstack hsince hlate ih).1.2 id hstep
    · exact fun hin => hclosed mid hway hlate id hstep (hpushed.shrinks (hless hin))

/-- A walk that ended on an empty stack has charged what the root reaches and was not marked. -/
theorem sum_of_ended (o : EstimatorOptions) :
    (pending.map (g.cost o)).sum + ∑ id ∈ w₁.unmarked \ w'.unmarked, g.cost o id =
      ∑ id ∈ g.reachable root ∩ w.unmarked, g.cost o id := by
  rw [hpushed.sum_charges hless, List.map_nil, List.sum_nil, Nat.zero_add]
  refine (Finset.sum_subset (fun id hid => ?_) fun id hid hother => ?_).symm
  · obtain ⟨hreached, hin⟩ := Finset.mem_inter.mp hid
    refine Finset.mem_sdiff.mpr ⟨hin, ?_⟩
    exact marked_of_reaches hpushed hclosed hless hstack hsince (Graph.mem_reachable.mp hreached).2
  · obtain ⟨hin, hout⟩ := Finset.mem_sdiff.mp hid
    have hway := (new_of_ended hpushed hstack hsince hin hout).2
    refine Graph.cost_of_ge (Nat.not_lt.mp fun hrange => hother ?_)
    exact Finset.mem_inter.mpr ⟨Graph.mem_reachable.mpr ⟨hrange, hway⟩, hin⟩

end Ended

/-- A walk from a root charges and marks what the root reaches and was not marked. -/
theorem drain_region {root : NodeId} (h : o.validate = .ok ()) (hw : w.SoundFor o)
    (hplain : g.Plain o root) (hclosed : w.visited.ClosedFrom g root) {fuel : Nat}
    (hfuel : w.unmarked.card ≤ fuel) :
    ∃ w', drain o g fuel (w.push [] root).1 0 (w.push [] root).2 =
        (.ok (UInt64.ofNat (∑ id ∈ g.reachable root ∩ w.unmarked, g.cost o id)), w') ∧
      w'.SoundFor o ∧ ∀ id, id ∈ w'.unmarked ↔ id ∈ w.unmarked ∧ ¬ g.Reaches root id := by
  have hpushed := push_pushed w [] root
  have hpush := push_extends hw [] root
  have hlater := drain_extends (g := g) h fuel (w.push [] root).1 0 _ hpush.sound
  have hdrains := drain_spec (g := g) h fuel (w.push [] root).1 0 _ hpush.sound
    (by rw [hpushed.balance]; simpa using hfuel) fun origin horigin id hway =>
      hplain.short id (List.mem_singleton.mp (hpushed.source horigin) ▸ hway)
  generalize drain o g fuel (w.push [] root).1 0 (w.push [] root).2 = result at hlater hdrains
  cases hdrains with
  | stopped hstop =>
    obtain ⟨origin, horigin, bad, hway, hbad⟩ := hstop
    obtain rfl := List.mem_singleton.mp (hpushed.source horigin)
    exact absurd (hplain.readable bad hway) hbad
  | @emptied w' hless hstack hsince =>
    rw [sum_of_ended hpushed hclosed hless hstack hsince, UInt64.zero_add]
    refine ⟨w', rfl, hlater.sound, fun id => ⟨fun hid => ?_, fun ⟨hin, hfar⟩ => ?_⟩⟩
    · refine ⟨hpushed.shrinks (hless hid), fun hway => ?_⟩
      exact marked_of_reaches hpushed hclosed hless hstack hsince hway hid
    · by_contra hout
      exact hfar (new_of_ended hpushed hstack hsince hin hout).2

end Walk

namespace SizeEstimator

/-- The cache of an estimator holds what earlier estimates have left there. -/
def Reachable (e : SizeEstimator) : Prop :=
  LayoutCache.Reachable e.options.objectHeader e.options.pointerSize e.layouts

/-- The cache of an estimator holds nothing but what its options make of shapes. -/
def Sound (e : SizeEstimator) : Prop :=
  e.layouts.Sound e.options.objectHeader e.options.pointerSize

/-- The first step of an estimate: the root on an empty stack. -/
def start (e : SizeEstimator) (g : Graph) (root : NodeId) : List NodeId × Walk :=
  Walk.push ⟨.none g, e.layouts⟩ [] root

variable {e : SizeEstimator} {root : NodeId}

theorem estimate_fst (e : SizeEstimator) (g : Graph) (root : NodeId) :
    (e.estimate g root).1 = ((e.start g root).2.drain e.options g g.nodes.size
      (e.start g root).1 0).1 := by
  simp [estimate, estimateWith, start, Visited.none]

theorem Reachable.sound (h : e.Reachable) : e.Sound := LayoutCache.Reachable.sound h

theorem start_sound (hsound : e.Sound) : (e.start g root).2.SoundFor e.options := by
  rw [Walk.SoundFor, start, Walk.layouts_push]
  exact hsound

theorem start_pushed (e : SizeEstimator) (g : Graph) (root : NodeId) :
    Walk.Pushed [root] ⟨.none g, e.layouts⟩ [] (e.start g root).2 (e.start g root).1 :=
  Walk.push_pushed _ [] root

theorem eq_of_mem_start {id : NodeId} (h : id ∈ (e.start g root).1) : id = root :=
  List.mem_singleton.mp ((start_pushed e g root).source h)

theorem start_fuel (e : SizeEstimator) (g : Graph) (root : NodeId) :
    (e.start g root).1.length + (e.start g root).2.unmarked.card ≤ g.nodes.size := by
  rw [(start_pushed e g root).balance]
  simp [Walk.unmarked, Visited.unmarked_none]

/-- The number of values bounds the visits: with more fuel an estimate stays what it is. -/
theorem estimate_fuel (hvalid : e.options.validate = .ok ()) (hsound : e.Sound) (more : Nat) :
    (e.start g root).2.drain e.options g (g.nodes.size + more) (e.start g root).1 0 =
      (e.start g root).2.drain e.options g g.nodes.size (e.start g root).1 0 :=
  Walk.drain_fuel hvalid more _ _ _ _ (start_sound hsound) (start_fuel e g root)

/-- An estimate leaves the options and a sound cache behind. -/
theorem estimate_sound (hvalid : e.options.validate = .ok ()) (hsound : e.Sound) (g : Graph)
    (root : NodeId) :
    (e.estimate g root).2.options = e.options ∧ (e.estimate g root).2.Sound := by
  have hdrain := Walk.drain_extends (g := g) hvalid g.nodes.size (e.start g root).1 0
    (e.start g root).2 (start_sound hsound)
  refine ⟨rfl, ?_⟩
  simpa [Sound, estimate, estimateWith, start, Visited.none] using hdrain.sound

theorem estimate_drains (hvalid : e.options.validate = .ok ()) (hsound : e.Sound)
    (hshort : ∀ id, g.Reaches root id → ¬ g.Oversized e.options id) :
    Walk.Drains g e.options (e.start g root).1 0 (e.start g root).2
      ((e.start g root).2.drain e.options g g.nodes.size (e.start g root).1 0) := by
  refine Walk.drain_spec hvalid _ _ _ _ (start_sound hsound) (start_fuel e g root) ?_
  intro origin horigin id hway
  obtain rfl := eq_of_mem_start horigin
  exact hshort id hway

/-- An estimate of values that can all be read is their footprint, as far as 64 bits go. -/
theorem estimate_of_readable (hvalid : e.options.validate = .ok ()) (hsound : e.Sound)
    (hshort : ∀ id, g.Reaches root id → ¬ g.Oversized e.options id)
    (hread : ∀ id, g.Reaches root id → g.Readable id) :
    (e.estimate g root).1 = .ok (UInt64.ofNat (g.footprint e.options root)) := by
  have hunmarked := Visited.reachable_subset_none g root
  have hfuel : (Visited.none g).unmarked.card ≤ g.nodes.size := by
    simp [Visited.unmarked_none]
  obtain ⟨w', hdrain, -, -⟩ := Walk.drain_region (w := ⟨.none g, e.layouts⟩) hvalid hsound
    ⟨hread, hshort⟩ (Visited.closedFrom_of_unmarked hunmarked) hfuel
  rw [estimate_fst, start, hdrain, Graph.footprint, Finset.inter_eq_left.mpr hunmarked]

/-- A value that cannot be read makes the estimate a fault. -/
theorem estimate_of_unreadable (hvalid : e.options.validate = .ok ()) (hsound : e.Sound)
    (hshort : ∀ id, g.Reaches root id → ¬ g.Oversized e.options id) {bad : NodeId}
    (hway : g.Reaches root bad) (hbad : ¬ g.Readable bad) :
    ∃ field shape, (e.estimate g root).1 = .error (.unreadableField field shape) := by
  have hpushed := start_pushed e g root
  have hdrains := estimate_drains hvalid hsound hshort
  rw [estimate_fst]
  generalize (e.start g root).2.drain e.options g g.nodes.size (e.start g root).1 0 = result
    at hdrains
  cases hdrains with
  | emptied hless hstack hsince =>
    have hunmarked := Visited.reachable_subset_none g root
    have hin : bad ∈ (Visited.none g).unmarked := by
      refine hunmarked (Graph.mem_reachable.mpr ⟨?_, hway⟩)
      exact Nat.not_le.mp fun hge => hbad (g.readable_of_ge hge)
    have hout := Walk.marked_of_reaches hpushed (Visited.closedFrom_of_unmarked hunmarked) hless
      hstack hsince hway
    exact absurd (Walk.new_of_ended hpushed hstack hsince hin hout).1.1 hbad
  | @stopped field shape _ _ => exact ⟨field, shape, rfl⟩

/-- Where no reachable sequence is oversized and the footprint is a 64-bit number, an estimate comes
to an end, whatever is cached: with the footprint if all that is reachable can be read, and with
the report of a member if some of it cannot. -/
theorem estimate_exact {e : SizeEstimator} {g : Graph} {root : NodeId}
    (hvalid : e.options.validate = .ok ()) (hcache : e.Reachable)
    (hshort : ∀ id, g.Reaches root id → ¬ g.Oversized e.options id)
    (hfits : g.footprint e.options root < 2 ^ 64) :
    (∀ more, (e.start g root).2.drain e.options g (g.nodes.size + more) (e.start g root).1 0 =
      (e.start g root).2.drain e.options g g.nodes.size (e.start g root).1 0) ∧
    ((∀ id, g.Reaches root id → g.Readable id) →
      ∃ bytes, (e.estimate g root).1 = .ok bytes ∧
        bytes.toNat = g.footprint e.options root) ∧
    (∀ bad, g.Reaches root bad → ¬ g.Readable bad →
      ∃ field shape, (e.estimate g root).1 = .error (.unreadableField field shape)) := by
  refine ⟨fun more => estimate_fuel hvalid hcache.sound more, fun hread => ?_,
    fun bad hway hbad => ?_⟩
  · refine ⟨_, estimate_of_readable hvalid hcache.sound hshort hread, ?_⟩
    exact UInt64.toNat_ofNat_of_lt hfits
  · exact estimate_of_unreadable hvalid hcache.sound hshort hway hbad

/-- A pair that leads twice to one sequence, which leads back to the pair and to a scalar; only the
given members of the pair can be read. -/
def knot (held : List (String × Option NodeId)) : Graph :=
  ⟨#[.object (.root (.builtIn 1) "Pair" [⟨"left", .reference⟩, ⟨"right", .reference⟩]) held,
    .sequence #[0, 2], .scalar .u64]⟩

/-- The pair, its sequence and the scalar are charged once each, and a pair without its right member
is reported. -/
theorem estimate_exact_knot :
    (∃ bytes, ((ofOptions {}).estimate (knot [("left", some 1), ("right", some 1)]) 0).1 =
      .ok bytes ∧
      bytes.toNat = (knot [("left", some 1), ("right", some 1)]).footprint {} 0) ∧
    ∃ field shape, ((ofOptions {}).estimate (knot [("left", some 1)]) 0).1 =
      .error (.unreadableField field shape) := by
  have hvalid : ({} : EstimatorOptions).validate = .ok () := by decide
  have hcache : (ofOptions {}).Reachable := .empty
  have hshort (held : List (String × Option NodeId)) (id : NodeId) :
      ¬ (knot held).Oversized {} id := by
    rcases id with _ | _ | _ | id
    · exact fun h => h
    · simp [knot, Graph.Oversized, Graph.node]
    · exact fun h => h
    · rw [Graph.Oversized, Graph.node_of_ge (by simp [knot])]
      exact fun h => h
  have hfits (held : List (String × Option NodeId)) :
      (knot held).footprint {} 0 < 2 ^ 64 := by
    have hcost : ∑ id ∈ Finset.range (knot held).nodes.size, (knot held).cost {} id = 80 := by
      show ∑ id ∈ Finset.range 3, (knot held).cost {} id = 80
      rw [Finset.sum_range_succ, Finset.sum_range_succ, Finset.sum_range_one]
      rfl
    have hall := (knot held).footprint_le {} 0
    omega
  constructor
  · refine (estimate_exact hvalid hcache (fun id _ => hshort _ id) (hfits _)).2.1 ?_
    intro id _ shape references hnode field hfield
    rcases id with _ | _ | _ | id
    · cases hnode
      have hname : field = "left" ∨ field = "right" := by
        simpa [Shape.references, Shape.fields, Shape.chain, Shape.ownFields, Field.reference?]
          using hfield
      rcases hname with rfl | rfl
      · exact ⟨_, rfl⟩
      · exact ⟨_, rfl⟩
    · cases hnode
    · cases hnode
    · rw [Graph.node_of_ge (by simp [knot])] at hnode
      cases hnode
  · refine (estimate_exact hvalid hcache (fun id _ => hshort _ id) (hfits _)).2.2 0 .refl ?_
    intro hread
    obtain ⟨target, hok⟩ := hread _ _ rfl "right" (by decide)
    cases hok

end SizeEstimator

end ShuffleBuffer.Estimate
