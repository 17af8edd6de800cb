import ShuffleBuffer.Proofs.Trackers

/-! # Estimates with one set of marks

Estimates that are made one after the other with one set of marks charge, all together, what any of
their roots reaches, each value once. How much of it each of them charges depends on their order,
the sum does not. -/

namespace ShuffleBuffer.Estimate

variable {o : EstimatorOptions} {g : Graph}

namespace Graph

theorem reachable_subset {root id : NodeId} (h : id ∈ g.reachable root) :
    g.reachable id ⊆ g.reachable root := by
  intro target htarget
  rw [mem_reachable] at h htarget ⊢
  exact ⟨htarget.1, h.2.trans htarget.2⟩

/-- What any of some roots reaches. -/
noncomputable def union (g : Graph) (roots : List NodeId) : Finset NodeId :=
  roots.toFinset.biUnion g.reachable

theorem union_cons (g : Graph) (root : NodeId) (roots : List NodeId) :
    g.union (root :: roots) = g.reachable root ∪ g.union roots := by
  rw [union, List.toFinset_cons, Finset.biUnion_insert, union]

theorem reachable_subset_union {root : NodeId} {roots : List NodeId} (h : root ∈ roots) :
    g.reachable root ⊆ g.union roots :=
  Finset.subset_biUnion_of_mem g.reachable (List.mem_toFinset.mpr h)

/-- What each of some roots adds to what is charged already. -/
noncomputable def shares (g : Graph) (o : EstimatorOptions) :
    Finset NodeId → List NodeId → List Nat
  | _, [] => []
  | covered, root :: roots =>
      (∑ id ∈ g.reachable root \ covered, g.cost o id) ::
        g.shares o (covered ∪ g.reachable root) roots

theorem sum_shares (covered : Finset NodeId) (roots : List NodeId) :
    (g.shares o covered roots).sum = ∑ id ∈ g.union roots \ covered, g.cost o id := by
  induction roots generalizing covered with
  | nil => simp [shares, union]
  | cons root roots ih =>
    have hsplit : g.union (root :: roots) \ covered =
        (g.reachable root \ covered) ∪ (g.union roots \ (covered ∪ g.reachable root)) := by
      rw [union_cons]
      grind
    have hdisjoint : Disjoint (g.reachable root \ covered)
        (g.union roots \ (covered ∪ g.reachable root)) :=
      Finset.disjoint_of_subset_left (Finset.sdiff_subset.trans Finset.subset_union_right)
        Finset.disjoint_sdiff
    rw [shares, List.sum_cons, ih, hsplit, Finset.sum_union hdisjoint]

theorem sum_shares_le (covered : Finset NodeId) (roots : List NodeId) :
    (g.shares o covered roots).sum ≤ (roots.map (g.footprint o)).sum := by
  induction roots generalizing covered with
  | nil => exact Nat.le_refl 0
  | cons root roots ih =>
    rw [shares, List.sum_cons, List.map_cons, List.sum_cons]
    exact Nat.add_le_add (Finset.sum_le_sum_of_subset Finset.sdiff_subset) (ih _)

/-- A root adds what the roots before it do not reach. -/
theorem getElem?_shares (covered : Finset NodeId) (before after : List NodeId) (root : NodeId) :
    (g.shares o covered (before ++ root :: after))[before.length]? =
      some (∑ id ∈ g.reachable root \ (covered ∪ g.union before), g.cost o id) := by
  induction before generalizing covered with
  | nil => simp [shares, union]
  | cons other before ih =>
    rw [List.cons_append, shares, List.length_cons, List.getElem?_cons_succ, ih, union_cons,
      Finset.union_assoc]

end Graph

/-- Of the values of the graph these are charged, and what they reach is among them. -/
structure Visited.Charged (v : Visited) (g : Graph) (covered : Finset NodeId) : Prop where
  unmarked : ∀ id, id ∈ v.unmarked ↔ id < g.nodes.size ∧ id ∉ covered
  closed : ∀ id ∈ covered, g.reachable id ⊆ covered

namespace Visited.Charged

variable {v v' : Visited} {covered : Finset NodeId}

theorem none (g : Graph) : (Visited.none g).Charged g ∅ := by
  refine ⟨fun id => ?_, fun _ h => absurd h (Finset.notMem_empty _)⟩
  simp [unmarked_none]

theorem closedFrom (h : v.Charged g covered) (root : NodeId) : v.ClosedFrom g root := by
  intro id _ hmarked target htarget hlate
  obtain ⟨hrange, hfree⟩ := (h.unmarked target).mp hlate
  have hid : id < g.nodes.size := by
    by_contra hge
    rw [g.targets_of_ge (Nat.not_lt.mp hge)] at htarget
    cases htarget
  have hin : id ∈ covered := by
    by_contra hout
    exact hmarked ((h.unmarked id).mpr ⟨hid, hout⟩)
  exact hfree (h.closed id hin (Graph.mem_reachable.mpr ⟨hrange, .single htarget⟩))

theorem reachable_inter (h : v.Charged g covered) (root : NodeId) :
    g.reachable root ∩ v.unmarked = g.reachable root \ covered := by
  ext id
  rw [Finset.mem_inter, Finset.mem_sdiff, h.unmarked]
  exact ⟨fun hid => ⟨hid.1, hid.2.2⟩, fun hid => ⟨hid.1, (Graph.mem_reachable.mp hid.1).1, hid.2⟩⟩

/-- What a root reaches is charged, too. -/
theorem region (h : v.Charged g covered) {root : NodeId}
    (hmarks : ∀ id, id ∈ v'.unmarked ↔ id ∈ v.unmarked ∧ ¬ g.Reaches root id) :
    v'.Charged g (covered ∪ g.reachable root) := by
  refine ⟨fun id => ?_, fun id hid => ?_⟩
  · rw [hmarks, h.unmarked, Finset.mem_union, Graph.mem_reachable]
    constructor
    · rintro ⟨⟨hrange, hfree⟩, hfar⟩
      exact ⟨hrange, fun hin => hin.elim hfree fun hway => hfar hway.2⟩
    · rintro ⟨hrange, hfree⟩
      exact ⟨⟨hrange, fun hin => hfree (.inl hin)⟩, fun hway => hfree (.inr ⟨hrange, hway⟩)⟩
  · rcases Finset.mem_union.mp hid with hold | hnew
    · exact (h.closed id hold).trans Finset.subset_union_left
    · exact (Graph.reachable_subset hnew).trans Finset.subset_union_right

end Visited.Charged

namespace SizeEstimator

variable {e : SizeEstimator} {roots : List NodeId}

/-- An estimate charges and marks what its root reaches and was not charged before. -/
theorem estimateWith_region (he : e.Usable) {root : NodeId} {visited : Visited}
    (hplain : g.Plain e.options root) (hclosed : visited.ClosedFrom g root) :
    ∃ visited' e', e.estimateWith g root visited = (.ok (UInt64.ofNat
        (∑ id ∈ g.reachable root ∩ visited.unmarked, g.cost e.options id)), visited', e') ∧
      e'.Usable ∧ e'.options = e.options ∧
      ∀ id, id ∈ visited'.unmarked ↔ id ∈ visited.unmarked ∧ ¬ g.Reaches root id := by
  obtain ⟨w', hdrain, hsound, hmarks⟩ := Walk.drain_region (w := ⟨visited, e.layouts⟩) he.valid
    he.sound hplain hclosed visited.card_unmarked_le
  refine ⟨w'.visited, { e with layouts := w'.layouts }, ?_, ⟨he.valid, hsound⟩, rfl, hmarks⟩
  rw [estimateWith]
  dsimp only
  rw [hdrain]

/-- Estimates one after the other, each with the marks that those before it have left. -/
def estimateAll (e : SizeEstimator) (g : Graph) :
    List NodeId → Visited → List (Except Fault UInt64) × Visited × SizeEstimator
  | [], visited => ([], visited, e)
  | root :: roots, visited =>
      let (result, visited, e) := e.estimateWith g root visited
      let (results, visited, e) := e.estimateAll g roots visited
      (result :: results, visited, e)

theorem estimateAll_shares (he : e.Usable) (hplain : ∀ root ∈ roots, g.Plain e.options root)
    {visited : Visited} {covered : Finset NodeId} (hcharged : visited.Charged g covered) :
    (e.estimateAll g roots visited).1 =
      (g.shares e.options covered roots).map fun share => .ok (UInt64.ofNat share) := by
  induction roots generalizing e visited covered with
  | nil => rfl
  | cons root roots ih =>
    obtain ⟨hroot, hplain⟩ := List.forall_mem_cons.mp hplain
    obtain ⟨visited', e', hestimate, he', hoptions, hmarks⟩ :=
      estimateWith_region he hroot (hcharged.closedFrom root)
    have hrest := ih he' (hoptions ▸ hplain) (hcharged.region hmarks)
    rw [hcharged.reachable_inter] at hestimate
    rw [hoptions] at hrest
    rw [estimateAll, hestimate, Graph.shares, List.map_cons, ← hrest]

/-- What each root adds is a 64-bit number if all of it together is. -/
theorem estimateAll_sizes (he : e.Usable) (hplain : ∀ root ∈ roots, g.Plain e.options root)
    (hfits : ∑ id ∈ g.union roots, g.cost e.options id < 2 ^ 64) :
    ∃ sizes : List UInt64, (e.estimateAll g roots (.none g)).1 = sizes.map .ok ∧
      sizes.map UInt64.toNat = g.shares e.options ∅ roots := by
  refine ⟨(g.shares e.options ∅ roots).map UInt64.ofNat, ?_, ?_⟩
  · rw [estimateAll_shares he hplain (.none g), List.map_map]
    rfl
  · rw [List.map_map]
    refine (List.map_congr_left fun share hshare => ?_).trans (List.map_id _)
    refine UInt64.toNat_ofNat_of_lt (Nat.lt_of_le_of_lt (List.le_sum_of_mem hshare) ?_)
    rwa [Graph.sum_shares, Finset.sdiff_empty]

/-- Estimates on their own count again what they have in common. -/
theorem estimate_sizes (he : e.Usable) (hplain : ∀ root ∈ roots, g.Plain e.options root)
    (hfits : ∑ id ∈ g.union roots, g.cost e.options id < 2 ^ 64) :
    ∃ sizes : List UInt64, (roots.map fun root => (e.estimate g root).1) = sizes.map .ok ∧
      sizes.map UInt64.toNat = roots.map (g.footprint e.options) := by
  refine ⟨roots.map fun root => UInt64.ofNat (g.footprint e.options root), ?_, ?_⟩
  · rw [List.map_map]
    refine List.map_congr_left fun root hroot => ?_
    have hroot := hplain root hroot
    exact estimate_of_readable he.valid he.sound hroot.short hroot.readable
  · rw [List.map_map]
    refine List.map_congr_left fun root hroot => ?_
    refine UInt64.toNat_ofNat_of_lt (Nat.lt_of_le_of_lt ?_ hfits)
    exact Finset.sum_le_sum_of_subset (Graph.reachable_subset_union hroot)

/-- Estimates one after the other, from no marks, add up to what everything that their roots reach
costs, each value once. So the sum is the same in every order of the roots, a root that comes again
adds nothing, and estimates on their own do not add up to less. -/
theorem estimateAll_union (he : e.Usable) (hplain : ∀ root ∈ roots, g.Plain e.options root)
    (hfits : ∑ id ∈ g.union roots, g.cost e.options id < 2 ^ 64) :
    ∃ sizes : List UInt64, (e.estimateAll g roots (.none g)).1 = sizes.map .ok ∧
      (sizes.map UInt64.toNat).sum = ∑ id ∈ g.union roots, g.cost e.options id ∧
      (∀ roots', roots.Perm roots' → ∃ sizes' : List UInt64,
        (e.estimateAll g roots' (.none g)).1 = sizes'.map .ok ∧
        (sizes'.map UInt64.toNat).sum = (sizes.map UInt64.toNat).sum) ∧
      (∀ before root after, roots = before ++ root :: after → root ∈ before →
        sizes[before.length]? = some 0) ∧
      ∃ alone : List UInt64, (roots.map fun root => (e.estimate g root).1) = alone.map .ok ∧
        (sizes.map UInt64.toNat).sum ≤ (alone.map UInt64.toNat).sum := by
  obtain ⟨sizes, hsizes, hshares⟩ := estimateAll_sizes he hplain hfits
  obtain ⟨alone, halone, hfootprints⟩ := estimate_sizes he hplain hfits
  have hsum (roots : List NodeId) : (g.shares e.options ∅ roots).sum =
      ∑ id ∈ g.union roots, g.cost e.options id := by
    rw [Graph.sum_shares, Finset.sdiff_empty]
  refine ⟨sizes, hsizes, ?_, fun roots' hperm => ?_, ?_, alone, halone, ?_⟩
  · rw [hshares, hsum]
  · have hsame : g.union roots' = g.union roots := by
      rw [Graph.union, Graph.union, List.toFinset_eq_of_perm _ _ hperm]
    have hplain' : ∀ root ∈ roots', g.Plain e.options root := fun root hroot =>
      hplain root (hperm.mem_iff.mpr hroot)
    obtain ⟨sizes', hsizes', hshares'⟩ := estimateAll_sizes he hplain' (hsame ▸ hfits)
    refine ⟨sizes', hsizes', ?_⟩
    rw [hshares', hshares, hsum, hsum, hsame]
  · rintro before root after rfl hagain
    have hnone : g.reachable root \ (∅ ∪ g.union before) = ∅ := by
      rw [Finset.empty_union]
      exact Finset.sdiff_eq_empty_iff_subset.mpr (Graph.reachable_subset_union hagain)
    have hshare := Graph.getElem?_shares (g := g) (o := e.options) ∅ before after root
    rw [hnone, Finset.sum_empty, ← hshares, List.getElem?_map, Option.map_eq_some_iff] at hshare
    obtain ⟨size, hsize, hzero⟩ := hshare
    rw [hsize, show size = 0 from UInt64.toNat_inj.mp hzero]
  · rw [hshares, hfootprints]
    exact Graph.sum_shares_le ∅ roots

/-- A pointer and a sequence that lead to one sequence, which holds itself and a text. -/
def fork : Graph :=
  ⟨#[.pointer (some 2), .sequence #[2, 3], .sequence #[3, 2], .scalars .u8 5]⟩

/-- The pointer first, the sequence and the pointer again; and the sequence before the pointers. -/
theorem estimateAll_union_fork :
    let e := ofOptions {}
    e.Usable ∧ (∀ root ∈ [0, 1, 0], fork.Plain e.options root) ∧
      ∑ id ∈ fork.union [0, 1, 0], fork.cost e.options id = 112 ∧
      (e.estimateAll fork [0, 1, 0] (.none fork)).1 = [.ok 72, .ok 40, .ok 0] ∧
      (e.estimateAll fork [1, 0, 0] (.none fork)).1 = [.ok 112, .ok 0, .ok 0] := by
  intro e
  have he : e.Usable := usable_ofOptions (by decide)
  have hplain (root : NodeId) : fork.Plain e.options root := by
    refine ⟨fun id _ shape references hnode => ?_, fun id _ hlong => ?_⟩
    · rcases id with _ | _ | _ | _ | id
      · cases hnode
      · cases hnode
      · cases hnode
      · cases hnode
      · rw [Graph.node_of_ge (by simp [fork])] at hnode
        cases hnode
    · rcases id with _ | _ | _ | _ | id
      · exact hlong
      · simp [fork, Graph.Oversized, Graph.node, e, ofOptions] at hlong
      · simp [fork, Graph.Oversized, Graph.node, e, ofOptions] at hlong
      · exact hlong
      · rw [Graph.Oversized, Graph.node_of_ge (by simp [fork])] at hlong
        exact hlong
  have hfits : ∑ id ∈ fork.union [0, 1, 0], fork.cost e.options id < 2 ^ 64 := by
    have hcost : ∑ id ∈ Finset.range 4, fork.cost e.options id = 112 := by
      simp only [Finset.sum_range_succ, Finset.sum_range_zero]
      decide
    have hle : ∑ id ∈ fork.union [0, 1, 0], fork.cost e.options id ≤
        ∑ id ∈ Finset.range 4, fork.cost e.options id := by
      refine Finset.sum_le_sum_of_subset (Finset.biUnion_subset.mpr fun root _ id hid => ?_)
      exact Finset.mem_range.mpr (Graph.mem_reachable.mp hid).1
    omega
  have hfirst : (e.estimateAll fork [0, 1, 0] (.none fork)).1 = [.ok 72, .ok 40, .ok 0] := by
    decide +kernel
  obtain ⟨sizes, hsizes, hsum, -, -, -⟩ := estimateAll_union he (fun root _ => hplain root) hfits
  have hvalues : sizes = [72, 40, 0] :=
    List.map_injective_iff.mpr (fun _ _ => Except.ok.inj) (hsizes.symm.trans hfirst)
  refine ⟨he, fun root _ => hplain root, ?_, hfirst, by decide +kernel⟩
  rw [← hsum, hvalues]
  rfl

end SizeEstimator

end ShuffleBuffer.Estimate
