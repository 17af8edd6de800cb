import ShuffleBuffer.Proofs.Trails
import ShuffleBuffer.Proofs.Unions
import ShuffleBuffer.Proofs.Zones

/-! # What is due

What an estimate has to charge can be told from the marks alone: the values that its root leads to
by values without a mark. If all of these can be read, the estimate takes each of them once, and
marks these and no others. If not, a fault ends it, when it has marked some of them. -/

namespace ShuffleBuffer.Estimate

open Relation

variable {o : EstimatorOptions} {g : Graph}

namespace Walk

variable {w w' v : Walk} {id : NodeId} {pending pending' ids : List NodeId}

/-! ## The three ends of a visit -/

/-- Reading members marks no more than what they lead to, also when one cannot be read. -/
theorem pushReferences_marks (w : Walk) (node : Node) (pending : List NodeId)
    (fields : List String) (hin : id ∈ w.unmarked)
    (hout : id ∉ (w.pushReferences node pending fields).2.unmarked) :
    id ∈ fields.filterMap fun field =>
      match node.reference field with
      | .ok target => target
      | .error _ => none := by
  induction fields generalizing w pending with
  | nil => exact absurd hin hout
  | cons field fields ih =>
    rw [pushReferences] at hout
    cases hread : node.reference field with
    | error fault =>
      rw [hread] at hout
      exact absurd hin hout
    | ok target =>
      rw [hread] at hout
      cases target with
      | none =>
        rw [List.filterMap_cons, hread]
        exact ih w pending hin hout
      | some target =>
        rw [List.filterMap_cons, hread]
        by_cases hlate : id ∈ (w.push pending target).2.unmarked
        · exact List.mem_cons_of_mem target (ih _ _ hlate hout)
        · have hself := (push_pushed w pending target).mem_ids hin hlate
          exact List.mem_singleton.mp hself ▸ List.mem_cons_self

theorem visit_charged (h : o.validate = .ok ()) (hw : w.SoundFor o) {bytes : UInt64}
    (hvisit : w.visit o g id pending = .charged bytes pending' w') :
    bytes = g.price o id ∧ g.sampled? o id = none ∧ g.Readable id ∧
      Pushed (g.leads o id) w pending w' pending' ∧ w'.SoundFor o := by
  have hprices := visit_prices h hw g id pending
  rw [hvisit] at hprices
  cases hprices with
  | charged hwalked hread hpushed hsound => exact ⟨rfl, hwalked, hread, hpushed, hsound⟩

theorem visit_sampled (h : o.validate = .ok ()) (hw : w.SoundFor o) {bytes length : UInt64}
    (hvisit : w.visit o g id pending = .sampled bytes length ids v) :
    v = w ∧ ids = g.leads o id ∧ (g.sampled? o id).isSome ∧ g.Readable id := by
  have hprices := visit_prices h hw g id pending
  rw [hvisit] at hprices
  cases hprices with
  | sampled hsampled =>
    refine ⟨rfl, rfl, by rw [hsampled]; rfl, fun shape references hnode => ?_⟩
    rw [(Graph.sampled_eq_some.mp hsampled).1] at hnode
    cases hnode

theorem visit_failed (h : o.validate = .ok ()) (hw : w.SoundFor o) {fault : Fault}
    (hvisit : w.visit o g id pending = .failed fault w') :
    ¬ g.Readable id ∧ Extends o w w' ∧
      ∀ late ∈ w.unmarked, late ∉ w'.unmarked → late ∈ g.leads o id := by
  have hspec := visit_spec hw h g id pending
  rw [hvisit] at hspec
  cases hspec with
  | failed hunreadable hshrinks hsound =>
    refine ⟨hunreadable, ⟨hsound, hshrinks⟩, fun late hin hout => ?_⟩
    -- only an object has members, so it is one, and its targets are what its members lead to
    obtain ⟨shape, hrest⟩ := not_forall.mp hunreadable
    obtain ⟨references, hrest⟩ := not_forall.mp hrest
    obtain ⟨hnode, -⟩ := Classical.not_imp.mp hrest
    have hwalked : g.sampled? o id = none := by simp only [Graph.sampled?, hnode]
    obtain ⟨shelled, hshell, hmarks, -⟩ := shell_spec hw h shape
    have hbefore : late ∈ shelled.unmarked := by rwa [unmarked, hmarks]
    have hreads := pushReferences_marks shelled (.object shape references) pending
      shape.references hbefore
    simp only [visit, hnode, hshell] at hvisit
    cases hpushes : shelled.pushReferences (.object shape references) pending shape.references with
    | mk result last =>
      rw [hpushes] at hvisit hreads
      cases result with
      | ok pending' => cases hvisit
      | error fault' =>
        cases hvisit
        rw [Graph.leads_of_walked hwalked, Graph.targets, hnode]
        exact hreads hout

/-! ## What a trail marks -/

/-- What is marked between one walk and another. -/
def newMarks (w w' : Walk) : Finset NodeId := w.unmarked \ w'.unmarked

theorem mem_newMarks : id ∈ newMarks w w' ↔ id ∈ w.unmarked ∧ id ∉ w'.unmarked :=
  Finset.mem_sdiff

theorem newMarks_self (w : Walk) : newMarks w w = ∅ := Finset.sdiff_self _

/-- What is marked on the way is marked before some point of it or after. -/
theorem newMarks_trans (hfirst : v.unmarked ⊆ w.unmarked) (hrest : w'.unmarked ⊆ v.unmarked) :
    newMarks w w' = newMarks w v ∪ newMarks v w' := by
  ext id
  have hold := @hfirst id
  have hlate := @hrest id
  simp only [Finset.mem_union, mem_newMarks]
  tauto

theorem Pushed.newMarks_subset (h : Pushed ids w pending w' pending') {id : NodeId}
    (hid : id ∈ newMarks w w') : id ∈ ids :=
  h.mem_ids (mem_newMarks.mp hid).1 (mem_newMarks.mp hid).2

theorem Pushed.forall_stack {S : NodeId → Prop} (h : Pushed ids w pending w' pending')
    (hold : ∀ id ∈ pending, S id) (hnew : ∀ id ∈ newMarks w w', S id) : ∀ id ∈ pending', S id :=
  fun id hid => (h.mem_stack hid).elim (hold id) fun hmarks => hnew id (mem_newMarks.mpr hmarks)

/-- A push onto an empty stack marks no other value. -/
theorem eq_of_mem_newMarks_push {id other : NodeId}
    (h : other ∈ newMarks w (w.push [] id).2) : other = id :=
  List.mem_singleton.mp ((push_pushed w [] id).newMarks_subset h)

/-- The drawn elements that a walk has before it. -/
def Work.heads : Work → List NodeId
  | stack _ => []
  | drawn ids => ids

variable {work : Work} {size : UInt64} {taken : List NodeId}
  {outcome : Except Fault UInt64 × Walk}

theorem Trail.later (h : o.validate = .ok ()) (htrail : Trail o g work size w taken outcome)
    (hw : w.SoundFor o) : Extends o w outcome.2 := by
  induction htrail with
  | emptied | summed => exact .refl hw
  | charged hvisit _ ih =>
    obtain ⟨-, -, -, hpushed, hsound⟩ := visit_charged h hw hvisit
    exact .trans ⟨hsound, hpushed.shrinks⟩ (ih hsound)
  | failed hvisit => exact (visit_failed h hw hvisit).2.1
  | sampled hvisit _ _ ihinner ihrest =>
    obtain ⟨rfl, -, -, -⟩ := visit_sampled h hw hvisit
    exact (ihinner hw).trans (ihrest (ihinner hw).sound)
  | stopped hvisit _ ihinner =>
    obtain ⟨rfl, -, -, -⟩ := visit_sampled h hw hvisit
    exact ihinner hw
  | @next id _ _ _ _ _ w _ _ _ _ ihfirst ihrest =>
    have hpush := push_extends hw [] id
    have hfirst := ihfirst hpush.sound
    exact (hpush.trans hfirst).trans (ihrest hfirst.sound)
  | @broken id _ _ _ _ w _ _ ihfirst =>
    have hpush := push_extends hw [] id
    exact hpush.trans (ihfirst hpush.sound)

/-- What holds of all that a walk has before it, and of whatever is marked and led to by a value of
which it holds, holds of all that the walk marks, also when a fault ends it. -/
theorem Trail.spreads (h : o.validate = .ok ()) {S : NodeId → Prop} {marks : Finset NodeId}
    (hleads : ∀ id, S id → ∀ target ∈ g.leads o id, target ∈ marks → S target)
    (htrail : Trail o g work size w taken outcome) (hw : w.SoundFor o)
    (hmarks : newMarks w outcome.2 ⊆ marks) (hheld : ∀ id ∈ work.held, S id)
    (hheads : ∀ id ∈ work.heads, id ∈ marks → S id) : ∀ id ∈ newMarks w outcome.2, S id := by
  -- `marks` is fixed in the induction: a part of the trail marks less than the whole
  induction htrail with
  | emptied | summed => simp [newMarks_self]
  | @charged id pending pending' taken size bytes w w' outcome hvisit hrest ih =>
    obtain ⟨-, -, -, hpushed, hsound⟩ := visit_charged h hw hvisit
    rw [newMarks_trans hpushed.shrinks (hrest.later h hsound).shrinks] at hmarks ⊢
    obtain ⟨hfirst, hlater⟩ := Finset.union_subset_iff.mp hmarks
    obtain ⟨hself, hheld⟩ := List.forall_mem_cons.mp hheld
    have hnew : ∀ target ∈ newMarks w w', S target := fun target htarget =>
      hleads id hself target (hpushed.newMarks_subset htarget) (hfirst htarget)
    exact Finset.forall_mem_union.mpr
      ⟨hnew, ih hsound hlater (hpushed.forall_stack hheld hnew) (List.forall_mem_nil _)⟩
  | @failed id _ _ _ w w' hvisit =>
    obtain ⟨-, -, hled⟩ := visit_failed h hw hvisit
    intro target htarget
    obtain ⟨hin, hout⟩ := mem_newMarks.mp htarget
    exact hleads id (hheld id List.mem_cons_self) target (hled target hin hout) (hmarks htarget)
  | @sampled id _ _ _ _ _ _ _ _ _ _ w' _ hvisit hinner hrest ihinner ihrest =>
    obtain ⟨rfl, rfl, -, -⟩ := visit_sampled h hw hvisit
    have hmid := hinner.later h hw
    rw [newMarks_trans hmid.shrinks (hrest.later h hmid.sound).shrinks] at hmarks ⊢
    obtain ⟨hfirst, hlater⟩ := Finset.union_subset_iff.mp hmarks
    obtain ⟨hself, hheld⟩ := List.forall_mem_cons.mp hheld
    exact Finset.forall_mem_union.mpr
      ⟨ihinner hw hfirst (List.forall_mem_nil _) (hleads id hself),
        ihrest hmid.sound hlater hheld (List.forall_mem_nil _)⟩
  | @stopped id _ _ _ _ _ _ _ _ _ _ hvisit _ ihinner =>
    obtain ⟨rfl, rfl, -, -⟩ := visit_sampled h hw hvisit
    exact ihinner hw hmarks (List.forall_mem_nil _) (hleads id (hheld id List.mem_cons_self))
  | @next id ids first rest sum bytes w w' outcome hfirst hrest ihfirst ihrest =>
    have hpushed := push_pushed w [] id
    have hpush := push_extends hw [] id
    have hone := hfirst.later h hpush.sound
    rw [newMarks_trans (hpush.trans hone).shrinks (hrest.later h hone.sound).shrinks,
      newMarks_trans hpush.shrinks hone.shrinks] at hmarks ⊢
    obtain ⟨hmarks, hlater⟩ := Finset.union_subset_iff.mp hmarks
    obtain ⟨hhead, hinner⟩ := Finset.union_subset_iff.mp hmarks
    obtain ⟨hself, hheads⟩ := List.forall_mem_cons.mp hheads
    have hnew : ∀ other ∈ newMarks w (w.push [] id).2, S other := fun other hother => by
      obtain rfl := eq_of_mem_newMarks_push hother
      exact hself (hhead hother)
    exact Finset.forall_mem_union.mpr ⟨Finset.forall_mem_union.mpr ⟨hnew,
        ihfirst hpush.sound hinner (hpushed.forall_stack (List.forall_mem_nil _) hnew)
          (List.forall_mem_nil _)⟩,
      ihrest hone.sound hlater (List.forall_mem_nil _) hheads⟩
  | @broken id ids first sum fault w w' hfirst ihfirst =>
    have hpushed := push_pushed w [] id
    have hpush := push_extends hw [] id
    rw [newMarks_trans hpush.shrinks (hfirst.later h hpush.sound).shrinks] at hmarks ⊢
    obtain ⟨hhead, hinner⟩ := Finset.union_subset_iff.mp hmarks
    have hnew : ∀ other ∈ newMarks w (w.push [] id).2, S other := fun other hother => by
      obtain rfl := eq_of_mem_newMarks_push hother
      exact hheads other List.mem_cons_self (hhead hother)
    exact Finset.forall_mem_union.mpr ⟨hnew,
      ihfirst hpush.sound hinner (hpushed.forall_stack (List.forall_mem_nil _) hnew)
        (List.forall_mem_nil _)⟩

/-- A trail that no fault ends takes nothing that cannot be read. In the end all that it has taken
is expanded, and what it had to draw is marked. -/
theorem Trail.expanded (h : o.validate = .ok ()) (htrail : Trail o g work size w taken outcome)
    (hw : w.SoundFor o) {bytes : UInt64} (hok : outcome.1 = .ok bytes) :
    (∀ id ∈ taken, g.Readable id ∧ outcome.2.Expanded g o id) ∧
      ∀ id ∈ work.heads, id ∉ outcome.2.unmarked := by
  induction htrail generalizing bytes with
  | emptied | summed => exact ⟨List.forall_mem_nil _, List.forall_mem_nil _⟩
  | failed | stopped | broken => cases hok
  | charged hvisit hrest ih =>
    obtain ⟨-, -, hread, hpushed, hsound⟩ := visit_charged h hw hvisit
    have hself : Expanded g o _ _ := hpushed.marked
    exact ⟨List.forall_mem_cons.mpr
      ⟨⟨hread, hself.later (hrest.later h hsound).shrinks⟩, (ih hsound hok).1⟩,
      List.forall_mem_nil _⟩
  | @sampled id _ _ inner taken _ _ _ _ _ _ w' outcome hvisit hinner hrest ihinner ihrest =>
    obtain ⟨rfl, rfl, -, hread⟩ := visit_sampled h hw hvisit
    have hmid := (hinner.later h hw).sound
    have hless := (hrest.later h hmid).shrinks
    obtain ⟨hfirst, hdrawn⟩ := ihinner hw rfl
    have hself : w'.Expanded g o id := hdrawn
    refine ⟨List.forall_mem_cons.mpr ⟨⟨hread, hself.later hless⟩,
      List.forall_mem_append.mpr ⟨fun other hother => ?_, (ihrest hmid hok).1⟩⟩,
      List.forall_mem_nil _⟩
    exact ⟨(hfirst other hother).1, (hfirst other hother).2.later hless⟩
  | @next id ids first rest sum bytes w w' outcome hfirst hrest ihfirst ihrest =>
    have hpush := push_extends hw [] id
    have hone := hfirst.later h hpush.sound
    have hless := (hrest.later h hone.sound).shrinks
    obtain ⟨hlater, hdrawn⟩ := ihrest hone.sound hok
    have hhead : id ∉ outcome.2.unmarked := fun hlast =>
      (push_pushed w [] id).marked id List.mem_cons_self (hone.shrinks (hless hlast))
    refine ⟨List.forall_mem_append.mpr ⟨fun other hother => ?_, hlater⟩,
      List.forall_mem_cons.mpr ⟨hhead, hdrawn⟩⟩
    have hinner := (ihfirst hpush.sound rfl).1 other hother
    exact ⟨hinner.1, hinner.2.later hless⟩

/-- A fault that ends a trail comes from a value that the trail has taken. -/
theorem Trail.unreadable (h : o.validate = .ok ()) (htrail : Trail o g work size w taken outcome)
    (hw : w.SoundFor o) {fault : Fault} (hfault : outcome.1 = .error fault) :
    ∃ id ∈ taken, ¬ g.Readable id := by
  induction htrail generalizing fault with
  | emptied | summed => cases hfault
  | charged hvisit _ ih =>
    obtain ⟨-, -, -, -, hsound⟩ := visit_charged h hw hvisit
    obtain ⟨other, hother, hunreadable⟩ := ih hsound hfault
    exact ⟨other, List.mem_cons_of_mem _ hother, hunreadable⟩
  | failed hvisit => exact ⟨_, List.mem_cons_self, (visit_failed h hw hvisit).1⟩
  | sampled hvisit hinner _ _ ihrest =>
    obtain ⟨rfl, -, -, -⟩ := visit_sampled h hw hvisit
    obtain ⟨other, hother, hunreadable⟩ := ihrest (hinner.later h hw).sound hfault
    exact ⟨other, List.mem_cons_of_mem _ (List.mem_append_right _ hother), hunreadable⟩
  | stopped hvisit _ ihinner =>
    obtain ⟨rfl, -, -, -⟩ := visit_sampled h hw hvisit
    obtain ⟨other, hother, hunreadable⟩ := ihinner hw rfl
    exact ⟨other, List.mem_cons_of_mem _ hother, hunreadable⟩
  | @next id _ _ _ _ _ w _ _ hfirst _ _ ihrest =>
    have hpush := push_extends hw [] id
    obtain ⟨other, hother, hunreadable⟩ := ihrest (hfirst.later h hpush.sound).sound hfault
    exact ⟨other, List.mem_append_right _ hother, hunreadable⟩
  | @broken id _ _ _ _ w _ _ ihfirst => exact ihfirst (push_extends hw [] id).sound rfl

/-- Where nothing is sampled, a trail adds the prices of what it takes. -/
theorem Trail.sum_prices (h : o.validate = .ok ()) (htrail : Trail o g work size w taken outcome)
    (hw : w.SoundFor o) (hwalked : ∀ id ∈ taken, g.sampled? o id = none) {bytes : UInt64}
    (hok : outcome.1 = .ok bytes) : bytes = size + (taken.map (g.price o)).sum := by
  induction htrail generalizing bytes with
  | emptied size w | summed size w =>
    obtain rfl := Except.ok.inj hok
    exact (UInt64.add_zero _).symm
  | failed | stopped | broken => cases hok
  | charged hvisit _ ih =>
    obtain ⟨rfl, -, -, -, hsound⟩ := visit_charged h hw hvisit
    rw [ih hsound (List.forall_mem_cons.mp hwalked).2 hok, List.map_cons, List.sum_cons,
      UInt64.add_assoc]
  | sampled hvisit =>
    obtain ⟨-, -, hsampled, -⟩ := visit_sampled h hw hvisit
    rw [hwalked _ List.mem_cons_self] at hsampled
    cases hsampled
  | @next id _ _ _ _ _ w _ _ hfirst _ ihfirst ihrest =>
    have hpush := push_extends hw [] id
    obtain ⟨hinner, hlater⟩ := List.forall_mem_append.mp hwalked
    rw [ihrest (hfirst.later h hpush.sound).sound hlater hok, ihfirst hpush.sound hinner rfl,
      List.map_append, List.sum_append, UInt64.zero_add, UInt64.add_assoc]

end Walk

/-! ## What is due -/

open Classical in
/-- What an estimate of a root owes: the values without a mark that it comes to by values without a
mark. -/
noncomputable def Visited.due (v : Visited) (g : Graph) (o : EstimatorOptions) (root : NodeId) :
    Finset NodeId :=
  v.unmarked.filter fun id => root ∈ v.unmarked ∧
    ReflTransGen (fun id target => target ∈ g.leads o id ∧ target ∈ v.unmarked) root id

namespace Visited

variable {v v' : Visited} {root id : NodeId}

theorem mem_due : id ∈ v.due g o root ↔ root ∈ v.unmarked ∧
    ReflTransGen (fun id target => target ∈ g.leads o id ∧ target ∈ v.unmarked) root id := by
  simp only [due, Finset.mem_filter, and_iff_right_iff_imp]
  rintro ⟨hroot, hway⟩
  cases hway with
  | refl => exact hroot
  | tail _ hstep => exact hstep.2

theorem due_subset (v : Visited) (g : Graph) (o : EstimatorOptions) (root : NodeId) :
    v.due g o root ⊆ v.unmarked := by
  classical exact Finset.filter_subset _ _

theorem due_mono (h : v'.unmarked ⊆ v.unmarked) : v'.due g o root ⊆ v.due g o root := by
  intro id hid
  obtain ⟨hroot, hway⟩ := mem_due.mp hid
  exact mem_due.mpr ⟨h hroot, ReflTransGen.mono (fun _ _ hstep => ⟨hstep.1, h hstep.2⟩) _ _ hway⟩

theorem due_step (hid : id ∈ v.due g o root) {target : NodeId} (htarget : target ∈ g.leads o id)
    (hin : target ∈ v.unmarked) : target ∈ v.due g o root :=
  mem_due.mpr ⟨(mem_due.mp hid).1, (mem_due.mp hid).2.tail ⟨htarget, hin⟩⟩

/-- Further marks leave what is due as it was exactly if none of it is marked. -/
theorem due_eq_iff (h : v'.unmarked ⊆ v.unmarked) : v'.due g o root = v.due g o root ↔
    Disjoint (v.due g o root) (v.unmarked \ v'.unmarked) := by
  constructor
  · intro hsame
    rw [← hsame]
    exact Finset.disjoint_of_subset_left (v'.due_subset g o root) Finset.disjoint_sdiff
  · intro hnone
    have hopen : v.due g o root ⊆ v'.unmarked := fun id hid => by
      by_contra hmarked
      exact Finset.disjoint_left.mp hnone hid
        (Finset.mem_sdiff.mpr ⟨v.due_subset g o root hid, hmarked⟩)
    refine (due_mono h).antisymm fun id hid => ?_
    -- all that lies on the way is due as well, so none of it has been marked
    obtain ⟨hroot, hway⟩ := mem_due.mp hid
    refine mem_due.mpr ⟨hopen (mem_due.mpr ⟨hroot, .refl⟩), ?_⟩
    clear hid
    induction hway with
    | refl => exact .refl
    | tail hway hstep ih =>
      exact ih.tail ⟨hstep.1, hopen (mem_due.mpr ⟨hroot, hway.tail hstep⟩)⟩

end Visited

namespace SizeEstimator

variable {e : SizeEstimator} {root : NodeId} {visited : Visited}

/-- A root that is marked costs nothing. -/
theorem estimateWith_marked (e : SizeEstimator) (g : Graph) (h : root ∉ visited.unmarked) :
    e.estimateWith g root visited = (.ok 0, visited, e) := by
  have hcontains : visited.contains root = true := by
    rwa [Visited.mem_unmarked, Bool.not_eq_false] at h
  have hdrain (fuel : Nat) (w : Walk) : w.drain e.options g fuel [] 0 = (.ok 0, w) := by
    cases fuel <;> rfl
  simp only [estimateWith, Walk.push, hcontains, if_true, hdrain]

/-- What an estimate comes to. It takes and marks what is due, each value once; or it has marked
some of that, the root and a value that cannot be read among it. -/
inductive Answers (e : SizeEstimator) (g : Graph) (root : NodeId) (visited : Visited) :
    Except Fault UInt64 × Visited × SizeEstimator → Prop
  | charged {bytes : UInt64} {visited' : Visited} {e' : SizeEstimator} {taken : List NodeId} :
      e'.Usable → e'.options = e.options →
      e.Trail g root visited taken (.ok bytes, visited', e') → taken.Nodup →
      taken.toFinset = visited.due g e.options root →
      visited'.unmarked = visited.unmarked \ visited.due g e.options root →
      (∀ id ∈ visited.due g e.options root, g.Readable id) →
      ((∀ id ∈ visited.due g e.options root, g.sampled? e.options id = none) →
        bytes = ∑ id ∈ visited.due g e.options root, g.price e.options id) →
      Answers e g root visited (.ok bytes, visited', e')
  | failed {fault : Fault} {visited' : Visited} {e' : SizeEstimator} :
      e'.Usable → e'.options = e.options →
      visited'.unmarked ⊆ visited.unmarked →
      visited.unmarked \ visited'.unmarked ⊆ visited.due g e.options root →
      root ∈ visited.unmarked \ visited'.unmarked →
      (∃ id ∈ visited.unmarked \ visited'.unmarked, ¬ g.Readable id) →
      Answers e g root visited (.error fault, visited', e')

/-- Every estimate comes to the end of a trail, which takes each value once. -/
theorem exists_takes (he : e.Usable) (g : Graph) (root : NodeId) (visited : Visited) :
    ∃ taken, e.Trail g root visited taken (e.estimateWith g root visited) ∧
      Walk.Takes e.options ⟨visited, e.layouts⟩ [] taken ((e.estimateWith g root visited).1,
        ⟨(e.estimateWith g root visited).2.1, (e.estimateWith g root visited).2.2.layouts⟩) := by
  let start : Walk := ⟨visited, e.layouts⟩
  have hpushed := Walk.push_pushed start [] root
  have hstart := Walk.push_extends (w := start) he.sound [] root
  have hfuel : (start.push [] root).1.length + (start.push [] root).2.unmarked.card ≤
      visited.marks.size := by
    rw [hpushed.balance, List.length_nil, Nat.zero_add]
    exact visited.card_unmarked_le
  obtain ⟨taken, htrail⟩ := Walk.exists_trail (g := g) he.valid visited.marks.size
    (start.push [] root).1 0 (start.push [] root).2 hstart.sound hfuel
  exact ⟨taken, htrail, Walk.Takes.pushed hpushed
    (htrail.takes he.valid hstart.sound ((Walk.Stacked.nil start).pushed hpushed))⟩

section Trails

variable {taken : List NodeId} {outcome : Except Fault UInt64 × Visited × SizeEstimator}

/-- The root of an estimate is marked in the end. -/
theorem Trail.root_marked (he : e.Usable) (htrail : e.Trail g root visited taken outcome) :
    root ∉ outcome.2.1.unmarked := fun hlast =>
  (Walk.push_pushed ⟨visited, e.layouts⟩ [] root).marked root List.mem_cons_self
    ((Walk.Trail.later he.valid htrail
      (Walk.push_extends (w := ⟨visited, e.layouts⟩) he.sound [] root).sound).shrinks hlast)

/-- Nothing is marked that is not due, also when a fault ends the estimate. -/
theorem Trail.marks_due (he : e.Usable) (htrail : e.Trail g root visited taken outcome) :
    visited.unmarked \ outcome.2.1.unmarked ⊆ visited.due g e.options root := by
  let start : Walk := ⟨visited, e.layouts⟩
  let finish : Walk := ⟨outcome.2.1, outcome.2.2.layouts⟩
  have hpushed := Walk.push_pushed start [] root
  have hstart := Walk.push_extends (w := start) he.sound [] root
  have hwalk : Walk.Trail e.options g (.stack (start.push [] root).1) 0 (start.push [] root).2 taken
      (outcome.1, finish) := htrail
  have hless := (hwalk.later he.valid hstart.sound).shrinks
  have hself : ∀ id ∈ Walk.newMarks start (start.push [] root).2,
      id ∈ visited.due g e.options root := by
    intro id hid
    obtain rfl := List.mem_singleton.mp (hpushed.newMarks_subset hid)
    exact Visited.mem_due.mpr ⟨(Walk.mem_newMarks.mp hid).1, .refl⟩
  have hstack := hpushed.forall_stack (List.forall_mem_nil _) hself
  have hspread := hwalk.spreads he.valid
    (fun _ hid _ htarget hin => Visited.due_step hid htarget hin) hstart.sound
    (Finset.sdiff_subset.trans hstart.shrinks) hstack (List.forall_mem_nil _)
  show Walk.newMarks start finish ⊆ _
  rw [Walk.newMarks_trans hstart.shrinks hless]
  exact Finset.forall_mem_union.mpr ⟨hself, hspread⟩

/-- An estimate that no fault ends marks all that is due. The induction is on the way from the
root: what has been taken is expanded in the end. -/
theorem Trail.due_marked (he : e.Usable) (htrail : e.Trail g root visited taken outcome)
    {bytes : UInt64} (hok : outcome.1 = .ok bytes)
    (hall : ∀ id ∈ visited.unmarked \ outcome.2.1.unmarked, id ∈ taken) :
    visited.due g e.options root ⊆ visited.unmarked \ outcome.2.1.unmarked := by
  have hstart := Walk.push_extends (w := ⟨visited, e.layouts⟩) he.sound [] root
  obtain ⟨hexpanded, -⟩ := Walk.Trail.expanded he.valid htrail hstart.sound hok
  intro id hid
  obtain ⟨hroot, hway⟩ := Visited.mem_due.mp hid
  clear hid
  induction hway with
  | refl => exact Finset.mem_sdiff.mpr ⟨hroot, htrail.root_marked he⟩
  | tail _ hstep ih =>
    exact Finset.mem_sdiff.mpr ⟨hstep.2, (hexpanded _ (hall _ ih)).2 _ hstep.1⟩

end Trails

theorem estimateWith_answers (he : e.Usable) (g : Graph) (root : NodeId) (visited : Visited) :
    Answers e g root visited (e.estimateWith g root visited) := by
  obtain ⟨taken, htrail, htakes⟩ := exists_takes he g root visited
  have hoptions : (e.estimateWith g root visited).2.2.options = e.options := rfl
  have hstart := Walk.push_extends (w := ⟨visited, e.layouts⟩) he.sound [] root
  have hdue := htrail.marks_due he
  have hmarked := htrail.root_marked he
  generalize houtcome : e.estimateWith g root visited = outcome
    at htrail htakes hoptions hdue hmarked
  obtain ⟨result, visited', e'⟩ := outcome
  have hoptions : e'.options = e.options := hoptions
  have he' : e'.Usable := by
    constructor
    · rw [hoptions]
      exact he.valid
    · rw [Sound, hoptions]
      exact htakes.later.sound
  have hsource : ∀ id ∈ taken, id ∈ visited.unmarked \ visited'.unmarked := fun id hid =>
    (htakes.source id hid).resolve_left List.not_mem_nil
  have hless : visited'.unmarked ⊆ visited.unmarked := htakes.later.shrinks
  cases result with
  | ok bytes =>
    have hall : ∀ id ∈ visited.unmarked \ visited'.unmarked, id ∈ taken := fun id hid =>
      htakes.all bytes rfl id (.inr hid)
    have hsame := hdue.antisymm (htrail.due_marked he rfl hall)
    have htaken : taken.toFinset = visited.due g e.options root := by
      rw [← hsame]
      ext id
      rw [List.mem_toFinset]
      exact ⟨hsource id, hall id⟩
    have hmem : ∀ id ∈ visited.due g e.options root, id ∈ taken := fun id hid =>
      List.mem_toFinset.mp (htaken ▸ hid)
    refine .charged he' hoptions htrail htakes.nodup htaken ?_ (fun id hid => ?_) fun hwalked => ?_
    · rw [← hsame, Finset.sdiff_sdiff_eq_self hless]
    · exact ((Walk.Trail.expanded he.valid htrail hstart.sound rfl).1 id (hmem id hid)).1
    · rw [Walk.Trail.sum_prices he.valid htrail hstart.sound
        (fun id hid => hwalked id (htaken ▸ List.mem_toFinset.mpr hid)) rfl, UInt64.zero_add,
        ← htaken, List.sum_toFinset _ htakes.nodup]
  | error fault =>
    obtain ⟨id, hid, hunreadable⟩ := Walk.Trail.unreadable he.valid htrail hstart.sound rfl
    refine .failed he' hoptions hless hdue (Finset.mem_sdiff.mpr ⟨?_, hmarked⟩)
      ⟨id, hsource id hid, hunreadable⟩
    by_contra hroot
    rw [e.estimateWith_marked g hroot] at houtcome
    cases houtcome

/-- An estimate takes no mark away and leaves an estimator with the same options. -/
theorem Answers.keeps {outcome : Except Fault UInt64 × Visited × SizeEstimator}
    (h : Answers e g root visited outcome) : outcome.2.2.Usable ∧
      outcome.2.2.options = e.options ∧ outcome.2.1.unmarked ⊆ visited.unmarked := by
  cases h with
  | charged he' hoptions _ _ _ hmarks => exact ⟨he', hoptions, hmarks ▸ Finset.sdiff_subset⟩
  | failed he' hoptions hless => exact ⟨he', hoptions, hless⟩

/-- An estimate ends without a fault exactly if all that is due can be read. -/
theorem Answers.ok_iff {outcome : Except Fault UInt64 × Visited × SizeEstimator}
    (h : Answers e g root visited outcome) : (∃ bytes, outcome.1 = .ok bytes) ↔
      ∀ id ∈ visited.due g e.options root, g.Readable id := by
  cases h with
  | @charged bytes _ _ _ _ _ _ _ _ _ hread => exact ⟨fun _ => hread, fun _ => ⟨bytes, rfl⟩⟩
  | failed _ _ _ hdue _ hfault =>
    obtain ⟨id, hid, hunreadable⟩ := hfault
    exact ⟨nofun, fun hread => absurd (hread id (hdue hid)) hunreadable⟩

theorem estimateAll_keeps (he : e.Usable) (g : Graph) (roots : List NodeId) (visited : Visited) :
    (e.estimateAll g roots visited).2.2.Usable ∧
      (e.estimateAll g roots visited).2.2.options = e.options ∧
      (e.estimateAll g roots visited).2.1.unmarked ⊆ visited.unmarked := by
  induction roots generalizing e visited with
  | nil => exact ⟨he, rfl, Finset.Subset.refl _⟩
  | cons root roots ih =>
    obtain ⟨he', hoptions, hless⟩ := (estimateWith_answers he g root visited).keeps
    obtain ⟨hlater, hsame, hrest⟩ := ih he' (e.estimateWith g root visited).2.1
    exact ⟨hlater, hsame.trans hoptions, hrest.trans hless⟩

end SizeEstimator

end ShuffleBuffer.Estimate
