import ShuffleBuffer.Proofs.Prices

/-! # Zones of a walk

A walk charges a value either on its own stack or within the sample of a sequence, whichever comes
to it first. Where each value belongs to one zone, outside of all samples or within the sample of
one sequence, nothing depends on which way is taken first: a zone is charged as a whole, and what is
charged within a sample is scaled up once. Only values by which every way to a sequence comes may be
met from within its sample, too, since these are marked by then. -/

namespace ShuffleBuffer.Estimate

open Relation

variable {g : Graph} {o : EstimatorOptions} {root : NodeId} {zone : NodeId → Option NodeId}

namespace Graph

/-- A way of a walk from one value to another. -/
def Meets (g : Graph) (o : EstimatorOptions) : NodeId → NodeId → Prop :=
  ReflTransGen fun id target => target ∈ g.leads o id

/-- Every way of a walk from the root to a value comes by `outer`. -/
def Encloses (g : Graph) (o : EstimatorOptions) (root outer id : NodeId) : Prop :=
  root = outer ∨ ¬ ReflTransGen (fun id target => target ∈ g.leads o id ∧ target ≠ outer) root id

/-- The zone of what a value leads to: the sample of a sequence that is sampled, else its own. -/
def zoneBelow (g : Graph) (o : EstimatorOptions) (zone : NodeId → Option NodeId) (id : NodeId) :
    Option NodeId :=
  if (g.sampled? o id).isSome then some id else zone id

/-- Every value that a walk meets is met in one zone: outside of all samples, or within the sample
of one sequence. Values that enclose this sequence may be met there as well. -/
structure Zoned (g : Graph) (o : EstimatorOptions) (root : NodeId)
    (zone : NodeId → Option NodeId) : Prop where
  outside : zone root = none
  step : ∀ id, g.Meets o root id → ∀ target ∈ g.leads o id, zone target = g.zoneBelow o zone id ∨
    ∃ s, g.zoneBelow o zone id = some s ∧ g.Encloses o root target s

/-- A way from one value to another that stays in a zone, and does not lead into a sample. -/
def Within (g : Graph) (o : EstimatorOptions) (zone : NodeId → Option NodeId)
    (z : Option NodeId) : NodeId → NodeId → Prop :=
  ReflTransGen fun id target => g.sampled? o id = none ∧ target ∈ g.leads o id ∧ zone target = z

open Classical in
/-- What is met in a zone that is entered at these values. -/
noncomputable def region (g : Graph) (o : EstimatorOptions) (zone : NodeId → Option NodeId)
    (z : Option NodeId) (starts : List NodeId) : Finset NodeId :=
  (Finset.range g.nodes.size).filter fun id =>
    ∃ start ∈ starts, zone start = z ∧ g.Within o zone z start id

/-- What a value adds to its zone: its price, and for a sequence that is sampled what its sample is
scaled up to, as far as samples are nested. -/
noncomputable def weigh (g : Graph) (o : EstimatorOptions) (zone : NodeId → Option NodeId) :
    Nat → NodeId → UInt64
  | 0, id => g.price o id
  | depth + 1, id =>
      match g.sampled? o id with
      | none => g.price o id
      | some elements => g.price o id + o.extrapolate elements.size.toUInt64
          (∑ member ∈ g.region o zone (some id) (g.leads o id), g.weigh o zone depth member)

/-- What a value adds to this zone. -/
noncomputable def weighIn (g : Graph) (o : EstimatorOptions) (zone : NodeId → Option NodeId)
    (z : Option NodeId) (depth : Nat) (id : NodeId) : UInt64 :=
  if zone id = z then g.weigh o zone depth id else 0

theorem mem_region {z : Option NodeId} {starts : List NodeId} {id : NodeId} :
    id ∈ g.region o zone z starts ↔ id < g.nodes.size ∧
      ∃ start ∈ starts, zone start = z ∧ g.Within o zone z start id := by
  simp [region]

theorem weigh_walked {id : NodeId} (h : g.sampled? o id = none) (depth : Nat) :
    g.weigh o zone depth id = g.price o id := by
  cases depth with
  | zero => rfl
  | succ depth => simp only [weigh, h]

theorem zoneBelow_walked {id : NodeId} (h : g.sampled? o id = none) :
    g.zoneBelow o zone id = zone id := by
  rw [zoneBelow, h]
  rfl

theorem zoneBelow_sampled {id : NodeId} {elements : Array NodeId}
    (h : g.sampled? o id = some elements) : g.zoneBelow o zone id = some id := by
  rw [zoneBelow, h]
  rfl

/-- A way within a zone ends in it. -/
theorem Within.zone_eq {z : Option NodeId} {start id : NodeId} (hstart : zone start = z)
    (hway : g.Within o zone z start id) : zone id = z := by
  cases hway with
  | refl => exact hstart
  | tail _ hstep => exact hstep.2.2

end Graph

namespace Walk

variable {w w' w'' : Walk} {z : Option NodeId} {pending pending' ids starts : List NodeId}

theorem Pushed.mem_ids (h : Pushed ids w pending w' pending') {id : NodeId}
    (hin : id ∈ w.unmarked) (hout : id ∉ w'.unmarked) : id ∈ ids := by
  obtain ⟨⟨fresh, -, -, hmem, hfresh⟩, -, -⟩ := h
  refine hmem id (List.mem_toFinset.mp ?_)
  rw [hfresh]
  exact Finset.mem_sdiff.mpr ⟨hin, hout⟩

/-- What lies on the stack lay there before or was marked now. -/
theorem Pushed.mem_stack (h : Pushed ids w pending w' pending') {id : NodeId}
    (hid : id ∈ pending') : id ∈ pending ∨ (id ∈ w.unmarked ∧ id ∉ w'.unmarked) := by
  obtain ⟨⟨fresh, rfl, -, -, hfresh⟩, -, -⟩ := h
  refine (List.mem_append.mp hid).symm.imp_right fun hnew => Finset.mem_sdiff.mp ?_
  rw [← hfresh]
  exact List.mem_toFinset.mpr hnew

theorem Pushed.mem_of_mem (h : Pushed ids w pending w' pending') {id : NodeId}
    (hid : id ∈ pending) : id ∈ pending' := by
  obtain ⟨⟨fresh, rfl, -, -, -⟩, -, -⟩ := h
  exact List.mem_append_right _ hid

/-! ## Marks lie together -/

/-- Whatever is marked is met from the root through values that are marked. -/
structure Joined (g : Graph) (o : EstimatorOptions) (root : NodeId) (w : Walk) : Prop where
  inGraph : w.unmarked ⊆ Finset.range g.nodes.size
  rooted : root ∉ w.unmarked
  way : ∀ id < g.nodes.size, id ∉ w.unmarked →
    ReflTransGen (fun id target => target ∈ g.leads o id ∧ target ∉ w.unmarked) root id

theorem Joined.meets (h : w.Joined g o root) {id : NodeId} (hid : id < g.nodes.size)
    (hmarked : id ∉ w.unmarked) : g.Meets o root id :=
  ReflTransGen.mono (fun _ _ hstep => hstep.1) _ _ (h.way id hid hmarked)

/-- What encloses a marked value is marked. -/
theorem Joined.marked_of_encloses (h : w.Joined g o root) {outer id : NodeId}
    (hid : id < g.nodes.size) (hmarked : id ∉ w.unmarked) (houter : g.Encloses o root outer id) :
    outer ∉ w.unmarked := by
  intro hin
  obtain rfl | hnone := houter
  · exact h.rooted hin
  · refine hnone (ReflTransGen.mono (fun _ _ hstep => ⟨hstep.1, ?_⟩) _ _ (h.way id hid hmarked))
    rintro rfl
    exact hstep.2 hin

theorem Joined.pushed (h : w.Joined g o root) {parent : NodeId} (hparent : parent < g.nodes.size)
    (hmarked : parent ∉ w.unmarked) (hids : ∀ id ∈ ids, id ∈ g.leads o parent)
    (hpushed : Pushed ids w pending w' pending') : w'.Joined g o root := by
  have hmono : ∀ {id}, ReflTransGen (fun id target => target ∈ g.leads o id ∧ target ∉ w.unmarked)
      root id →
      ReflTransGen (fun id target => target ∈ g.leads o id ∧ target ∉ w'.unmarked) root id :=
    ReflTransGen.mono (fun _ _ hstep => ⟨hstep.1, fun hin => hstep.2 (hpushed.shrinks hin)⟩) _ _
  refine ⟨hpushed.shrinks.trans h.inGraph, fun hin => h.rooted (hpushed.shrinks hin),
    fun id hid hout => ?_⟩
  by_cases hin : id ∈ w.unmarked
  · exact (hmono (h.way parent hparent hmarked)).tail ⟨hids id (hpushed.mem_ids hin hout), hout⟩
  · exact hmono (h.way id hid hin)

/-! ## Before a walk through a zone -/

/-- A stack in a zone: what lies on it is of this zone, and nothing is marked yet of the samples of
what lies there or is still to be marked. -/
structure Ready (g : Graph) (o : EstimatorOptions) (root : NodeId)
    (zone : NodeId → Option NodeId) (z : Option NodeId) (pending : List NodeId) (w : Walk) :
    Prop where
  sound : w.SoundFor o
  joined : w.Joined g o root
  stacked : ∀ id ∈ pending, id < g.nodes.size ∧ id ∉ w.unmarked ∧ zone id = z
  nodup : pending.Nodup
  fresh : ∀ id < g.nodes.size, id ∉ w.unmarked → ∀ s, zone id = some s →
    s ∉ pending ∧ s ∉ w.unmarked
  opened : ∀ s, z = some s → s < g.nodes.size ∧ s ∉ w.unmarked ∧ s ∉ pending

/-- The top of the stack is taken away. -/
theorem Ready.pop {id : NodeId} (h : Ready g o root zone z (id :: pending) w) :
    Ready g o root zone z pending w where
  sound := h.sound
  joined := h.joined
  stacked other hother := h.stacked other (List.mem_cons_of_mem _ hother)
  nodup := (List.nodup_cons.mp h.nodup).2
  fresh other hother hmarked s hs :=
    have ⟨hstack, hlate⟩ := h.fresh other hother hmarked s hs
    ⟨fun hin => hstack (List.mem_cons_of_mem _ hin), hlate⟩
  opened s hs :=
    have ⟨hsize, hmarked, hstack⟩ := h.opened s hs
    ⟨hsize, hmarked, fun hin => hstack (List.mem_cons_of_mem _ hin)⟩

/-- What is pushed from within a zone is of this zone: all else that the value leads to encloses
the sequence of the sample, and is marked. -/
theorem Ready.zone_of_pushed (h : Ready g o root zone z pending w)
    (hzoned : g.Zoned o root zone) {parent id : NodeId} (hparent : parent < g.nodes.size)
    (hmarked : parent ∉ w.unmarked) (hbelow : g.zoneBelow o zone parent = z)
    (hid : id ∈ g.leads o parent) (hin : id ∈ w.unmarked) : zone id = z := by
  obtain hsame | ⟨s, hs, houter⟩ := hzoned.step parent (h.joined.meets hparent hmarked) id hid
  · exact hsame.trans hbelow
  · obtain ⟨hsize, hopen, -⟩ := h.opened s (hbelow.symm.trans hs)
    exact absurd hin (h.joined.marked_of_encloses hsize hopen houter)

theorem Ready.pushed (h : Ready g o root zone z pending w) (hzoned : g.Zoned o root zone)
    {parent : NodeId} (hparent : parent < g.nodes.size) (hmarked : parent ∉ w.unmarked)
    (hbelow : g.zoneBelow o zone parent = z) (hids : ∀ id ∈ ids, id ∈ g.leads o parent)
    (hpushed : Pushed ids w pending w' pending') (hsound : w'.SoundFor o) :
    Ready g o root zone z pending' w' := by
  have hnew : ∀ {id}, id ∈ w.unmarked → id ∉ w'.unmarked → zone id = z := fun hin hout =>
    h.zone_of_pushed hzoned hparent hmarked hbelow (hids _ (hpushed.mem_ids hin hout)) hin
  have haside : ∀ {s}, s ∉ pending → s ∉ w.unmarked → s ∉ pending' ∧ s ∉ w'.unmarked :=
    fun hold hlate => ⟨fun hin => (hpushed.mem_stack hin).elim hold fun hnew => hlate hnew.1,
      fun hin => hlate (hpushed.shrinks hin)⟩
  refine ⟨hsound, h.joined.pushed hparent hmarked hids hpushed, fun id hid => ?_, ?_,
    fun id hid hout s hs => ?_, fun s hs => ?_⟩
  · obtain hold | ⟨hin, hout⟩ := hpushed.mem_stack hid
    · obtain ⟨hsize, hout, hzone⟩ := h.stacked id hold
      exact ⟨hsize, fun hin => hout (hpushed.shrinks hin), hzone⟩
    · exact ⟨Finset.mem_range.mp (h.joined.inGraph hin), hout, hnew hin hout⟩
  · obtain ⟨⟨fresh, rfl, hnodup, -, hfresh⟩, -, -⟩ := hpushed
    refine List.nodup_append.mpr ⟨hnodup, h.nodup, ?_⟩
    rintro id hlate _ hold rfl
    have hin := Finset.mem_sdiff.mp (hfresh ▸ List.mem_toFinset.mpr hlate)
    exact (h.stacked id hold).2.1 hin.1
  · by_cases hin : id ∈ w.unmarked
    · obtain ⟨-, hlate, hold⟩ := h.opened s ((hnew hin hout).symm.trans hs)
      exact haside hold hlate
    · obtain ⟨hold, hlate⟩ := h.fresh id hid hin s hs
      exact haside hold hlate
  · obtain ⟨hsize, hlate, hold⟩ := h.opened s hs
    obtain ⟨hold', hlate'⟩ := haside hold hlate
    exact ⟨hsize, hlate', hold'⟩

/-! ## After a walk through a zone -/

/-- All that a value leads to is marked. -/
def Expanded (g : Graph) (o : EstimatorOptions) (w : Walk) (id : NodeId) : Prop :=
  ∀ target ∈ g.leads o id, target ∉ w.unmarked

/-- A value within the sample of a sequence that lay on this stack or was marked between. -/
def Sampled (zone : NodeId → Option NodeId) (pending : List NodeId) (w w' : Walk) (id : NodeId) :
    Prop :=
  ∃ s, zone id = some s ∧ (s ∈ pending ∨ (s ∈ w.unmarked ∧ s ∉ w'.unmarked))

/-- What a walk through a zone has marked, from what lay on the stack and other starts: values of
the zone, and such as belong to samples of sequences that it came to. -/
structure Settled (g : Graph) (o : EstimatorOptions) (root : NodeId)
    (zone : NodeId → Option NodeId) (z : Option NodeId) (starts pending : List NodeId)
    (w w' : Walk) : Prop where
  shrinks : w'.unmarked ⊆ w.unmarked
  ready : Ready g o root zone z [] w'
  marked : ∀ id ∈ starts, id ∉ w'.unmarked
  expanded : ∀ id ∈ pending, w'.Expanded g o id
  since : ∀ id ∈ w.unmarked, id ∉ w'.unmarked →
    (zone id = z ∧ w'.Expanded g o id ∧
      ∃ start ∈ starts, zone start = z ∧ g.Within o zone z start id) ∨
    Sampled zone pending w w' id

theorem Expanded.later {id : NodeId} (h : w.Expanded g o id)
    (hless : w'.unmarked ⊆ w.unmarked) : w'.Expanded g o id :=
  fun target htarget hin => h target htarget (hless hin)

/-- A part of a longer walk: what lay on its stack lay on that of the whole or was marked before. -/
theorem Sampled.mono {v v' : Walk} {id : NodeId} (h : Sampled zone pending' w w' id)
    (hless : w.unmarked ⊆ v.unmarked) (hless' : v'.unmarked ⊆ w'.unmarked)
    (hstack : ∀ s ∈ pending', s ∈ pending ∨ (s ∈ v.unmarked ∧ s ∉ v'.unmarked)) :
    Sampled zone pending v v' id := by
  obtain ⟨s, hs, hold | ⟨hin, hout⟩⟩ := h
  · exact ⟨s, hs, hstack s hold⟩
  · exact ⟨s, hs, .inr ⟨hless hin, fun hlate => hout (hless' hlate)⟩⟩

/-- Where there was no stack, the sequence was marked between. -/
theorem Sampled.between {s id : NodeId} (h : Sampled zone [] w w' id) (hs : zone id = some s) :
    s ∈ w.unmarked ∧ s ∉ w'.unmarked := by
  obtain ⟨s', hs', hnone | hnew⟩ := h
  · cases hnone
  · obtain rfl : s = s' := Option.some.inj (hs.symm.trans hs')
    exact hnew

/-- Nothing is left to do. -/
theorem Ready.settled (h : Ready g o root zone z [] w) : Settled g o root zone z [] [] w w where
  shrinks := Finset.Subset.refl _
  ready := h
  marked := List.forall_mem_nil _
  expanded := List.forall_mem_nil _
  since _ hin hout := absurd hin hout

/-- A value that is walked, and then what it leads to. -/
theorem Settled.walked {id : NodeId} (hready : Ready g o root zone z (id :: pending) w)
    (hzoned : g.Zoned o root zone) (hwalked : g.sampled? o id = none)
    (hpushed : Pushed (g.leads o id) w pending w' pending')
    (hrest : Settled g o root zone z pending' pending' w' w'') :
    Settled g o root zone z (id :: pending) (id :: pending) w w'' := by
  obtain ⟨hsize, hmarked, hzone⟩ := hready.stacked id List.mem_cons_self
  have hnew : ∀ {late}, late ∈ w.unmarked → late ∉ w'.unmarked → late ∈ g.leads o id ∧
      zone late = z := fun hin hout =>
    have hid := hpushed.mem_ids hin hout
    ⟨hid, hready.pop.zone_of_pushed hzoned hsize hmarked
      ((Graph.zoneBelow_walked hwalked).trans hzone) hid hin⟩
  have hself : w''.Expanded g o id := fun target htarget hin =>
    hpushed.marked target htarget (hrest.shrinks hin)
  refine ⟨hrest.shrinks.trans hpushed.shrinks, hrest.ready, fun late hlate => ?_,
    fun late hlate => ?_, fun late hin hout => ?_⟩
  · obtain rfl | hold := List.mem_cons.mp hlate
    · exact fun hin => hmarked (hpushed.shrinks (hrest.shrinks hin))
    · exact hrest.marked late (hpushed.mem_of_mem hold)
  · obtain rfl | hold := List.mem_cons.mp hlate
    · exact hself
    · exact hrest.expanded late (hpushed.mem_of_mem hold)
  · by_cases hthen : late ∈ w'.unmarked
    · obtain ⟨hlate, hexpanded, start, hstart, hstartzone, hway⟩ | hbelow :=
        hrest.since late hthen hout
      · refine .inl ⟨hlate, hexpanded, ?_⟩
        obtain hold | ⟨hin', hout'⟩ := hpushed.mem_stack hstart
        · exact ⟨start, List.mem_cons_of_mem _ hold, hstartzone, hway⟩
        · exact ⟨id, List.mem_cons_self, hzone,
            .head ⟨hwalked, (hnew hin' hout').1, hstartzone⟩ hway⟩
      · exact .inr (hbelow.mono hpushed.shrinks subset_rfl fun s hs =>
          (hpushed.mem_stack hs).imp (List.mem_cons_of_mem _) fun hnew =>
            ⟨hnew.1, fun hlast => hnew.2 (hrest.shrinks hlast)⟩)
    · obtain ⟨hid, hlate⟩ := hnew hin hthen
      exact .inl ⟨hlate, hrest.expanded late (hpushed.mem_of_marked hin hthen), id,
        List.mem_cons_self, hzone, .single ⟨hwalked, hid, hlate⟩⟩

/-- Before the sample of a sequence is walked, nothing is marked of it. -/
theorem Ready.enter {s : NodeId} (h : Ready g o root zone z (s :: pending) w) :
    Ready g o root zone (some s) [] w := by
  obtain ⟨hsize, hmarked, -⟩ := h.stacked s List.mem_cons_self
  refine ⟨h.sound, h.joined, List.forall_mem_nil _, List.nodup_nil,
    fun id hid hout s' hs' => ⟨List.not_mem_nil, (h.fresh id hid hout s' hs').2⟩, ?_⟩
  rintro _ ⟨⟩
  exact ⟨hsize, hmarked, List.not_mem_nil⟩

/-- The sample of a sequence has been walked; the stack below is as it was. -/
theorem Ready.resume {s : NodeId} (hready : Ready g o root zone z (s :: pending) w)
    (hsample : Settled g o root zone (some s) starts [] w w') :
    Ready g o root zone z pending w' := by
  obtain ⟨-, hmarked, -⟩ := hready.stacked s List.mem_cons_self
  obtain ⟨hother, hnodup⟩ := List.nodup_cons.mp hready.nodup
  have hpop := hready.pop
  refine ⟨hsample.ready.sound, hsample.ready.joined, fun id hid => ?_, hnodup,
    fun id hid hout s' hs' => ?_, fun s' hs' => ?_⟩
  · obtain ⟨hsize, hout, hzone⟩ := hpop.stacked id hid
    exact ⟨hsize, fun hin => hout (hsample.shrinks hin), hzone⟩
  · by_cases hin : id ∈ w.unmarked
    · obtain ⟨hzone, -⟩ | hbelow := hsample.since id hin hout
      · obtain rfl : s = s' := Option.some.inj (hzone.symm.trans hs')
        exact ⟨hother, fun hlate => hmarked (hsample.shrinks hlate)⟩
      · obtain ⟨hin', hout'⟩ := hbelow.between hs'
        exact ⟨fun hold => (hpop.stacked _ hold).2.1 hin', hout'⟩
    · obtain ⟨hold, hlate⟩ := hpop.fresh id hid hin s' hs'
      exact ⟨hold, fun hin' => hlate (hsample.shrinks hin')⟩
  · obtain ⟨hsize, hlate, hold⟩ := hpop.opened s' hs'
    exact ⟨hsize, fun hin => hlate (hsample.shrinks hin), hold⟩

/-- A sequence that is sampled, and then the stack below. -/
theorem Settled.sampled {s : NodeId} (hready : Ready g o root zone z (s :: pending) w)
    (hsample : Settled g o root zone (some s) (g.leads o s) [] w w')
    (hrest : Settled g o root zone z pending pending w' w'') :
    Settled g o root zone z (s :: pending) (s :: pending) w w'' := by
  have hless := hrest.shrinks.trans hsample.shrinks
  refine ⟨hless, hrest.ready, fun id hid hin => ?_, fun id hid => ?_, fun id hin hout => ?_⟩
  · exact (hready.stacked id hid).2.1 (hless hin)
  · obtain rfl | hold := List.mem_cons.mp hid
    · exact fun target htarget hin => hsample.marked target htarget (hrest.shrinks hin)
    · exact hrest.expanded id hold
  · by_cases hthen : id ∈ w'.unmarked
    · obtain ⟨hzone, hexpanded, start, hstart, hway⟩ | hbelow := hrest.since id hthen hout
      · exact .inl ⟨hzone, hexpanded, start, List.mem_cons_of_mem _ hstart, hway⟩
      · exact .inr (hbelow.mono hsample.shrinks subset_rfl fun s' hs' =>
          .inl (List.mem_cons_of_mem _ hs'))
    · obtain ⟨hzone, -⟩ | hbelow := hsample.since id hin hthen
      · exact .inr ⟨s, hzone, .inl List.mem_cons_self⟩
      · exact .inr (hbelow.mono subset_rfl hrest.shrinks (List.forall_mem_nil _))

/-- One drawn element, and then the others. -/
theorem Settled.drawn {s id : NodeId}
    (hzone : ∀ late, late ∈ w.unmarked → late ∉ w'.unmarked → zone late = some s)
    (hpushed : Pushed [id] w [] w' pending')
    {w₁ : Walk} (hone : Settled g o root zone (some s) pending' pending' w' w₁)
    (hrest : Settled g o root zone (some s) ids [] w₁ w'') :
    Settled g o root zone (some s) (id :: ids) [] w w'' := by
  have hless := hrest.shrinks.trans hone.shrinks
  refine ⟨hless.trans hpushed.shrinks, hrest.ready, fun late hlate => ?_,
    List.forall_mem_nil _, fun late hin hout => ?_⟩
  · obtain rfl | hlater := List.mem_cons.mp hlate
    · exact fun hin => hpushed.marked _ List.mem_cons_self (hless hin)
    · exact hrest.marked late hlater
  · by_cases hthen : late ∈ w₁.unmarked
    · obtain ⟨hlate, hexpanded, start, hstart, hway⟩ | hbelow := hrest.since late hthen hout
      · exact .inl ⟨hlate, hexpanded, start, List.mem_cons_of_mem _ hstart, hway⟩
      · exact .inr (hbelow.mono (hone.shrinks.trans hpushed.shrinks) subset_rfl
          (List.forall_mem_nil _))
    · by_cases hfirst : late ∈ w'.unmarked
      · obtain ⟨hlate, hexpanded, start, hstart, hway⟩ | hbelow := hone.since late hfirst hthen
        · obtain rfl := List.mem_singleton.mp (hpushed.source hstart)
          exact .inl ⟨hlate, hexpanded.later hrest.shrinks, start, List.mem_cons_self, hway⟩
        · exact .inr (hbelow.mono hpushed.shrinks hrest.shrinks fun s' hs' =>
            (hpushed.mem_stack hs').imp_right fun hnew =>
              ⟨hnew.1, fun hlast => hnew.2 (hless hlast)⟩)
      · have hstacked := hpushed.mem_of_marked hin hfirst
        obtain rfl := List.mem_singleton.mp (hpushed.source hstacked)
        exact .inl ⟨hzone late hin hfirst, (hone.expanded late hstacked).later hrest.shrinks,
          late, List.mem_cons_self, hzone late hin hfirst, .refl⟩

/-! ## What a walk through a zone comes to -/

theorem sum_unmarked_trans {M : Type*} [AddCommMonoid M] (hless : w'.unmarked ⊆ w.unmarked)
    (hless' : w''.unmarked ⊆ w'.unmarked) (f : NodeId → M) :
    ∑ id ∈ w.unmarked \ w''.unmarked, f id =
      ∑ id ∈ w.unmarked \ w'.unmarked, f id + ∑ id ∈ w'.unmarked \ w''.unmarked, f id := by
  have hdisjoint : Disjoint (w.unmarked \ w'.unmarked) (w'.unmarked \ w''.unmarked) :=
    Finset.disjoint_of_subset_right Finset.sdiff_subset Finset.sdiff_disjoint
  rw [← Finset.sum_union hdisjoint, Finset.sdiff_union_sdiff_cancel hless hless']

/-- Where marked values of a zone are expanded, all ways within the zone are followed. -/
theorem marked_of_within {start id : NodeId} (hstart : start ∉ w.unmarked)
    (hexpanded : ∀ id < g.nodes.size, zone id = z → id ∉ w.unmarked → w.Expanded g o id)
    (hzone : zone start = z) (hway : g.Within o zone z start id) : id ∉ w.unmarked := by
  induction hway with
  | refl => exact hstart
  | @tail mid id hway hstep ih =>
    by_cases hsize : mid < g.nodes.size
    · exact hexpanded mid hsize (Graph.Within.zone_eq hzone hway) ih id hstep.2.1
    · have hnone := hstep.2.1
      rw [Graph.leads_of_ge (Nat.not_lt.mp hsize)] at hnone
      cases hnone

/-- What is marked while a sample is walked adds nothing to the zone of its sequence. -/
theorem sum_outside {s : NodeId} (hready : Ready g o root zone z (s :: pending) w)
    (hsample : Settled g o root zone (some s) starts [] w w') (depth : Nat) :
    ∑ id ∈ w.unmarked \ w'.unmarked, g.weighIn o zone z depth id = 0 := by
  refine Finset.sum_eq_zero fun id hid => if_neg fun hzone => ?_
  obtain ⟨hin, hout⟩ := Finset.mem_sdiff.mp hid
  obtain ⟨hs, -⟩ | ⟨s', hs', hnone | ⟨hin', -⟩⟩ := hsample.since id hin hout
  · exact (hready.opened s (hzone.symm.trans hs)).2.2 List.mem_cons_self
  · cases hnone
  · exact (hready.opened s' (hzone.symm.trans hs')).2.1 hin'

/-- A zone of which nothing was marked is charged as a whole: where its starts are marked, and what
is marked of it is met from them and expanded. -/
theorem sum_zone (hgraph : w.unmarked ⊆ Finset.range g.nodes.size)
    (hnew : ∀ id < g.nodes.size, zone id = z → id ∈ w.unmarked)
    (hmarked : ∀ start ∈ starts, start ∉ w'.unmarked)
    (hsince : ∀ id ∈ w.unmarked, id ∉ w'.unmarked → zone id = z → w'.Expanded g o id ∧
      ∃ start ∈ starts, zone start = z ∧ g.Within o zone z start id) (depth : Nat) :
    ∑ id ∈ w.unmarked \ w'.unmarked, g.weighIn o zone z depth id =
      ∑ id ∈ g.region o zone z starts, g.weigh o zone depth id := by
  simp only [Graph.weighIn, ← Finset.sum_filter]
  refine Finset.sum_congr ?_ fun _ _ => rfl
  ext id
  rw [Finset.mem_filter, Finset.mem_sdiff, Graph.mem_region]
  constructor
  · rintro ⟨⟨hin, hout⟩, hzone⟩
    exact ⟨Finset.mem_range.mp (hgraph hin), (hsince id hin hout hzone).2⟩
  · rintro ⟨hid, start, hstart, hstartzone, hway⟩
    have hzone := Graph.Within.zone_eq hstartzone hway
    refine ⟨⟨hnew id hid hzone, ?_⟩, hzone⟩
    exact marked_of_within (hmarked start hstart) (fun mid hmid hmidzone hout =>
      (hsince mid (hnew mid hmid hmidzone) hout hmidzone).1) hstartzone hway

/-- A sample is charged for all that is met in its zone. -/
theorem sum_sample {s : NodeId} (hready : Ready g o root zone z (s :: pending) w)
    (hsample : Settled g o root zone (some s) (g.leads o s) [] w w') (depth : Nat) :
    ∑ id ∈ w.unmarked \ w'.unmarked, g.weighIn o zone (some s) depth id =
      ∑ id ∈ g.region o zone (some s) (g.leads o s), g.weigh o zone depth id := by
  obtain ⟨-, hmarked, -⟩ := hready.stacked s List.mem_cons_self
  refine sum_zone hready.joined.inGraph (fun id hid hzone => ?_) hsample.marked
    (fun id hin hout hzone => ?_) depth
  · by_contra hout
    exact (hready.fresh id hid hout s hzone).1 List.mem_cons_self
  · obtain ⟨-, hlate⟩ | hbelow := hsample.since id hin hout
    · exact hlate
    · exact absurd (hbelow.between hzone).1 hmarked

/-- With this fuel, every walk through a zone charges what it marks there and what lay on its stack,
each with all that is charged in the samples below. -/
def Charges (g : Graph) (o : EstimatorOptions) (root : NodeId) (zone : NodeId → Option NodeId)
    (fuel : Nat) : Prop :=
  ∀ {z pending w}, Ready g o root zone z pending w →
    pending.length + w.unmarked.card ≤ fuel →
    ∃ w', Settled g o root zone z pending pending w w' ∧ ∀ size depth, fuel ≤ depth →
      drain o g fuel pending size w = (.ok (size + ((pending.map (g.weighIn o zone z depth)).sum +
        ∑ id ∈ w.unmarked \ w'.unmarked, g.weighIn o zone z depth id)), w')

theorem drainEach_zoned (hzoned : g.Zoned o root zone) {fuel : Nat}
    (hcharges : Charges g o root zone fuel) {s : NodeId} {elements : Array NodeId}
    (hsampled : g.sampled? o s = some elements) (ids : List NodeId)
    (hids : ∀ id ∈ ids, id ∈ g.leads o s) (hready : Ready g o root zone (some s) [] w)
    (hfuel : w.unmarked.card ≤ fuel) :
    ∃ w', Settled g o root zone (some s) ids [] w w' ∧ ∀ sum depth, fuel ≤ depth →
      drainEach (fun pending w => drain o g fuel pending 0 w) ids sum w =
        (.ok (sum + ∑ id ∈ w.unmarked \ w'.unmarked, g.weighIn o zone (some s) depth id), w') := by
  induction ids generalizing w with
  | nil => exact ⟨w, hready.settled, fun sum depth _ => by simp [drainEach]⟩
  | cons id ids ih =>
    obtain ⟨hid, hids⟩ := List.forall_mem_cons.mp hids
    obtain ⟨hsize, hmarked, -⟩ := hready.opened s rfl
    have hbelow : g.zoneBelow o zone s = some s := Graph.zoneBelow_sampled hsampled
    have hpushed := push_pushed w [] id
    have hsingle : ∀ late ∈ [id], late ∈ g.leads o s := fun late hlate =>
      List.mem_singleton.mp hlate ▸ hid
    have hpush := hready.pushed hzoned hsize hmarked hbelow hsingle hpushed
      (push_extends hready.sound [] id).sound
    obtain ⟨w₁, hone, hdrain⟩ := hcharges hpush (by rw [hpushed.balance]; simpa using hfuel)
    have hfewer : w₁.unmarked.card ≤ fuel :=
      (Finset.card_le_card (hone.shrinks.trans hpushed.shrinks)).trans hfuel
    obtain ⟨w', hrest, heach⟩ := ih hids hone.ready hfewer
    refine ⟨w', .drawn (fun late hin hout => ?_) hpushed hone hrest, fun sum depth hdepth => ?_⟩
    · exact hready.zone_of_pushed hzoned hsize hmarked hbelow
        (hsingle late (hpushed.mem_ids hin hout)) hin
    · rw [drainEach]
      dsimp only
      rw [hdrain 0 depth hdepth]
      dsimp only
      rw [heach _ depth hdepth, hpushed.sum_charges hone.shrinks,
        sum_unmarked_trans (hone.shrinks.trans hpushed.shrinks) hrest.shrinks, List.map_nil,
        List.sum_nil, zero_add, zero_add, add_assoc]

/-- In a graph of zones, walks charge zone by zone. -/
theorem charges_zoned (h : o.validate = .ok ()) (hzoned : g.Zoned o root zone)
    (hreadable : ∀ id, g.Meets o root id → g.Readable id) (fuel : Nat) :
    Charges g o root zone fuel := by
  induction fuel with
  | zero =>
    intro z pending w hready hfuel
    cases pending with
    | nil => exact ⟨w, hready.settled, fun size depth _ => by simp [drain]⟩
    | cons id pending => simp at hfuel
  | succ fuel ih =>
    intro z pending w hready hfuel
    cases pending with
    | nil => exact ⟨w, hready.settled, fun size depth _ => by simp [drain]⟩
    | cons id pending =>
      obtain ⟨hsize, hmarked, hzone⟩ := hready.stacked id List.mem_cons_self
      have hvisit := visit_prices h hready.sound g id pending
      rw [List.length_cons] at hfuel
      simp only [drain]
      generalize w.visit o g id pending = outcome at hvisit
      cases hvisit with
      | failed hunreadable =>
        exact absurd (hreadable id (hready.joined.meets hsize hmarked)) hunreadable
      | @charged pending' w' hwalked _ hpushed hsound =>
        have hnext := hready.pop.pushed hzoned hsize hmarked
          ((Graph.zoneBelow_walked hwalked).trans hzone) (fun _ hid => hid) hpushed hsound
        obtain ⟨w'', hrest, hdrain⟩ := ih hnext (by rw [hpushed.balance]; omega)
        refine ⟨w'', .walked hready hzoned hwalked hpushed hrest, fun size depth hdepth => ?_⟩
        have hprice : g.weighIn o zone z depth id = g.price o id :=
          (if_pos hzone).trans (Graph.weigh_walked hwalked depth)
        dsimp only
        rw [hdrain _ depth (by omega), hpushed.sum_charges hrest.shrinks, List.map_cons,
          List.sum_cons, hprice, add_assoc, add_assoc]
      | @sampled elements hsampled =>
        obtain ⟨w', hsample, heach⟩ := drainEach_zoned hzoned ih hsampled (g.leads o id)
          (fun _ hid => hid) hready.enter (by omega)
        have hless := Finset.card_le_card hsample.shrinks
        obtain ⟨w'', hrest, hdrain⟩ := ih (hready.resume hsample) (by omega)
        refine ⟨w'', .sampled hready hsample hrest, fun size depth hdepth => ?_⟩
        obtain ⟨below, rfl⟩ : ∃ below, depth = below + 1 := ⟨depth - 1, by omega⟩
        have hprice : g.weighIn o zone z (below + 1) id = g.price o id +
            o.extrapolate elements.size.toUInt64
              (∑ member ∈ g.region o zone (some id) (g.leads o id),
                g.weigh o zone below member) := by
          rw [Graph.weighIn, if_pos hzone]
          simp only [Graph.weigh, hsampled]
        dsimp only
        rw [heach 0 below (by omega), zero_add, sum_sample hready hsample below]
        dsimp only
        rw [hdrain _ (below + 1) (by omega), sum_unmarked_trans hsample.shrinks hrest.shrinks,
          sum_outside hready hsample (below + 1), zero_add, List.map_cons, List.sum_cons, hprice]
        simp only [add_assoc]

end Walk

namespace SizeEstimator

variable {e : SizeEstimator}

/-- At first the root is all that is marked, and it lies outside of all samples. -/
theorem start_ready (he : e.Usable) (houtside : zone root = none) :
    Walk.Ready g e.options root zone none (e.start g root).1 (e.start g root).2 := by
  have hpushed := start_pushed e g root
  have hall : (⟨.none g, e.layouts⟩ : Walk).unmarked = Finset.range g.nodes.size :=
    Visited.unmarked_none g
  have hrooted : root ∉ (e.start g root).2.unmarked := hpushed.marked root List.mem_cons_self
  have honly : ∀ id < g.nodes.size, id ∉ (e.start g root).2.unmarked → id = root :=
    fun id hid hout =>
      List.mem_singleton.mp (hpushed.mem_ids (hall ▸ Finset.mem_range.mpr hid) hout)
  refine ⟨start_sound he.sound, ⟨hall ▸ hpushed.shrinks, hrooted, fun id hid hout => ?_⟩,
    fun id hid => ?_, ?_, fun id hid hout s hs => ?_, nofun⟩
  · rw [honly id hid hout]
  · obtain hnone | ⟨hin, hout⟩ := hpushed.mem_stack hid
    · cases hnone
    · rw [hall] at hin
      exact ⟨Finset.mem_range.mp hin, hout, eq_of_mem_start hid ▸ houtside⟩
  · obtain ⟨⟨fresh, hstack, hnodup, -, -⟩, -, -⟩ := hpushed
    rw [hstack, List.append_nil]
    exact hnodup
  · rw [honly id hid hout, houtside] at hs
    cases hs

/-- In a graph of zones, an estimate is what the zone of the root adds up to. -/
theorem estimate_zoned (he : e.Usable) (hzoned : g.Zoned e.options root zone)
    (hreadable : ∀ id, g.Meets e.options root id → g.Readable id) {depth : Nat}
    (hdepth : g.nodes.size ≤ depth) :
    (e.estimate g root).1 = .ok (∑ id ∈ g.region e.options zone none [root],
      g.weigh e.options zone depth id) := by
  have hpushed := start_pushed e g root
  have hall : (⟨.none g, e.layouts⟩ : Walk).unmarked = Finset.range g.nodes.size :=
    Visited.unmarked_none g
  obtain ⟨w', hsettled, hdrain⟩ := Walk.charges_zoned he.valid hzoned hreadable g.nodes.size
    (start_ready he hzoned.outside) (start_fuel e g root)
  have hsum : ∑ id ∈ (⟨.none g, e.layouts⟩ : Walk).unmarked \ w'.unmarked,
      g.weighIn e.options zone none depth id =
        ∑ id ∈ g.region e.options zone none [root], g.weigh e.options zone depth id := by
    refine Walk.sum_zone hall.subset (fun id hid _ => hall ▸ Finset.mem_range.mpr hid)
      (fun start hstart hin => hpushed.marked start hstart (hsettled.shrinks hin))
      (fun id hin hout hzone => ?_) depth
    by_cases hthen : id ∈ (e.start g root).2.unmarked
    · obtain ⟨-, hexpanded, start, hstart, hway⟩ | ⟨s, hs, -⟩ := hsettled.since id hthen hout
      · exact ⟨hexpanded, start, List.mem_singleton.mpr (eq_of_mem_start hstart), hway⟩
      · cases hzone.symm.trans hs
    · have hstack := hpushed.mem_of_marked hin hthen
      exact ⟨hsettled.expanded id hstack, id, List.mem_singleton.mpr (eq_of_mem_start hstack),
        hzone, .refl⟩
  rw [estimate_fst, hdrain 0 depth hdepth, hpushed.sum_charges hsettled.shrinks, hsum]
  simp

end SizeEstimator

end ShuffleBuffer.Estimate
