import ShuffleBuffer.Proofs.Trackers

/-! # Trails of walks

A trail is a walk without fuel, told by the values that it takes from its stacks: its own and that
of every drawn element, however deep these are nested. All stacks share one set of marks. A value
is marked on its way onto a stack, so while it lies there, or after it has been taken, none of the
others can get hold of it. Hence no trail takes a value twice, and none takes a value that was
marked from the start. Every estimate has a trail, on every graph. -/

namespace ShuffleBuffer.Estimate

namespace Walk

variable {o : EstimatorOptions} {g : Graph}

/-- What a walk has before it: a stack, or drawn elements, each for a stack of its own. -/
inductive Work where
  | stack (pending : List NodeId)
  | drawn (ids : List NodeId)

/-- What lies on the stack. -/
def Work.held : Work → List NodeId
  | stack pending => pending
  | drawn _ => []

/-- A walk, with the values that it takes from its stacks in the order of its visits, and what it
comes to. A fault ends it where it arises. -/
inductive Trail (o : EstimatorOptions) (g : Graph) :
    Work → UInt64 → Walk → List NodeId → Except Fault UInt64 × Walk → Prop
  | emptied (size : UInt64) (w : Walk) : Trail o g (.stack []) size w [] (.ok size, w)
  | charged {id : NodeId} {pending pending' taken : List NodeId} {size bytes : UInt64}
      {w w' : Walk} {outcome : Except Fault UInt64 × Walk} :
      w.visit o g id pending = .charged bytes pending' w' →
      Trail o g (.stack pending') (size + bytes) w' taken outcome →
      Trail o g (.stack (id :: pending)) size w (id :: taken) outcome
  | failed {id : NodeId} {pending : List NodeId} {size : UInt64} {fault : Fault} {w w' : Walk} :
      w.visit o g id pending = .failed fault w' →
      Trail o g (.stack (id :: pending)) size w [id] (.error fault, w')
  | sampled {id : NodeId} {pending ids inner taken : List NodeId}
      {size bytes length sum : UInt64} {w v w' : Walk} {outcome : Except Fault UInt64 × Walk} :
      w.visit o g id pending = .sampled bytes length ids v →
      Trail o g (.drawn ids) 0 v inner (.ok sum, w') →
      Trail o g (.stack pending) (size + bytes + o.extrapolate length sum) w' taken outcome →
      Trail o g (.stack (id :: pending)) size w (id :: (inner ++ taken)) outcome
  | stopped {id : NodeId} {pending ids inner : List NodeId} {size bytes length : UInt64}
      {fault : Fault} {w v w' : Walk} :
      w.visit o g id pending = .sampled bytes length ids v →
      Trail o g (.drawn ids) 0 v inner (.error fault, w') →
      Trail o g (.stack (id :: pending)) size w (id :: inner) (.error fault, w')
  | summed (sum : UInt64) (w : Walk) : Trail o g (.drawn []) sum w [] (.ok sum, w)
  | next {id : NodeId} {ids first rest : List NodeId} {sum bytes : UInt64} {w w' : Walk}
      {outcome : Except Fault UInt64 × Walk} :
      Trail o g (.stack (w.push [] id).1) 0 (w.push [] id).2 first (.ok bytes, w') →
      Trail o g (.drawn ids) (sum + bytes) w' rest outcome →
      Trail o g (.drawn (id :: ids)) sum w (first ++ rest) outcome
  | broken {id : NodeId} {ids first : List NodeId} {sum : UInt64} {fault : Fault} {w w' : Walk} :
      Trail o g (.stack (w.push [] id).1) 0 (w.push [] id).2 first (.error fault, w') →
      Trail o g (.drawn (id :: ids)) sum w first (.error fault, w')

variable {work : Work} {size : UInt64} {w : Walk} {taken taken' : List NodeId}
  {outcome outcome' : Except Fault UInt64 × Walk}

/-- There is one trail at most. -/
theorem Trail.det (h : Trail o g work size w taken outcome)
    (h' : Trail o g work size w taken' outcome') : taken = taken' ∧ outcome = outcome' := by
  induction h generalizing taken' outcome' with
  | emptied size w =>
    cases h'
    exact ⟨rfl, rfl⟩
  | charged hvisit _ ih =>
    cases h' with
    | charged hvisit' hrest' =>
      cases hvisit.symm.trans hvisit'
      obtain ⟨rfl, rfl⟩ := ih hrest'
      exact ⟨rfl, rfl⟩
    | failed hvisit' => cases hvisit.symm.trans hvisit'
    | sampled hvisit' => cases hvisit.symm.trans hvisit'
    | stopped hvisit' => cases hvisit.symm.trans hvisit'
  | failed hvisit =>
    cases h' with
    | charged hvisit' => cases hvisit.symm.trans hvisit'
    | failed hvisit' =>
      cases hvisit.symm.trans hvisit'
      exact ⟨rfl, rfl⟩
    | sampled hvisit' => cases hvisit.symm.trans hvisit'
    | stopped hvisit' => cases hvisit.symm.trans hvisit'
  | sampled hvisit _ _ ihinner ihrest =>
    cases h' with
    | charged hvisit' => cases hvisit.symm.trans hvisit'
    | failed hvisit' => cases hvisit.symm.trans hvisit'
    | sampled hvisit' hinner' hrest' =>
      cases hvisit.symm.trans hvisit'
      obtain ⟨rfl, hsum⟩ := ihinner hinner'
      cases hsum
      obtain ⟨rfl, rfl⟩ := ihrest hrest'
      exact ⟨rfl, rfl⟩
    | stopped hvisit' hinner' =>
      cases hvisit.symm.trans hvisit'
      cases (ihinner hinner').2
  | stopped hvisit _ ihinner =>
    cases h' with
    | charged hvisit' => cases hvisit.symm.trans hvisit'
    | failed hvisit' => cases hvisit.symm.trans hvisit'
    | sampled hvisit' hinner' =>
      cases hvisit.symm.trans hvisit'
      cases (ihinner hinner').2
    | stopped hvisit' hinner' =>
      cases hvisit.symm.trans hvisit'
      obtain ⟨rfl, hfault⟩ := ihinner hinner'
      cases hfault
      exact ⟨rfl, rfl⟩
  | summed sum w =>
    cases h'
    exact ⟨rfl, rfl⟩
  | next _ _ ihfirst ihrest =>
    cases h' with
    | next hfirst' hrest' =>
      obtain ⟨rfl, hbytes⟩ := ihfirst hfirst'
      cases hbytes
      obtain ⟨rfl, rfl⟩ := ihrest hrest'
      exact ⟨rfl, rfl⟩
    | broken hfirst' => cases (ihfirst hfirst').2
  | broken _ ihfirst =>
    cases h' with
    | next hfirst' => cases (ihfirst hfirst').2
    | broken hfirst' =>
      obtain ⟨rfl, hfault⟩ := ihfirst hfirst'
      exact ⟨rfl, hfault⟩

/-! ## What a trail takes -/

/-- A stack of marked values, none of them twice. -/
structure Stacked (w : Walk) (pending : List NodeId) : Prop where
  nodup : pending.Nodup
  marked : ∀ id ∈ pending, id ∉ w.unmarked

theorem Stacked.nil (w : Walk) : w.Stacked [] := ⟨List.nodup_nil, nofun⟩

/-- A later walk has the same values marked. -/
theorem Stacked.mono {v : Walk} {pending : List NodeId} (h : w.Stacked pending)
    (hshrinks : v.unmarked ⊆ w.unmarked) : v.Stacked pending :=
  ⟨h.nodup, fun id hid hlate => h.marked id hid (hshrinks hlate)⟩

theorem Stacked.tail {id : NodeId} {pending : List NodeId} (h : w.Stacked (id :: pending)) :
    w.Stacked pending :=
  ⟨h.nodup.of_cons, fun other hother => h.marked other (List.mem_cons_of_mem id hother)⟩

/-- What is pushed was not marked, so it did not lie on the stack. -/
theorem Stacked.pushed {w' : Walk} {ids pending pending' : List NodeId} (h : w.Stacked pending)
    (hpushed : Pushed ids w pending w' pending') : w'.Stacked pending' := by
  obtain ⟨⟨fresh, rfl, hnodup, -, hfresh⟩, -, hshrinks⟩ := hpushed
  have hnew {id : NodeId} (hid : id ∈ fresh) : id ∈ w.unmarked \ w'.unmarked :=
    hfresh ▸ List.mem_toFinset.mpr hid
  refine ⟨List.nodup_append.mpr ⟨hnodup, h.nodup, ?_⟩, ?_⟩
  · rintro id hid _ hold rfl
    exact h.marked id hold (Finset.mem_sdiff.mp (hnew hid)).1
  · intro id hid
    rcases List.mem_append.mp hid with hid | hold
    · exact (Finset.mem_sdiff.mp (hnew hid)).2
    · exact fun hlate => h.marked id hold (hshrinks hlate)

/-- What a walk takes: each value once, from the stack that it starts with or of what it marks. If no
fault ends the walk, it takes all of these. -/
structure Takes (o : EstimatorOptions) (w : Walk) (held taken : List NodeId)
    (outcome : Except Fault UInt64 × Walk) : Prop where
  later : Extends o w outcome.2
  nodup : taken.Nodup
  source : ∀ id ∈ taken, id ∈ held ∨ id ∈ w.unmarked \ outcome.2.unmarked
  all : ∀ bytes, outcome.1 = .ok bytes →
    ∀ id, id ∈ held ∨ id ∈ w.unmarked \ outcome.2.unmarked → id ∈ taken

theorem Takes.nil (hw : w.SoundFor o) (size : UInt64) : Takes o w [] [] (.ok size, w) :=
  ⟨.refl hw, List.nodup_nil, nofun, fun _ _ id hid => by simp at hid⟩

/-- Taking the top of the stack first. -/
theorem Takes.cons {id : NodeId} {pending : List NodeId} (hstack : w.Stacked (id :: pending))
    (h : Takes o w pending taken outcome) : Takes o w (id :: pending) (id :: taken) outcome := by
  refine ⟨h.later, List.nodup_cons.mpr ⟨fun hid => ?_, h.nodup⟩, ?_, ?_⟩
  · rcases h.source id hid with hold | hnew
    · exact (List.nodup_cons.mp hstack.nodup).1 hold
    · exact hstack.marked id List.mem_cons_self (Finset.mem_sdiff.mp hnew).1
  · intro other hother
    rcases List.mem_cons.mp hother with rfl | hother
    · exact .inl List.mem_cons_self
    · exact (h.source other hother).imp_left (List.mem_cons_of_mem id)
  · rintro bytes hok other (hheld | hnew)
    · rcases List.mem_cons.mp hheld with rfl | hheld
      · exact List.mem_cons_self
      · exact List.mem_cons_of_mem id (h.all bytes hok other (.inl hheld))
    · exact List.mem_cons_of_mem id (h.all bytes hok other (.inr hnew))

/-- Pushing before a walk: what is pushed has been marked. -/
theorem Takes.pushed {v : Walk} {ids pending pending' : List NodeId}
    (hpushed : Pushed ids w pending v pending') (h : Takes o v pending' taken outcome) :
    Takes o w pending taken outcome := by
  obtain ⟨⟨fresh, rfl, -, -, hfresh⟩, -, hshrinks⟩ := hpushed
  have hless := h.later.shrinks
  refine ⟨⟨h.later.sound, hless.trans hshrinks⟩, h.nodup, ?_, ?_⟩
  · intro id hid
    rcases h.source id hid with hheld | hnew
    · rcases List.mem_append.mp hheld with hnow | hold
      · have hmarked := Finset.mem_sdiff.mp (hfresh ▸ List.mem_toFinset.mpr hnow)
        exact .inr (Finset.mem_sdiff.mpr ⟨hmarked.1, fun hlate => hmarked.2 (hless hlate)⟩)
      · exact .inl hold
    · obtain ⟨hin, hout⟩ := Finset.mem_sdiff.mp hnew
      exact .inr (Finset.mem_sdiff.mpr ⟨hshrinks hin, hout⟩)
  · rintro bytes hok id (hold | hnew)
    · exact h.all bytes hok id (.inl (List.mem_append_right _ hold))
    · obtain ⟨hin, hout⟩ := Finset.mem_sdiff.mp hnew
      by_cases hlate : id ∈ v.unmarked
      · exact h.all bytes hok id (.inr (Finset.mem_sdiff.mpr ⟨hlate, hout⟩))
      · have hnow : id ∈ fresh := by
          rw [← List.mem_toFinset, hfresh]
          exact Finset.mem_sdiff.mpr ⟨hin, hlate⟩
        exact h.all bytes hok id (.inl (List.mem_append_left _ hnow))

/-- A walk on a stack of its own, and then the walk that waited for it. Whatever lay on the waiting
stack was marked, so the first walk did not take it; and it has marked what it took. -/
theorem Takes.append {v : Walk} {sum : UInt64} {pending inner : List NodeId}
    (hstack : w.Stacked pending) (hinner : Takes o w [] inner (.ok sum, v))
    (h : Takes o v pending taken outcome) : Takes o w pending (inner ++ taken) outcome := by
  have hown {id : NodeId} (hid : id ∈ inner) : id ∈ w.unmarked \ v.unmarked :=
    (hinner.source id hid).resolve_left List.not_mem_nil
  have hless := h.later.shrinks
  refine ⟨hinner.later.trans h.later, List.nodup_append.mpr ⟨hinner.nodup, h.nodup, ?_⟩, ?_, ?_⟩
  · rintro id hid _ htaken rfl
    obtain ⟨hin, hout⟩ := Finset.mem_sdiff.mp (hown hid)
    rcases h.source id htaken with hheld | hnew
    · exact hstack.marked id hheld hin
    · exact hout (Finset.mem_sdiff.mp hnew).1
  · intro id hid
    rcases List.mem_append.mp hid with hid | hid
    · obtain ⟨hin, hout⟩ := Finset.mem_sdiff.mp (hown hid)
      exact .inr (Finset.mem_sdiff.mpr ⟨hin, fun hlate => hout (hless hlate)⟩)
    · rcases h.source id hid with hheld | hnew
      · exact .inl hheld
      · obtain ⟨hin, hout⟩ := Finset.mem_sdiff.mp hnew
        exact .inr (Finset.mem_sdiff.mpr ⟨hinner.later.shrinks hin, hout⟩)
  · rintro bytes hok id (hheld | hnew)
    · exact List.mem_append_right _ (h.all bytes hok id (.inl hheld))
    · obtain ⟨hin, hout⟩ := Finset.mem_sdiff.mp hnew
      by_cases hlate : id ∈ v.unmarked
      · exact List.mem_append_right _
          (h.all bytes hok id (.inr (Finset.mem_sdiff.mpr ⟨hlate, hout⟩)))
      · exact List.mem_append_left _
          (hinner.all sum rfl id (.inr (Finset.mem_sdiff.mpr ⟨hin, hlate⟩)))

/-- A walk that a fault has ended: the rest of its stack is not taken. -/
theorem Takes.cut {held : List NodeId} {w' : Walk} {fault : Fault} (hlater : Extends o w w')
    (hnodup : taken.Nodup) (hsource : ∀ id ∈ taken, id ∈ held ∨ id ∈ w.unmarked \ w'.unmarked) :
    Takes o w held taken (.error fault, w') :=
  ⟨hlater, hnodup, hsource, nofun⟩

/-- Every trail takes what its stacks hold and nothing twice. The induction is on the trail: the
stacks that wait while a drawn element is walked hold marked values only. -/
theorem Trail.takes (hvalid : o.validate = .ok ()) (h : Trail o g work size w taken outcome)
    (hw : w.SoundFor o) (hstack : w.Stacked work.held) : Takes o w work.held taken outcome := by
  induction h with
  | emptied size w => exact .nil hw size
  | @charged id pending pending' taken size bytes w w' outcome hvisit _ ih =>
    have hspec := visit_spec hw hvalid g id pending
    rw [hvisit] at hspec
    cases hspec with
    | charged _ hpushed hsound _ =>
      exact .cons hstack (.pushed hpushed (ih hsound (hstack.tail.pushed hpushed)))
  | @failed id pending size fault w w' hvisit =>
    have hspec := visit_spec hw hvalid g id pending
    rw [hvisit] at hspec
    cases hspec with
    | failed _ hshrinks hsound =>
      exact .cut ⟨hsound, hshrinks⟩ (List.nodup_singleton id) fun other hother =>
        .inl (List.mem_singleton.mp hother ▸ List.mem_cons_self)
  | @sampled id pending ids inner taken size bytes length sum w v w' outcome hvisit _ _ ihinner
      ihrest =>
    have hspec := visit_spec hw hvalid g id pending
    rw [hvisit] at hspec
    cases hspec with
    | sampled _ =>
      have hinner := ihinner hw (.nil w)
      exact .cons hstack (.append hstack.tail hinner
        (ihrest hinner.later.sound (hstack.tail.mono hinner.later.shrinks)))
  | @stopped id pending ids inner size bytes length fault w v w' hvisit _ ihinner =>
    have hspec := visit_spec hw hvalid g id pending
    rw [hvisit] at hspec
    cases hspec with
    | sampled _ =>
      have hinner := ihinner hw (.nil w)
      have hcut : Takes o w pending inner (.error fault, w') :=
        .cut hinner.later hinner.nodup fun other hother =>
          .inr ((hinner.source other hother).resolve_left List.not_mem_nil)
      exact .cons hstack hcut
  | summed sum w => exact .nil hw sum
  | @next id ids first rest sum bytes w w' outcome _ _ ihfirst ihrest =>
    have hpushed := push_pushed w [] id
    have hfirst := Takes.pushed hpushed (ihfirst (push_extends hw [] id).sound
      ((Stacked.nil w).pushed hpushed))
    exact .append (.nil w) hfirst (ihrest hfirst.later.sound (.nil w'))
  | @broken id ids first sum fault w w' _ ihfirst =>
    have hpushed := push_pushed w [] id
    exact .pushed hpushed (ihfirst (push_extends hw [] id).sound ((Stacked.nil w).pushed hpushed))

/-! ## Every walk has a trail -/

/-- A sum over drawn elements has a trail if every walk with few enough values before it has. -/
theorem exists_trail_drawn {drain : List NodeId → Walk → Except Fault UInt64 × Walk} {n : Nat}
    (hextends : ∀ pending w, w.SoundFor o → Extends o w (drain pending w).2)
    (htrail : ∀ pending w, w.SoundFor o → pending.length + w.unmarked.card ≤ n →
      ∃ taken, Trail o g (.stack pending) 0 w taken (drain pending w)) :
    ∀ (ids : List NodeId) (sum : UInt64) (w : Walk), w.SoundFor o → w.unmarked.card ≤ n →
      ∃ taken, Trail o g (.drawn ids) sum w taken (drainEach drain ids sum w)
  | [], sum, w, _, _ => ⟨[], .summed sum w⟩
  | id :: ids, sum, w, hw, hn => by
    have hpush := push_extends hw [] id
    have hbalance := (push_pushed w [] id).balance
    have hone := hextends (w.push [] id).1 (w.push [] id).2 hpush.sound
    obtain ⟨first, hfirst⟩ := htrail (w.push [] id).1 (w.push [] id).2 hpush.sound
      (by rw [hbalance]; simpa using hn)
    rw [drainEach]
    dsimp only
    split
    · next bytes w' heq =>
      rw [heq] at hone hfirst
      have hcard := Finset.card_le_card (hpush.trans hone).shrinks
      obtain ⟨rest, hrest⟩ :=
        exists_trail_drawn hextends htrail ids (sum + bytes) w' hone.sound (hcard.trans hn)
      exact ⟨first ++ rest, .next hfirst hrest⟩
    · next fault w' heq =>
      rw [heq] at hfirst
      exact ⟨first, .broken hfirst⟩

/-- With fuel for the stack and all unmarked values, a walk comes to the end of a trail. -/
theorem exists_trail (hvalid : o.validate = .ok ()) (fuel : Nat) (pending : List NodeId)
    (size : UInt64) (w : Walk) (hw : w.SoundFor o)
    (hfuel : pending.length + w.unmarked.card ≤ fuel) :
    ∃ taken, Trail o g (.stack pending) size w taken (drain o g fuel pending size w) := by
  induction fuel generalizing pending size w with
  | zero =>
    cases pending with
    | nil => exact ⟨[], .emptied size w⟩
    | cons id pending => simp at hfuel
  | succ fuel ih =>
    cases pending with
    | nil => exact ⟨[], .emptied size w⟩
    | cons id pending =>
      have hspec := visit_spec hw hvalid g id pending
      rw [List.length_cons] at hfuel
      rw [drain]
      cases hvisit : w.visit o g id pending with
      | charged bytes pending' w' =>
        rw [hvisit] at hspec
        cases hspec with
        | charged _ hpushed hsound _ =>
          obtain ⟨taken, htrail⟩ := ih pending' (size + bytes) w' hsound
            (by rw [hpushed.balance]; omega)
          exact ⟨id :: taken, .charged hvisit htrail⟩
      | failed fault w' => exact ⟨[id], .failed hvisit⟩
      | sampled bytes length ids v =>
        rw [hvisit] at hspec
        cases hspec with
        | sampled _ =>
          have hextends : ∀ pending w, w.SoundFor o → Extends o w (drain o g fuel pending 0 w).2 :=
            fun pending w hw => drain_extends hvalid fuel pending 0 w hw
          have hlater := drainEach_extends hextends ids 0 w hw
          obtain ⟨inner, hinner⟩ := exists_trail_drawn hextends
            (fun pending w hw hn => ih pending 0 w hw hn) ids 0 w hw (by omega)
          dsimp only
          generalize drainEach (fun pending w => drain o g fuel pending 0 w) ids 0 w = each
            at hlater hinner
          obtain ⟨result, w'⟩ := each
          cases result with
          | error fault => exact ⟨id :: inner, .stopped hvisit hinner⟩
          | ok sum =>
            have hcard : w'.unmarked.card ≤ w.unmarked.card := Finset.card_le_card hlater.shrinks
            obtain ⟨taken, htrail⟩ := ih pending (size + bytes + o.extrapolate length sum) w'
              hlater.sound (by omega)
            exact ⟨id :: (inner ++ taken), .sampled hvisit hinner htrail⟩

end Walk

namespace SizeEstimator

/-- An estimate told by the values that it takes, on whichever stack they lie. -/
def Trail (e : SizeEstimator) (g : Graph) (root : NodeId) (visited : Visited)
    (taken : List NodeId) (outcome : Except Fault UInt64 × Visited × SizeEstimator) : Prop :=
  let (pending, w) := Walk.push ⟨visited, e.layouts⟩ [] root
  Walk.Trail e.options g (.stack pending) 0 w taken
    (outcome.1, ⟨outcome.2.1, outcome.2.2.layouts⟩)

/-- On every graph and from all marks an estimate comes to the end of its one trail. The trail takes
no value twice, on whichever stacks the value is met, and none that was marked before; marks are
never taken away; and if no fault ends the estimate, what is marked in the end is what was marked
before and what the trail has taken. -/
theorem estimateWith_takes_once {e : SizeEstimator} (he : e.Usable) (g : Graph) (root : NodeId)
    (visited : Visited) :
    let outcome := e.estimateWith g root visited
    ∃ taken, e.Trail g root visited taken outcome ∧
      (∀ taken' outcome', e.Trail g root visited taken' outcome' →
        taken' = taken ∧ outcome'.1 = outcome.1 ∧ outcome'.2.1 = outcome.2.1) ∧
      taken.Nodup ∧
      (∀ id ∈ taken, visited.contains id = false ∧ outcome.2.1.contains id = true) ∧
      (∀ id, visited.contains id = true → outcome.2.1.contains id = true) ∧
      (∀ bytes, outcome.1 = .ok bytes →
        ∀ id, outcome.2.1.contains id = true ↔ visited.contains id = true ∨ id ∈ taken) := by
  intro outcome
  let start : Walk := ⟨visited, e.layouts⟩
  have hpushed := Walk.push_pushed start [] root
  have hstart := Walk.push_extends (w := start) he.sound [] root
  have hfuel : (start.push [] root).1.length + (start.push [] root).2.unmarked.card ≤
      visited.marks.size := by
    rw [hpushed.balance, List.length_nil, Nat.zero_add]
    exact (Finset.card_filter_le _ _).trans_eq (Finset.card_range _)
  obtain ⟨taken, htrail⟩ := Walk.exists_trail (g := g) he.valid visited.marks.size
    (start.push [] root).1 0 (start.push [] root).2 hstart.sound hfuel
  have htakes := Walk.Takes.pushed hpushed
    (htrail.takes he.valid hstart.sound ((Walk.Stacked.nil start).pushed hpushed))
  have hmarked (id : NodeId) : outcome.2.1.contains id = true ↔ id ∉ outcome.2.1.unmarked := by
    simp
  have hnew {id : NodeId} (hid : id ∈ taken) : id ∈ visited.unmarked \ outcome.2.1.unmarked :=
    (htakes.source id hid).resolve_left List.not_mem_nil
  have hgrows {id : NodeId} (hid : visited.contains id = true) :
      outcome.2.1.contains id = true := by
    rw [hmarked]
    intro hlate
    have hfresh : visited.contains id = false :=
      Visited.mem_unmarked.mp (htakes.later.shrinks hlate)
    rw [hid] at hfresh
    cases hfresh
  refine ⟨taken, htrail, fun taken' outcome' h' => ?_, htakes.nodup, fun id hid => ?_,
    fun id hid => hgrows hid, fun bytes hok id => ⟨fun hid => ?_, ?_⟩⟩
  · obtain ⟨htaken, houtcome⟩ := htrail.det h'
    have hresult := congrArg Prod.fst houtcome
    have hvisited := congrArg (fun end_ => end_.2.visited) houtcome
    exact ⟨htaken.symm, hresult.symm, hvisited.symm⟩
  · obtain ⟨hin, hout⟩ := Finset.mem_sdiff.mp (hnew hid)
    exact ⟨Visited.mem_unmarked.mp hin, (hmarked id).mpr hout⟩
  · by_cases hbefore : visited.contains id = true
    · exact .inl hbefore
    · refine .inr (htakes.all bytes hok id (.inr (Finset.mem_sdiff.mpr ⟨?_, ?_⟩)))
      · exact Visited.mem_unmarked.mpr (Bool.eq_false_iff.mpr hbefore)
      · exact (hmarked id).mp hid
  · rintro (hbefore | hid)
    · exact hgrows hbefore
    · exact (hmarked id).mpr (Finset.mem_sdiff.mp (hnew hid)).2

/-- A long sequence that holds itself and leads to another such sequence, which leads back to it. -/
def tangle : Graph :=
  ⟨#[.sequence #[1, 0, 1, 1], .sequence #[2, 1, 0, 3], .pointer (some 0), .scalars .u8 5]⟩

/-- Two elements are drawn of each sequence. The sequences and the pointer are taken once each, and
the text, which is not drawn, is not. -/
theorem estimateWith_takes_once_tangle :
    let e := ofOptions { samplingThreshold := 3, sampleCount := 2, seed := 5 }
    e.Usable ∧ (e.estimateWith tangle 0 (.none tangle)).1 = .ok 168 ∧
      ∃ taken, e.Trail tangle 0 (.none tangle) taken (e.estimateWith tangle 0 (.none tangle)) ∧
        taken.Nodup ∧ ∀ id < 4, id ∈ taken ↔ id ≠ 3 := by
  intro e
  have he : e.Usable := usable_ofOptions (by decide)
  have hsize : (e.estimateWith tangle 0 (.none tangle)).1 = .ok 168 := by decide +kernel
  have hmarks : (e.estimateWith tangle 0 (.none tangle)).2.1.marks =
      #[true, true, true, false] := by
    decide +kernel
  obtain ⟨taken, htrail, -, hnodup, -, -, hall⟩ :=
    estimateWith_takes_once he tangle 0 (.none tangle)
  refine ⟨he, hsize, taken, htrail, hnodup, fun id hid => ?_⟩
  have hiff := hall 168 hsize id
  have hfirst : (Visited.none tangle).contains id = false := by
    rw [Visited.contains_none]
    exact decide_eq_false (Nat.not_le.mpr hid)
  rw [hfirst, Visited.contains, hmarks] at hiff
  have hends : (#[true, true, true, false].getD id true = true) ↔ id ≠ 3 := by
    rcases id with _ | _ | _ | _ | id
    · decide
    · decide
    · decide
    · decide
    · exact absurd hid (Nat.not_lt.mpr (Nat.le_add_left 4 id))
  rw [← hends, hiff]
  simp

end SizeEstimator

end ShuffleBuffer.Estimate
