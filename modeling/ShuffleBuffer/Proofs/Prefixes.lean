import ShuffleBuffer.Proofs.Placement
import ShuffleBuffer.Proofs.Trackers

/-! # Walks over a graph and over a longer one

A value may be estimated as a part of something larger, whose graph has further nodes after those of
the value. Walks that stay where two graphs are the same do the same on both of them, whatever
layouts each walk knows. They come to the same sum, but for what was charged before. -/

namespace ShuffleBuffer.Estimate

/-- What a member leads to is among what the object holds. -/
theorem Node.mem_of_reference {shape : Shape} {references : List (String × Option NodeId)}
    {field : String} {target : Option NodeId}
    (h : (Node.object shape references).reference field = .ok target) :
    (field, target) ∈ references := by
  cases hheld : references.lookup field with
  | none =>
    simp only [reference, hheld] at h
    cases h
  | some found =>
    simp only [reference, hheld] at h
    cases h
    exact mem_of_lookup hheld

/-- Two graphs have the same nodes at some identities, and these lead to each other only. -/
structure Graph.Shares (among : NodeId → Prop) (g g' : Graph) : Prop where
  node : ∀ {id}, among id → g'.node id = g.node id
  pointer : ∀ {id target}, among id → g.node id = .pointer (some target) → among target
  elements : ∀ {id ids}, among id → g.node id = .sequence ids → ∀ target ∈ ids.toList, among target
  references : ∀ {id shape references}, among id → g.node id = .object shape references →
    ∀ field target, (field, some target) ∈ references → among target

theorem Graph.Shares.refl (g : Graph) : Graph.Shares (fun _ => True) g g :=
  ⟨fun _ => rfl, fun _ _ => trivial, fun _ _ _ _ => trivial, fun _ _ _ _ _ => trivial⟩

/-- Nodes that lead to each other only are also found in a graph with further nodes after them. -/
theorem Graph.Shares.of_whole {g g' : Graph} (hg : Whole g.nodes)
    (hlonger : g.nodes.toList <+: g'.nodes.toList) : Graph.Shares (· < g.nodes.size) g g' where
  node hid := node_of_appended hlonger hid
  pointer {id} _ _ hnode := (whole_node hg id).pointer _ hnode
  elements {id} _ _ hnode := (whole_node hg id).elements _ hnode
  references {id} _ _ _ hnode := ((whole_node hg id).references _ _ hnode).1

namespace Walk

variable {o : EstimatorOptions} {g g' : Graph} {w w' : Walk} {among : NodeId → Prop}

/-- Two walks that have marked the same values, and know the layouts of the same options. -/
structure Alike (o : EstimatorOptions) (w w' : Walk) : Prop where
  marks : ∀ id, w'.visited.contains id = w.visited.contains id
  sound : w.SoundFor o
  sound' : w'.SoundFor o

/-- Two visits that do the same, and lead to some identities only. -/
inductive Outcome.Alike (o : EstimatorOptions) (among : NodeId → Prop) : Outcome → Outcome → Prop
  | charged {bytes : UInt64} {pending : List NodeId} {w w' : Walk} :
      (∀ id ∈ pending, among id) → w.Alike o w' →
      Alike o among (.charged bytes pending w) (.charged bytes pending w')
  | sampled {bytes length : UInt64} {drawn : List NodeId} {w w' : Walk} :
      (∀ id ∈ drawn, among id) → w.Alike o w' →
      Alike o among (.sampled bytes length drawn w) (.sampled bytes length drawn w')
  | failed {fault : Fault} {w w' : Walk} : w.Alike o w' →
      Alike o among (.failed fault w) (.failed fault w')

/-! ## One visit -/

theorem Alike.push (h : w.Alike o w') (pending : List NodeId) (id : NodeId) :
    (w'.push pending id).1 = (w.push pending id).1 ∧
      (w.push pending id).2.Alike o (w'.push pending id).2 := by
  rw [Walk.push, Walk.push, h.marks id]
  split
  · exact ⟨rfl, h⟩
  · refine ⟨rfl, fun other => ?_, h.sound, h.sound'⟩
    show (w'.visited.mark id).contains other = (w.visited.mark id).contains other
    rw [Visited.contains_mark, Visited.contains_mark, h.marks other]

theorem Alike.pushAll (h : w.Alike o w') (pending ids : List NodeId) :
    (w'.pushAll pending ids).1 = (w.pushAll pending ids).1 ∧
      (w.pushAll pending ids).2.Alike o (w'.pushAll pending ids).2 := by
  induction ids generalizing w w' pending with
  | nil => exact ⟨rfl, h⟩
  | cons id ids ih =>
    obtain ⟨hsame, halike⟩ := h.push pending id
    rw [pushAll_cons, pushAll_cons, hsame]
    exact ih halike _

theorem Alike.pushReferences (h : w.Alike o w') (node : Node) (pending : List NodeId)
    (fields : List String) :
    (w'.pushReferences node pending fields).1 = (w.pushReferences node pending fields).1 ∧
      (w.pushReferences node pending fields).2.Alike o
        (w'.pushReferences node pending fields).2 := by
  induction fields generalizing w w' pending with
  | nil => exact ⟨rfl, h⟩
  | cons field fields ih =>
    rw [Walk.pushReferences, Walk.pushReferences]
    cases node.reference field with
    | error fault => exact ⟨rfl, h⟩
    | ok target =>
      cases target with
      | none => exact ih h pending
      | some id =>
        obtain ⟨hsame, halike⟩ := h.push pending id
        dsimp only
        rw [hsame]
        exact ih halike _

theorem Alike.shell (h : w.Alike o w') (ho : o.validate = .ok ()) (shape : Shape) :
    (w'.shell o shape).1 = (w.shell o shape).1 ∧
      (w'.shell o shape).2.1 = (w.shell o shape).2.1 ∧
      (w.shell o shape).2.2.Alike o (w'.shell o shape).2.2 := by
  obtain ⟨v, hshell, hmarks, hsound⟩ := shell_spec h.sound ho shape
  obtain ⟨v', hshell', hmarks', hsound'⟩ := shell_spec h.sound' ho shape
  rw [hshell, hshell']
  refine ⟨rfl, rfl, fun id => ?_, hsound, hsound'⟩
  rw [hmarks, hmarks']
  exact h.marks id

theorem among_of_push {pending : List NodeId} {id : NodeId} (hpending : ∀ id ∈ pending, among id)
    (hid : among id) : ∀ other ∈ (w.push pending id).1, among other := by
  rw [Walk.push]
  split
  · exact hpending
  · exact List.forall_mem_cons.mpr ⟨hid, hpending⟩

theorem among_of_pushed {ids pending pending' : List NodeId} (h : Pushed ids w pending w' pending')
    (hpending : ∀ id ∈ pending, among id) (hids : ∀ id ∈ ids, among id) :
    ∀ id ∈ pending', among id := by
  obtain ⟨⟨fresh, rfl, -, hfresh, -⟩, -, -⟩ := h
  intro id hid
  rcases List.mem_append.mp hid with hnew | hold
  · exact hids id (hfresh id hnew)
  · exact hpending id hold

section Visit

variable {id : NodeId} {pending : List NodeId}

theorem Alike.visitElements (h : w.Alike o w') {elements : Array NodeId}
    (helements : ∀ id ∈ elements.toList, among id) (hpending : ∀ id ∈ pending, among id) :
    Outcome.Alike o among (w.visitElements o elements pending)
      (w'.visitElements o elements pending) := by
  unfold Walk.visitElements
  dsimp only
  split
  · refine .sampled (fun id hid => ?_) h
    obtain ⟨index, -, hindex⟩ := List.mem_filterMap.mp hid
    exact helements id (Array.mem_toList_iff.mpr (Array.mem_of_getElem? hindex))
  · obtain ⟨hsame, halike⟩ := h.pushAll pending elements.toList
    rw [hsame]
    exact .charged (among_of_pushed (pushAll_pushed w pending elements.toList) hpending helements)
      halike

theorem Alike.visitUnits (h : w.Alike o w') (ho : o.validate = .ok ()) (count : Nat)
    (hpending : ∀ id ∈ pending, among id) :
    Outcome.Alike o among (w.visitUnits o count pending) (w'.visitUnits o count pending) := by
  obtain ⟨hbytes, -, halike⟩ := h.shell ho .unit
  unfold Walk.visitUnits
  dsimp only
  rw [hbytes]
  split
  · exact .charged hpending halike
  · exact .charged hpending halike

theorem Alike.visit_object (h : w.Alike o w') (ho : o.validate = .ok ()) {shape : Shape}
    {references : List (String × Option NodeId)}
    (hids : ∀ field id, (field, some id) ∈ references → among id)
    (hnode : g.node id = .object shape references) (hnode' : g'.node id = .object shape references)
    (hpending : ∀ id ∈ pending, among id) :
    Outcome.Alike o among (w.visit o g id pending) (w'.visit o g' id pending) := by
  obtain ⟨hbytes, hfields, halike⟩ := h.shell ho shape
  simp only [visit, hnode, hnode', hbytes, hfields]
  generalize (w.shell o shape).2.1 = fields
  obtain ⟨hsame, halike⟩ := halike.pushReferences (.object shape references) pending fields
  have hpushed := pushReferences_spec (w.shell o shape).2.2 (.object shape references) pending
    fields
  generalize (w'.shell o shape).2.2.pushReferences _ pending fields = pushed' at hsame halike ⊢
  generalize (w.shell o shape).2.2.pushReferences _ pending fields = pushed at hsame halike hpushed ⊢
  obtain ⟨result, v⟩ := pushed
  obtain ⟨result', v'⟩ := pushed'
  dsimp only at hsame
  subst hsame
  cases result' with
  | error fault => exact .failed halike
  | ok pending' =>
    refine .charged (among_of_pushed hpushed.2.2 hpending fun target htarget => ?_) halike
    obtain ⟨field, -, htarget⟩ := List.mem_filterMap.mp htarget
    split at htarget
    · next found hread =>
      subst htarget
      exact hids field target (Node.mem_of_reference hread)
    · cases htarget

/-- A value that two graphs share is visited the same on both. -/
theorem Alike.visit (h : w.Alike o w') (ho : o.validate = .ok ()) (hg : g.Shares among g')
    (hid : among id) (hpending : ∀ id ∈ pending, among id) :
    Outcome.Alike o among (w.visit o g id pending) (w'.visit o g' id pending) := by
  have hsame := hg.node hid
  cases hnode : g.node id with
  | object shape references =>
    exact h.visit_object ho (hg.references hid hnode) hnode (hsame.trans hnode) hpending
  | metadata | scalar =>
    simp only [Walk.visit, hsame, hnode]
    exact .charged hpending h
  | pointer target =>
    cases target with
    | none =>
      simp only [Walk.visit, hsame, hnode]
      exact .charged hpending h
    | some target =>
      obtain ⟨hstack, halike⟩ := h.push pending target
      simp only [Walk.visit, hsame, hnode, hstack]
      exact .charged (among_of_push hpending (hg.pointer hid hnode)) halike
  | scalars type count =>
    simp only [Walk.visit, hsame, hnode]
    split
    · exact .charged hpending h
    · exact .charged hpending h
  | units count =>
    simp only [Walk.visit, hsame, hnode]
    split
    · exact .charged hpending h
    · exact h.visitUnits ho count hpending
  | sequence elements =>
    have helements := hg.elements hid hnode
    simp only [Walk.visit, hsame, hnode]
    split
    · exact .charged hpending h
    · next first hfirst =>
      have hshared : among first :=
        helements first (Array.mem_toList_iff.mpr (Array.mem_of_getElem? hfirst))
      rw [hg.node hshared]
      split
      · exact .charged hpending h
      · exact h.visitElements helements hpending

end Visit

/-! ## Whole walks -/

/-- Sums over drawn elements are the same if the walks of single ones are. -/
theorem Alike.drainEach {drain drain' : List NodeId → Walk → Except Fault UInt64 × Walk}
    (hdrain : ∀ {pending w w'}, (∀ id ∈ pending, among id) → w.Alike o w' →
      (drain' pending w').1 = (drain pending w).1 ∧
        (drain pending w).2.Alike o (drain' pending w').2)
    {ids : List NodeId} (hids : ∀ id ∈ ids, among id) (sum : UInt64) (h : w.Alike o w') :
    (Walk.drainEach drain' ids sum w').1 = (Walk.drainEach drain ids sum w).1 ∧
      (Walk.drainEach drain ids sum w).2.Alike o (Walk.drainEach drain' ids sum w').2 := by
  induction ids generalizing sum w w' with
  | nil => exact ⟨rfl, h⟩
  | cons id ids ih =>
    obtain ⟨hstack, halike⟩ := h.push [] id
    have hpending : ∀ other ∈ (w.push [] id).1, among other :=
      among_of_push nofun (hids id List.mem_cons_self)
    obtain ⟨hsame, halike⟩ := hdrain hpending halike
    rw [Walk.drainEach, Walk.drainEach]
    dsimp only
    rw [hstack]
    generalize drain' (w.push [] id).1 (w'.push [] id).2 = drained' at hsame halike ⊢
    generalize drain (w.push [] id).1 (w.push [] id).2 = drained at hsame halike ⊢
    obtain ⟨result, v⟩ := drained
    obtain ⟨result', v'⟩ := drained'
    dsimp only at hsame
    subst hsame
    cases result' with
    | error fault => exact ⟨rfl, halike⟩
    | ok bytes => exact ih (fun id hid => hids id (.tail _ hid)) _ halike

/-- A walk over the other graph comes to the same sum on top of what it has charged before. -/
theorem Alike.drain (ho : o.validate = .ok ()) (hg : g.Shares among g') (fuel : Nat)
    {pending : List NodeId} (hpending : ∀ id ∈ pending, among id) (before size : UInt64)
    (h : w.Alike o w') :
    (Walk.drain o g' fuel pending (before + size) w').1 =
        (Walk.drain o g fuel pending size w).1.map (before + ·) ∧
      (Walk.drain o g fuel pending size w).2.Alike o
        (Walk.drain o g' fuel pending (before + size) w').2 := by
  induction fuel generalizing pending before size w w' with
  | zero => cases pending <;> exact ⟨rfl, h⟩
  | succ fuel ih =>
    cases pending with
    | nil => exact ⟨rfl, h⟩
    | cons id pending =>
      obtain ⟨hid, hpending⟩ := List.forall_mem_cons.mp hpending
      have hvisit := h.visit ho hg hid hpending
      rw [Walk.drain, Walk.drain]
      generalize w.visit o g id pending = outcome at hvisit
      generalize w'.visit o g' id pending = outcome' at hvisit
      cases hvisit with
      | failed halike => exact ⟨rfl, halike⟩
      | charged hpending' halike =>
        dsimp only
        rw [UInt64.add_assoc]
        exact ih hpending' _ _ halike
      | sampled hdrawn halike =>
        -- a nested walk has charged nothing before
        have hnested : ∀ {pending w w'}, (∀ id ∈ pending, among id) → Alike o w w' →
            (Walk.drain o g' fuel pending 0 w').1 = (Walk.drain o g fuel pending 0 w).1 ∧
              (Walk.drain o g fuel pending 0 w).2.Alike o
                (Walk.drain o g' fuel pending 0 w').2 := by
          intro pending w w' hpending halike
          obtain ⟨hsum, halike⟩ := ih hpending 0 0 halike
          rw [UInt64.add_zero] at hsum halike
          refine ⟨hsum.trans ?_, halike⟩
          cases (Walk.drain o g fuel pending 0 w).1 with
          | error fault => rfl
          | ok bytes => exact congrArg Except.ok (UInt64.zero_add bytes)
        obtain ⟨hsame, halike⟩ := Alike.drainEach hnested hdrawn 0 halike
        dsimp only
        generalize Walk.drainEach (fun pending w => Walk.drain o g' fuel pending 0 w) _ 0 _ = each'
          at hsame halike ⊢
        generalize Walk.drainEach (fun pending w => Walk.drain o g fuel pending 0 w) _ 0 _ = each
          at hsame halike ⊢
        obtain ⟨result, v⟩ := each
        obtain ⟨result', v'⟩ := each'
        dsimp only at hsame
        subst hsame
        cases result' with
        | error fault => exact ⟨rfl, halike⟩
        | ok sampled =>
          dsimp only
          rw [UInt64.add_assoc before, UInt64.add_assoc before]
          exact ih hpending _ _ halike

/-- Sums over drawn elements come to an end if the walks of single ones do. -/
theorem drainEach_ok {drain : List NodeId → Walk → Except Fault UInt64 × Walk}
    (hdrain : ∀ pending w, w.SoundFor o →
      (∃ bytes, (drain pending w).1 = .ok bytes) ∧ (drain pending w).2.SoundFor o)
    (ids : List NodeId) (sum : UInt64) (hw : w.SoundFor o) :
    ∃ bytes, (drainEach drain ids sum w).1 = .ok bytes := by
  induction ids generalizing sum w with
  | nil => exact ⟨sum, rfl⟩
  | cons id ids ih =>
    obtain ⟨⟨bytes, hbytes⟩, hsound⟩ := hdrain (w.push [] id).1 _ (push_extends hw [] id).sound
    rw [drainEach]
    dsimp only
    generalize drain (w.push [] id).1 (w.push [] id).2 = drained at hbytes hsound ⊢
    obtain ⟨result, v⟩ := drained
    dsimp only at hbytes
    subst hbytes
    exact ih _ hsound

/-- No walk over a whole graph fails. -/
theorem drain_ok (ho : o.validate = .ok ()) (hg : Whole g.nodes) (fuel : Nat)
    (pending : List NodeId) (size : UInt64) (hw : w.SoundFor o) :
    ∃ bytes, (drain o g fuel pending size w).1 = .ok bytes := by
  induction fuel generalizing pending size w with
  | zero => cases pending <;> exact ⟨size, rfl⟩
  | succ fuel ih =>
    cases pending with
    | nil => exact ⟨size, rfl⟩
    | cons id pending =>
      have hvisit := visit_spec hw ho g id pending
      rw [drain]
      generalize w.visit o g id pending = outcome at hvisit
      cases hvisit with
      | charged _ _ hsound _ => exact ih _ _ hsound
      | failed hunreadable _ _ => exact absurd (Graph.readable_of_whole hg id) hunreadable
      | @sampled bytes length drawn _ =>
        have hextends : ∀ pending w, w.SoundFor o → Extends o w (drain o g fuel pending 0 w).2 :=
          fun pending w hw => drain_extends ho fuel pending 0 w hw
        obtain ⟨sampled, hsampled⟩ := drainEach_ok
          (fun pending w hw => ⟨ih pending 0 hw, (hextends pending w hw).sound⟩) drawn 0 hw
        have hsound := (drainEach_extends hextends drawn 0 w hw).sound
        dsimp only
        generalize drainEach (fun pending w => drain o g fuel pending 0 w) drawn 0 w = each
          at hsampled hsound ⊢
        obtain ⟨result, v⟩ := each
        dsimp only at hsampled
        subst hsampled
        exact ih _ _ hsound

end Walk

namespace SizeEstimator

variable {e e' : SizeEstimator} {g : Graph} {root : NodeId}

/-- Values that can all be read can be estimated. -/
theorem estimate_ok (h : e.Usable) (hg : Whole g.nodes) (root : NodeId) :
    ∃ bytes, (e.estimate g root).1 = .ok bytes := by
  rw [estimate_fst]
  exact Walk.drain_ok h.valid hg _ _ _ (start_sound h.sound)

theorem contains_start (e : SizeEstimator) (hroot : root < g.nodes.size) (id : NodeId) :
    (e.start g root).2.visited.contains id = (decide (g.nodes.size ≤ id) || decide (id = root)) := by
  have hfresh : (Visited.none g).contains root = false := by
    rw [Visited.contains_none]
    exact decide_eq_false (Nat.not_le.mpr hroot)
  simp only [start, Walk.push, hfresh]
  show ((Visited.none g).mark root).contains id = _
  rw [Visited.contains_mark, Visited.contains_none]

theorem start_pending (e : SizeEstimator) (hroot : root < g.nodes.size) :
    (e.start g root).1 = [root] := by
  have hfresh : (Visited.none g).contains root = false := by
    rw [Visited.contains_none]
    exact decide_eq_false (Nat.not_le.mpr hroot)
  simp only [start, Walk.push, hfresh]
  rfl

/-- What an estimator has estimated before does not matter. -/
theorem estimate_congr (h : e.Usable) (h' : e'.Usable) (hoptions : e'.options = e.options)
    (g : Graph) (root : NodeId) : (e'.estimate g root).1 = (e.estimate g root).1 := by
  have hstart : Walk.Alike e.options ⟨.none g, e.layouts⟩ ⟨.none g, e'.layouts⟩ :=
    ⟨fun _ => rfl, h.sound, hoptions ▸ h'.sound⟩
  obtain ⟨hpending, halike⟩ := hstart.push [] root
  obtain ⟨hsame, -⟩ := halike.drain h.valid (.refl g) g.nodes.size
    (fun _ _ => trivial) 0 0
  rw [UInt64.add_zero] at hsame
  rw [estimate_fst, estimate_fst, hoptions, start, start, hpending, hsame]
  cases (Walk.drain e.options g g.nodes.size _ 0 _).1 with
  | error fault => rfl
  | ok bytes => exact congrArg Except.ok (UInt64.zero_add bytes)

end SizeEstimator

end ShuffleBuffer.Estimate
