import ShuffleBuffer.Proofs.Visit

/-! # Whole walks

Marks only grow and the layouts stay sound, also through the nested walks of sampled elements. The
stack and the unmarked values together shrink with every visit, so their number is enough fuel: more
never changes an answer. A walk that meets no oversized sequence charges what it finds on the stack
and what it marks, each once, or stops at a value that cannot be read. -/

namespace ShuffleBuffer.Estimate.Walk

variable {o : EstimatorOptions} {g : Graph}

/-- A later walk: with the layouts of its options, and with no mark taken away. -/
structure Extends (o : EstimatorOptions) (w w' : Walk) : Prop where
  sound : w'.SoundFor o
  shrinks : w'.unmarked ⊆ w.unmarked

theorem Extends.refl {w : Walk} (hw : w.SoundFor o) : Extends o w w := ⟨hw, Finset.Subset.refl _⟩

theorem Extends.trans {w w' w'' : Walk} (h : Extends o w w') (h' : Extends o w' w'') :
    Extends o w w'' := ⟨h'.sound, h'.shrinks.trans h.shrinks⟩

theorem push_extends {w : Walk} (hw : w.SoundFor o) (pending : List NodeId) (id : NodeId) :
    Extends o w (w.push pending id).2 :=
  ⟨by rw [SoundFor, layouts_push]; exact hw, (push_pushed w pending id).shrinks⟩

/-- Every walk on the way of a sum over drawn elements is a later one. -/
theorem drainEach_extends {drain : List NodeId → Walk → Except Fault UInt64 × Walk}
    (hdrain : ∀ pending w, w.SoundFor o → Extends o w (drain pending w).2) :
    ∀ (ids : List NodeId) (sum : UInt64) (w : Walk), w.SoundFor o →
      Extends o w (drainEach drain ids sum w).2
  | [], _, _, hw => Extends.refl hw
  | id :: ids, sum, w, hw => by
    have hpush := push_extends hw [] id
    have hone := hdrain (w.push [] id).1 (w.push [] id).2 hpush.sound
    rw [drainEach]
    simp only
    split
    · rename_i bytes w' heq
      rw [heq] at hone
      exact (hpush.trans hone).trans (drainEach_extends hdrain ids _ w' hone.sound)
    · rename_i fault w' heq
      rw [heq] at hone
      exact hpush.trans hone

theorem drain_extends (h : o.validate = .ok ()) (fuel : Nat) (pending : List NodeId)
    (size : UInt64) (w : Walk) (hw : w.SoundFor o) :
    Extends o w (drain o g fuel pending size w).2 := by
  induction fuel generalizing pending size w with
  | zero => cases pending <;> exact Extends.refl hw
  | succ fuel ih =>
    cases pending with
    | nil => exact Extends.refl hw
    | cons id pending =>
      have hvisit := visit_spec hw h g id pending
      rw [drain]
      generalize w.visit o g id pending = outcome at hvisit
      cases hvisit with
      | charged _ hpushed hsound _ =>
        exact Extends.trans ⟨hsound, hpushed.shrinks⟩ (ih _ _ _ hsound)
      | failed _ hshrinks hsound => exact ⟨hsound, hshrinks⟩
      | @sampled bytes length drawn _ =>
        have heach := drainEach_extends (o := o)
          (fun pending w hw => ih pending 0 w hw) drawn 0 w hw
        simp only
        split
        · rename_i fault w' heq
          rw [heq] at heach
          exact heach
        · rename_i sampled w' heq
          rw [heq] at heach
          exact heach.trans (ih _ _ _ heach.sound)

/-! ## Fuel -/

/-- Two ways of draining agree on a sum over drawn elements if they agree where the stack and the
unmarked values are few enough. -/
theorem drainEach_congr {drain drain' : List NodeId → Walk → Except Fault UInt64 × Walk} {n : Nat}
    (hdrain : ∀ pending w, w.SoundFor o → Extends o w (drain pending w).2)
    (hsame : ∀ pending w, w.SoundFor o → pending.length + w.unmarked.card ≤ n →
      drain' pending w = drain pending w) :
    ∀ (ids : List NodeId) (sum : UInt64) (w : Walk), w.SoundFor o → w.unmarked.card ≤ n →
      drainEach drain' ids sum w = drainEach drain ids sum w
  | [], _, _, _, _ => rfl
  | id :: ids, sum, w, hw, hn => by
    have hpush := push_extends hw [] id
    have hbalance := (push_pushed w [] id).balance
    have hone := hdrain (w.push [] id).1 (w.push [] id).2 hpush.sound
    have heq := hsame (w.push [] id).1 (w.push [] id).2 hpush.sound
      (by rw [hbalance]; simpa using hn)
    rw [drainEach, drainEach]
    simp only [heq]
    split
    · rename_i bytes w' hdrained
      rw [hdrained] at hone
      have hshrinks : w'.unmarked ⊆ w.unmarked := (hpush.trans hone).shrinks
      exact drainEach_congr hdrain hsame ids _ w' hone.sound
        ((Finset.card_le_card hshrinks).trans hn)
    · rfl

/-- The stack and the unmarked values are enough fuel: more does not change the answer. -/
theorem drain_fuel (h : o.validate = .ok ()) (more fuel : Nat) (pending : List NodeId)
    (size : UInt64) (w : Walk) (hw : w.SoundFor o)
    (hfuel : pending.length + w.unmarked.card ≤ fuel) :
    drain o g (fuel + more) pending size w = drain o g fuel pending size w := by
  induction fuel generalizing pending size w with
  | zero =>
    cases pending with
    | nil => cases more <;> rfl
    | cons id pending => simp at hfuel
  | succ fuel ih =>
    cases pending with
    | nil => rw [Nat.add_right_comm]; rfl
    | cons id pending =>
      have hvisit := visit_spec hw h g id pending
      rw [Nat.add_right_comm, drain, drain]
      generalize w.visit o g id pending = outcome at hvisit
      simp only [List.length_cons] at hfuel
      cases hvisit with
      | charged _ hpushed hsound _ => exact ih _ _ _ hsound (by rw [hpushed.balance]; omega)
      | failed _ _ _ => rfl
      | @sampled bytes length drawn _ =>
        have hextends : ∀ pending w, w.SoundFor o → Extends o w (drain o g fuel pending 0 w).2 :=
          fun pending w hw => drain_extends h fuel pending 0 w hw
        have hcongr : drainEach (fun pending w => drain o g (fuel + more) pending 0 w) drawn 0 w =
            drainEach (fun pending w => drain o g fuel pending 0 w) drawn 0 w :=
          drainEach_congr hextends (fun pending w hw hn => ih pending 0 w hw hn) drawn 0 w hw
            (by omega)
        have heach := drainEach_extends hextends drawn 0 w hw
        dsimp only
        rw [hcongr]
        generalize drainEach (fun pending w => drain o g fuel pending 0 w) drawn 0 w = each at heach
        obtain ⟨result, w'⟩ := each
        have hcard : w'.unmarked.card ≤ w.unmarked.card := Finset.card_le_card heach.shrinks
        cases result with
        | error fault => rfl
        | ok sampled => exact ih _ _ w' heach.sound (by omega)

end ShuffleBuffer.Estimate.Walk
