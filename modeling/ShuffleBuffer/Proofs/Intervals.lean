import ShuffleBuffer.Proofs.Restarts

/-! # The size at a checkpoint

A full estimate is of the tracker itself, with the samples that it retains. Taking it adds a sample,
so the tracker that has been estimated is not the one that is left. From the third sample on the new
one only takes the place of the oldest, and a sample looks like any other to the estimator: then a
fresh estimate of what is left finds the same bytes. The extrapolated size starts again from the
older of the two samples, and it lags behind by what the last interval has added. -/

namespace ShuffleBuffer.Estimate

namespace Tracker

variable {α : Type}

/-! ## Estimates of trackers that look the same -/

section Estimates

variable [Measured α]

/-- The estimator sees the elements and how many samples there are. -/
theorem fullEstimate_congr {t t' : Tracker α} (helements : t'.elements = t.elements)
    (hshared : t'.shared = t.shared) (hsamples : t'.samples.length = t.samples.length)
    (e : SizeEstimator) : t'.fullEstimate e = t.fullEstimate e := by
  have hvalue : t'.value = t.value := by
    rw [value, value, helements, List.map_const', List.map_const', hsamples]
  rw [fullEstimate, fullEstimate, hshared, hvalue]

/-- A successful checkpoint keeps what the estimator has found. -/
theorem takeSample_of_ok {t : Tracker α} {e : SizeEstimator} (h : (t.takeSample e).1 = .ok ()) :
    ∃ bytes, (t.fullEstimate e).1 = .ok bytes ∧
      (t.takeSample e).2.1 = t.scheduled.sampled bytes := by
  have hsame : t.scheduled.fullEstimate e = t.fullEstimate e := fullEstimate_congr rfl rfl rfl e
  rw [← hsame]
  unfold takeSample at h ⊢
  dsimp only at h ⊢
  rw [← scheduled] at h ⊢
  generalize t.scheduled.fullEstimate e = estimated at h ⊢
  obtain ⟨result, estimator⟩ := estimated
  cases result with
  | error fault => cases h
  | ok bytes => exact ⟨bytes, rfl, rfl⟩

end Estimates

/-! ## Samples of a tracker that comes up -/

variable {options : TrackerOptions} {shared : List Value} {xs : List α} {t : Tracker α}

/-- A checkpoint may fail and leave the samples as they were. -/
theorem Kept.attempted [Measured α] (h : t.Kept xs xs.length) (e : SizeEstimator) :
    (t.takeSample e).2.1.Kept xs (xs.length + 1) := by
  rcases takeSample_cases t e with ⟨fault, -, htaken⟩ | ⟨bytes, -, htaken⟩
  · rw [htaken]
    exact h.scheduled.mono (Nat.le_succ _)
  · rw [htaken]
    exact h.scheduled.sampled bytes

theorem Kept.append [Measured α] (h : t.Kept xs (xs.length + 1)) (hword : xs.length + 2 < 2 ^ 64)
    (e : SizeEstimator) (x : α) :
    (t.append e x).2.1.Kept (xs ++ [x]) ((xs ++ [x]).length + 1) := by
  by_cases hdue : t.due = true
  · rw [append_of_due t e x hdue]
    exact (h.pushed hword x).attempted e
  · rw [append_of_not_due t e x hdue]
    exact (h.pushed hword x).mono (Nat.le_succ _)

/-- Whatever its calls have found, a tracker whose updates are counted by a word retains the latest
two of the samples that it has taken. -/
theorem Reached.kept (h : Reached options shared xs t) (hword : xs.length + 1 < 2 ^ 64) :
    t.Kept xs (xs.length + 1) := by
  induction h with
  | made measured hmade =>
    rw [eq_of_make hmade]
    exact (blank_kept options.growthRate shared).attempted _
  | @performed o op xs t _ ih =>
    let measured := o.measured
    cases op with
    | append x =>
      have hlength : (Operation.after xs (.append x)).length = xs.length + 1 := by
        simp [Operation.after]
      exact (ih (by omega)).append (by omega) o.estimator x
    | clear =>
      rw [Occasion.perform, perform_clear]
      exact (blank_kept t.growthRate t.shared).attempted o.estimator
    | takeElements =>
      rw [Occasion.perform, perform_takeElements]
      exact (blank_kept t.growthRate t.shared).attempted o.estimator

/-! ## Checkpoints from the third sample on -/

/-- At the update of its newest sample a tracker is as large as its oldest. -/
theorem estimateSize_of_newest {oldest newest : Sample} (hsamples : t.samples = [oldest, newest])
    (hnewest : newest.updates = t.updates) : t.estimateSize = oldest.bytes := by
  unfold estimateSize
  rw [hsamples]
  show oldest.bytes + t.bytesPerUpdate * (t.updates - newest.updates) = oldest.bytes
  rw [hnewest, UInt64.sub_self, UInt64.mul_zero, UInt64.add_zero]

/-- One more sample takes the place of the oldest of two. -/
theorem sampled_of_two {dropped oldest : Sample} (h : t.samples = [dropped, oldest])
    (bytes : UInt64) : (t.sampled bytes).samples = [oldest, ⟨bytes, t.updates⟩] := by
  show latestTwo (t.samples ++ [⟨bytes, t.updates⟩]) = _
  rw [h]
  rfl

/-- A sample that takes the place of the oldest of two leaves a tracker that a fresh estimate finds
as it was, and whose size lags by one interval. -/
theorem Kept.sampled_lags [Measured α] (h : t.Kept xs xs.length) {dropped oldest : Sample}
    (hbefore : t.samples = [dropped, oldest]) {e e' : SizeEstimator} (he : e.Matched e')
    {bytes : UInt64} (hbytes : (t.fullEstimate e).1 = .ok bytes) :
    let after := t.scheduled.sampled bytes
    let newest : Sample := ⟨bytes, after.updates⟩
    after.samples = [oldest, newest] ∧ (after.fullEstimate e').1 = .ok bytes ∧
      after.estimateSize = oldest.bytes ∧
      ((newest.updates.toNat - oldest.updates.toNat : ℤ) ≤ bytes.toNat - oldest.bytes.toNat →
        (bytes.toNat - oldest.bytes.toNat : ℤ) =
          after.bytesPerUpdate.toNat + newest.updates.toNat - oldest.updates.toNat) := by
  intro after newest
  have hsamples : after.samples = [oldest, newest] :=
    sampled_of_two (t := t.scheduled) hbefore bytes
  have hlook : after.samples.length = t.samples.length := by
    rw [hsamples, hbefore]
    rfl
  have hsame : (t.fullEstimate e').1 = (t.fullEstimate e).1 :=
    SizeEstimator.estimate_congr he.usable he.usable' he.options _ _
  have hsize := estimateSize_of_newest hsamples rfl
  refine ⟨hsamples, ?_, hsize, fun hgrowth => ?_⟩
  · have helements : after.elements = t.elements := rfl
    have hshared : after.shared = t.shared := rfl
    rw [fullEstimate_congr helements hshared hlook, hsame, hbytes]
  · have hearlier : oldest.updates.toNat ≤ newest.updates.toNat := by
      have hreached := h.earlier oldest (by simp [hbefore])
      have hupdates : newest.updates.toNat = xs.length + 1 := h.updates
      omega
    have hrate : after.bytesPerUpdate = rateBetween oldest newest := congrArg rateOf hsamples
    have hgrown := toNat_rateBetween hearlier
    rw [hrate, hgrown, max_eq_right (by linarith)]
    linarith

/-- With the third sample or a later one taken, there were two before. -/
theorem Kept.two_before (h : t.Kept xs xs.length) (hword : xs.length + 1 < 2 ^ 64)
    (hthird : 3 ≤ t.samplesTaken + 1) : ∃ dropped oldest, t.samples = [dropped, oldest] := by
  have hfew := h.taken
  have hcount : (t.samplesTaken + 1).toNat = t.samplesTaken.toNat + 1 := by
    rw [UInt64.toNat_add, UInt64.toNat_one, Nat.mod_eq_of_lt (by omega)]
  have hthree : 3 ≤ (t.samplesTaken + 1).toNat := UInt64.le_iff_toNat_le.mp hthird
  have hretained := h.retained
  exact List.length_eq_two.mp (by omega)

/-- Right after a successful checkpoint with the third sample or a later one, a fresh estimate of the
tracker finds the bytes of the newest sample, and its size is that of the oldest. Where the bytes
between the two have grown at least as fast as the updates, the estimate is ahead of the size by the
rate and the updates of the interval. What the calls before have found does not matter, nor which of
them have failed. -/
theorem Reached.checkpoint_lags [Measured α] (h : Reached options shared xs t)
    (hword : xs.length + 2 < 2 ^ 64) {e e' : SizeEstimator} (he : e.Matched e') (x : α)
    (hdue : t.due = true) (hok : (t.append e x).1 = .ok ())
    (hthird : 3 ≤ (t.append e x).2.1.samplesTaken) :
    let after := (t.append e x).2.1
    ∃ oldest newest, after.samples = [oldest, newest] ∧ newest.updates = after.updates ∧
      (after.fullEstimate e').1 = .ok newest.bytes ∧ after.estimateSize = oldest.bytes ∧
      ((newest.updates.toNat - oldest.updates.toNat : ℤ) ≤
          newest.bytes.toNat - oldest.bytes.toNat →
        (newest.bytes.toNat - after.estimateSize.toNat : ℤ) =
          after.bytesPerUpdate.toNat + newest.updates.toNat - oldest.updates.toNat) := by
  have hpushed := (h.kept (by omega)).pushed hword x
  rw [append_of_due t e x hdue] at hok hthird ⊢
  obtain ⟨bytes, hbytes, htaken⟩ := takeSample_of_ok hok
  rw [htaken] at hthird ⊢
  have hlength : (xs ++ [x]).length + 1 < 2 ^ 64 := by
    rw [List.length_append, List.length_singleton]
    exact hword
  obtain ⟨dropped, oldest, hbefore⟩ := hpushed.two_before hlength hthird
  obtain ⟨hsamples, hfresh, hsize, hlag⟩ := hpushed.sampled_lags hbefore he hbytes
  refine ⟨oldest, _, hsamples, rfl, hfresh, hsize, fun hgrowth => ?_⟩
  rw [hsize]
  exact hlag hgrowth

/-- The third checkpoint of a tracker of texts. -/
theorem checkpoint_lags_texts :
    let e := SizeEstimator.ofOptions {}
    let o : Occasion Value := ⟨inferInstance, e⟩
    ∃ made e₁, Tracker.make (α := Value) {} e = (.ok made, e₁) ∧
      let t := o.perform made (.append (.text 5))
      let after := (t.append e (.text 500)).2.1
      t.due = true ∧ (t.append e (.text 500)).1 = .ok () ∧ after.samplesTaken = 3 ∧
      after.samples = [⟨192, 2⟩, ⟨768, 3⟩] ∧ (after.fullEstimate e₁).1 = .ok 768 ∧
      after.estimateSize = 192 ∧ (768 - 192 : ℤ) = after.bytesPerUpdate.toNat + 3 - 2 := by
  intro e o
  have hvalid : ({} : TrackerOptions).validate = .ok () := by decide +kernel
  have he : e.Usable := SizeEstimator.usable_ofOptions (by decide)
  have hmade := make_eq (α := Value) hvalid he []
  have hsame := matched_of_make he hmade
  refine ⟨_, _, hmade, ?_⟩
  intro t after
  have hreached : Reached {} [] [.text 5] t :=
    .performed o (.append (.text 5)) (.made inferInstance hmade)
  have hdue : t.due = true := by decide +kernel
  have hok : (t.append e (.text 500)).1 = .ok () := by decide +kernel
  have htaken : after.samplesTaken = 3 := by decide +kernel
  have hthird : 3 ≤ after.samplesTaken := by
    rw [htaken]
    exact UInt64.le_refl 3
  have hsamples : after.samples = [⟨192, 2⟩, ⟨768, 3⟩] := by decide +kernel
  obtain ⟨oldest, newest, htwo, -, hfresh, hsize, hlag⟩ :=
    hreached.checkpoint_lags (by decide) hsame (.text 500) hdue hok hthird
  obtain ⟨rfl, rfl⟩ : oldest = ⟨192, 2⟩ ∧ newest = ⟨768, 3⟩ := by
    simpa using htwo.symm.trans hsamples
  have hgrown := hlag (by decide)
  rw [hsize] at hgrown
  exact ⟨hdue, hok, htaken, hsamples, hfresh, hsize, hgrown⟩

end Tracker

end ShuffleBuffer.Estimate
