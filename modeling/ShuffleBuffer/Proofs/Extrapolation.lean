import ShuffleBuffer.Proofs.Overhead

/-! # What a tracker extrapolates from

The checkpoints of a tracker are fixed by its growth rate alone. Whatever its elements are, as long as
they can be read it holds the full estimates of what it held at the last two checkpoints, so its
size is that of the older of these two parts and what the growth between them makes of the updates
since the newer. -/

namespace ShuffleBuffer.Estimate

namespace Tracker

variable {α : Type} [Measured α] {o : EstimatorOptions} {rate : Float} {xs : List α}

/-! ## Checkpoints -/

/-- The numbers of updates at which full estimates are taken. -/
def checkpoint (rate : Float) : Nat → UInt64
  | 0 => 1
  | n + 1 => checkpointAfter rate (checkpoint rate n)

theorem succ_le_checkpointAfter (rate : Float) (updates : UInt64) :
    updates + 1 ≤ checkpointAfter rate updates := by
  have hmax : ∀ a b : UInt64, b ≤ max a b := by
    intro a b
    rw [show max a b = if a ≤ b then b else a from rfl]
    split
    · exact UInt64.le_refl b
    · next h => exact UInt64.le_of_lt (UInt64.not_le.mp h)
  exact hmax _ _

theorem lt_checkpointAfter (rate : Float) {updates : UInt64} (h : updates.toNat + 1 < 2 ^ 64) :
    updates.toNat < (checkpointAfter rate updates).toNat := by
  have hnext : (updates + 1).toNat = updates.toNat + 1 := by
    rw [UInt64.toNat_add, UInt64.toNat_one, Nat.mod_eq_of_lt h]
  have hle := UInt64.le_iff_toNat_le.mp (succ_le_checkpointAfter rate updates)
  omega

/-- What a tracker of these elements held at one of its checkpoints. A new tracker has been updated
once. -/
def heldAt (rate : Float) (xs : List α) (n : Nat) : List α :=
  xs.take ((checkpoint rate n).toNat - 1)

/-- The full estimate that a tracker of these elements has taken at one of its checkpoints. -/
def sampleAt (o : EstimatorOptions) (rate : Float) (xs : List α) (n : Nat) : Except Fault Sample :=
  (o.vectorBytes (heldAt rate xs n)).map fun bytes =>
    ⟨overhead o (min n 2) + bytes, checkpoint rate n⟩

theorem sampleAt_concat {n : Nat} (h : (checkpoint rate n).toNat ≤ xs.length + 1) (x : α) :
    sampleAt o rate (xs ++ [x]) n = sampleAt o rate xs n := by
  rw [sampleAt, sampleAt, heldAt, heldAt, List.take_append_of_le_length (by omega)]

theorem sample_of_ok {n : Nat} {sample : Sample} (h : sampleAt o rate xs n = .ok sample) :
    ∃ bytes, o.vectorBytes (heldAt rate xs n) = .ok bytes ∧
      sample = ⟨overhead o (min n 2) + bytes, checkpoint rate n⟩ := by
  unfold sampleAt at h
  cases hbytes : o.vectorBytes (heldAt rate xs n) with
  | error fault =>
    rw [hbytes] at h
    cases h
  | ok bytes =>
    rw [hbytes] at h
    exact ⟨bytes, rfl, (Except.ok.inj h).symm⟩

/-- At a checkpoint everything is held. -/
theorem sampleAt_reached {n : Nat} (h : (checkpoint rate n).toNat = xs.length + 1) :
    sampleAt o rate xs n = (o.vectorBytes xs).map fun bytes =>
      ⟨overhead o (min n 2) + bytes, checkpoint rate n⟩ := by
  rw [sampleAt, heldAt, h, Nat.add_sub_cancel, List.take_length]

/-! ## Two samples -/

/-- A tracker of these elements with the samples of its `n`-th checkpoint and the one before. -/
structure Past (o : EstimatorOptions) (rate : Float) (xs : List α) (t : Tracker α) (n : Nat)
    (older newer : Sample) : Prop where
  elements : t.elements.toList = xs
  shared : t.shared = []
  growthRate : t.growthRate = rate
  updates : t.updates = UInt64.ofNat (xs.length + 1)
  reached : ∀ k ≤ n, (checkpoint rate k).toNat ≤ xs.length + 1
  ahead : xs.length + 1 < (checkpoint rate (n + 1)).toNat
  next : t.nextSampleAt = checkpoint rate (n + 1)
  older_eq : sampleAt o rate xs (n - 1) = .ok older
  newer_eq : sampleAt o rate xs n = .ok newer
  samples : t.samples = if n = 0 then [newer] else [older, newer]
  taken : t.samplesTaken = UInt64.ofNat (n + 1)
  bytesPerUpdate : t.bytesPerUpdate = rateBetween older newer

/-- A tracker of these elements with the samples of its last two checkpoints. -/
def Tracks (o : EstimatorOptions) (rate : Float) (xs : List α) (t : Tracker α) : Prop :=
  ∃ n older newer, Past o rate xs t n older newer

variable {t : Tracker α} {e : SizeEstimator} {n : Nat} {older newer : Sample}

theorem Tracks.elements (h : Tracks o rate xs t) : t.elements.toList = xs := by
  obtain ⟨n, older, newer, hpast⟩ := h
  exact hpast.elements

theorem Past.length_samples (h : Past o rate xs t n older newer) :
    t.samples.length = min (n + 1) 2 := by
  rw [h.samples]
  cases n with
  | zero => rfl
  | succ n => simp

/-- The sample that is taken at a checkpoint. -/
theorem takeSample_eq (he : e.Usable) (hread : ∀ x ∈ xs, (describe x).Readable 0)
    (helements : t.elements.toList = xs) (hshared : t.shared = []) (hrate : t.growthRate = rate)
    (hupdates : t.updates = checkpoint rate n) (hreached : (checkpoint rate n).toNat = xs.length + 1)
    (hsamples : t.samples.length = min n 2) :
    ∃ newest, sampleAt e.options rate xs n = .ok newest ∧
      (t.takeSample e).1 = .ok () ∧ (t.takeSample e).2.1 =
        { t with
          nextSampleAt := checkpoint rate (n + 1)
          samples := latestTwo (t.samples ++ [newest])
          samplesTaken := t.samplesTaken + 1
          bytesPerUpdate := rateOf (latestTwo (t.samples ++ [newest])) } := by
  obtain ⟨bytes, hbytes⟩ := vectorBytes_ok he hread
  have hnext : checkpointAfter t.growthRate t.updates = checkpoint rate (n + 1) := by
    rw [hrate, hupdates, checkpoint]
  have hfull := fullEstimate_eq he hread
    (t := { t with nextSampleAt := checkpoint rate (n + 1) }) helements hshared
    (hsamples.trans_le (min_le_right n 2))
  rw [hbytes] at hfull
  refine ⟨⟨overhead e.options (min n 2) + bytes, checkpoint rate n⟩, ?_, ?_⟩
  · rw [sampleAt_reached hreached, hbytes]
    rfl
  · unfold takeSample
    dsimp only at hfull ⊢
    rw [hnext]
    generalize fullEstimate { t with nextSampleAt := checkpoint rate (n + 1) } e = estimated
      at hfull ⊢
    obtain ⟨result, e'⟩ := estimated
    dsimp only at hfull
    subst hfull
    rw [hsamples, ← hupdates]
    exact ⟨rfl, rfl⟩

/-- A new tracker has the sample of an empty one. -/
theorem make_tracks {options : TrackerOptions} {e' : SizeEstimator} (he : e.Usable)
    (h : Tracker.make (α := α) options e = (.ok t, e')) :
    Tracks e.options options.growthRate [] t := by
  have hnone : ∀ x ∈ ([] : List α), (describe x).Readable 0 := nofun
  obtain ⟨newest, hnewest, hok, htaken⟩ := takeSample_eq (n := 0) he hnone
    (t := blank (α := α) options.growthRate []) rfl rfl rfl rfl rfl rfl
  unfold make at h
  split at h
  · cases h
  · generalize (blank (α := α) options.growthRate []).takeSample e = taken at h hok htaken
    obtain ⟨result, t', estimator⟩ := taken
    dsimp only at hok htaken
    subst hok htaken
    cases h
    have hfirst : ∀ k ≤ 0, (checkpoint options.growthRate k).toNat ≤ 1 := by
      intro k hk
      rw [Nat.le_zero.mp hk]
      exact Nat.le_refl 1
    have hnext : (1 : UInt64).toNat < (checkpointAfter options.growthRate 1).toNat :=
      lt_checkpointAfter _ (by decide)
    exact ⟨0, newest, newest, rfl, rfl, rfl, rfl, hfirst, hnext, rfl, hnewest, hnewest, rfl, rfl,
      rfl⟩

/-- An element that comes is held from now on, and at a checkpoint the older sample is given up. -/
theorem append_tracks (he : e.Usable) (h : Tracks e.options rate xs t) {x : α}
    (hread : ∀ y ∈ xs ++ [x], (describe y).Readable 0) (hlength : xs.length + 3 < 2 ^ 64) :
    Tracks e.options rate (xs ++ [x]) (t.append e x).2.1 := by
  obtain ⟨n, older, newer, h⟩ := h
  have helements : (t.elements.push x).toList = xs ++ [x] := by
    rw [Array.toList_push, h.elements]
  have hupdates : t.updates + 1 = UInt64.ofNat ((xs ++ [x]).length + 1) := by
    rw [h.updates, List.length_append, List.length_singleton]
    exact (UInt64.ofNat_add _ 1).symm
  have hcount : (t.updates + 1).toNat = xs.length + 2 := by
    rw [hupdates, List.length_append, List.length_singleton, UInt64.toNat_ofNat',
      Nat.mod_eq_of_lt (by omega)]
  have hkept : ∀ k ≤ n, sampleAt e.options rate (xs ++ [x]) k = sampleAt e.options rate xs k :=
    fun k hk => sampleAt_concat (h.reached k hk) x
  have hnewer : sampleAt e.options rate (xs ++ [x]) n = .ok newer :=
    (hkept n (Nat.le_refl n)).trans h.newer_eq
  have holder : sampleAt e.options rate (xs ++ [x]) (n - 1) = .ok older :=
    (hkept (n - 1) (Nat.sub_le n 1)).trans h.older_eq
  have hlonger : (xs ++ [x]).length + 1 = xs.length + 2 := by simp
  have hreached : ∀ k ≤ n, (checkpoint rate k).toNat ≤ (xs ++ [x]).length + 1 :=
    fun k hk => hlonger ▸ (h.reached k hk).trans (Nat.le_succ _)
  have hahead := h.ahead
  unfold append
  dsimp only
  split
  · next hdue =>
    have hat : (checkpoint rate (n + 1)).toNat = (xs ++ [x]).length + 1 := by
      have := UInt64.le_iff_toNat_le.mp (h.next ▸ hdue)
      omega
    have hcheckpoint : t.updates + 1 = checkpoint rate (n + 1) :=
      UInt64.toNat_inj.mp (by rw [hat, hcount, hlonger])
    obtain ⟨newest, hnewest, -, htaken⟩ := takeSample_eq (n := n + 1) he hread
      (t := { t with elements := t.elements.push x, updates := t.updates + 1 }) helements h.shared
      h.growthRate hcheckpoint hat h.length_samples
    have hsamples : latestTwo (t.samples ++ [newest]) = [newer, newest] := by
      rw [h.samples]
      cases n with
      | zero => rfl
      | succ n => rfl
    have hlater : (checkpoint rate (n + 1)).toNat < (checkpoint rate (n + 2)).toNat :=
      lt_checkpointAfter rate (by omega)
    rw [htaken]
    refine ⟨n + 1, newer, newest, helements, h.shared, h.growthRate, hupdates, fun k hk => ?_,
      hat ▸ hlater, rfl, hnewer, hnewest, hsamples, ?_, congrArg rateOf hsamples⟩
    · rcases Nat.le_succ_iff.mp hk with hold | rfl
      · exact hreached k hold
      · exact Nat.le_of_eq hat
    · exact (congrArg (· + 1) h.taken).trans (UInt64.ofNat_add (n + 1) 1).symm
  · next hearly =>
    have hless := UInt64.lt_iff_toNat_lt.mp (UInt64.not_le.mp (h.next ▸ hearly))
    exact ⟨n, older, newer, helements, h.shared, h.growthRate, hupdates, hreached, by omega, h.next,
      holder, hnewer, h.samples, h.taken, h.bytesPerUpdate⟩

/-! ## The size -/

/-- The size of a tracker is the older estimate and the growth since the newer. -/
theorem Past.estimateSize_eq (h : Past o rate xs t n older newer) :
    t.estimateSize = older.bytes + rateBetween older newer *
      (UInt64.ofNat (xs.length + 1) - checkpoint rate n) := by
  obtain ⟨bytes, -, hnewer⟩ := sample_of_ok h.newer_eq
  have hupdates : newer.updates = checkpoint rate n := congrArg Sample.updates hnewer
  unfold estimateSize
  rw [h.samples, h.updates, h.bytesPerUpdate, ← hupdates]
  cases n with
  | zero =>
    have hsame : older = newer := Except.ok.inj (h.older_eq.symm.trans h.newer_eq)
    rw [hsame]
    rfl
  | succ n => rfl

end Tracker

end ShuffleBuffer.Estimate
