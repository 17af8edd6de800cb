import Mathlib.Analysis.SpecialFunctions.Log.Base
import ShuffleBuffer.Proofs.Restarts

/-! # The checkpoints of a tracker

The next checkpoint is set before its estimate is taken, from the count of updates and the growth
rate alone. So neither the elements nor a failed estimate can move it: the checkpoints that a tracker
comes to are those of one sequence of numbers. Where the rate takes each of them on by a constant
factor, there are logarithmically many among the updates of a run. -/

namespace ShuffleBuffer.Estimate

namespace Tracker

variable {α : Type} {rate : Float}

/-! ## The sequence of checkpoints -/

/-- The number of updates that the growth rate goes on to. -/
def grown (rate : Float) (updates : ℕ) : ℕ := (ceilWord (updates.toUInt64.toFloat * rate)).toNat

/-- The checkpoints: each is at least one update after the one before. -/
def schedule (rate : Float) : ℕ → ℕ
  | 0 => 1
  | i + 1 => max (schedule rate i + 1) (grown rate (schedule rate i))

/-- The checkpoints among the first `n` updates, in their order. The `i`-th of the sequence is not
before the `i`-th update, so that those beyond the first `n` of the sequence come too late. -/
def scheduledUpTo (rate : Float) (n : ℕ) : List ℕ :=
  ((List.range n).map (schedule rate)).filter (· ≤ n)

theorem schedule_strictMono (rate : Float) : StrictMono (schedule rate) :=
  strictMono_nat_of_lt_succ fun _ => Nat.lt_of_succ_le (le_max_left _ _)

theorem succ_le_schedule (rate : Float) (i : ℕ) : i + 1 ≤ schedule rate i := by
  induction i with
  | zero => exact le_rfl
  | succ i ih => exact (Nat.succ_le_succ ih).trans (le_max_left _ _)

theorem scheduledUpTo_eq {n k : ℕ} (hreached : ∀ i < k, schedule rate i ≤ n)
    (hahead : n < schedule rate k) : scheduledUpTo rate n = (List.range k).map (schedule rate) := by
  have hfew : k ≤ n := by
    cases k with
    | zero => exact Nat.zero_le n
    | succ i => exact (succ_le_schedule rate i).trans (hreached i i.lt_succ_self)
  obtain ⟨m, rfl⟩ := Nat.exists_eq_add_of_le hfew
  have hbefore : ∀ u ∈ (List.range k).map (schedule rate), decide (u ≤ k + m) = true := by
    intro u hu
    obtain ⟨i, hi, rfl⟩ := List.mem_map.mp hu
    exact decide_eq_true (hreached i (List.mem_range.mp hi))
  have hlate : ∀ u ∈ ((List.range m).map (k + ·)).map (schedule rate),
      ¬ decide (u ≤ k + m) = true := by
    intro u hu
    obtain ⟨j, hj, rfl⟩ := List.mem_map.mp hu
    obtain ⟨i, -, rfl⟩ := List.mem_map.mp hj
    have hmono := (schedule_strictMono rate).monotone (Nat.le_add_right k i)
    simpa using hahead.trans_le hmono
  rw [scheduledUpTo, List.range_add, List.map_append, List.filter_append,
    List.filter_eq_self.mpr hbefore, List.filter_eq_nil_iff.mpr hlate, List.append_nil]

/-- The counts of updates at which the appends of a run attempt a full estimate. These are the
appends at a checkpoint, as `append_of_due` and `append_of_not_due` tell. -/
def attempts (t : Tracker α) : List (α × Occasion α) → List ℕ
  | [] => []
  | (x, o) :: rest =>
      let later := (o.perform t (.append x)).attempts rest
      if t.due then (t.updates + 1).toNat :: later else later

theorem toNat_max_word (a b : UInt64) : (max a b).toNat = max a.toNat b.toNat := by
  rw [show max a b = if a ≤ b then b else a from rfl]
  split
  · next hle => exact (max_eq_right (UInt64.le_iff_toNat_le.mp hle)).symm
  · next hlt => exact (max_eq_left (UInt64.lt_iff_toNat_lt.mp (UInt64.not_le.mp hlt)).le).symm

/-- Below the largest word the next checkpoint is that of the sequence. -/
theorem toNat_checkpointAfter (rate : Float) {updates : UInt64} (h : updates.toNat + 1 < 2 ^ 64) :
    (checkpointAfter rate updates).toNat =
      max (updates.toNat + 1) (grown rate updates.toNat) := by
  have hnext : (updates + 1).toNat = updates.toNat + 1 := by
    rw [UInt64.toNat_add, UInt64.toNat_one, Nat.mod_eq_of_lt h]
  have hword : updates.toNat.toUInt64 = updates := UInt64.ofNat_toNat
  rw [checkpointAfter, toNat_max_word, hnext, grown, hword, max_comm]

/-- A tracker after its `n`-th update, with `k` checkpoints behind it. The count of updates is a
word, so that the next checkpoint is that of the sequence unless the count has reached the largest
word. -/
structure OnSchedule (rate : Float) (n k : ℕ) (t : Tracker α) : Prop where
  growthRate : t.growthRate = rate
  updates : t.updates.toNat = n
  reached : ∀ i < k, schedule rate i ≤ n
  ahead : n < schedule rate k
  next : n + 1 < 2 ^ 64 → t.nextSampleAt.toNat = schedule rate k

variable {t : Tracker α} {n k : ℕ}

/-- A checkpoint is behind the tracker when its estimate has been attempted, even if it has
failed. -/
theorem takeSample_onSchedule [Measured α] (e : SizeEstimator) (hrate : t.growthRate = rate)
    (hupdates : t.updates.toNat = n) (hat : schedule rate k = n) :
    (t.takeSample e).2.1.OnSchedule rate n (k + 1) := by
  have hmono := schedule_strictMono rate
  refine ⟨?_, ?_, fun i hi => ?_, ?_, fun hroom => ?_⟩
  · rw [takeSample_growthRate, hrate]
  · rw [takeSample_updates, hupdates]
  · exact hat ▸ hmono.monotone (Nat.le_of_lt_succ hi)
  · exact hat ▸ hmono k.lt_succ_self
  · rw [takeSample_nextSampleAt, toNat_checkpointAfter _ (hupdates ▸ hroom), hrate, hupdates,
      schedule, hat]

theorem OnSchedule.next_update (h : t.OnSchedule rate n k) (hroom : n + 1 < 2 ^ 64) :
    (t.updates + 1).toNat = n + 1 := by
  rw [UInt64.toNat_add, UInt64.toNat_one, h.updates, Nat.mod_eq_of_lt hroom]

/-- The next update is at a checkpoint exactly if it is the next of the sequence. -/
theorem OnSchedule.due_iff (h : t.OnSchedule rate n k) (hroom : n + 1 < 2 ^ 64) :
    t.due = true ↔ schedule rate k = n + 1 := by
  have hahead := h.ahead
  rw [due, decide_eq_true_eq, UInt64.le_iff_toNat_le, h.next hroom, h.next_update hroom]
  omega

/-- An append at a checkpoint puts it behind the tracker. -/
theorem OnSchedule.append_due [Measured α] (h : t.OnSchedule rate n k) (hroom : n + 1 < 2 ^ 64)
    (hdue : t.due = true) (e : SizeEstimator) (x : α) :
    (t.append e x).2.1.OnSchedule rate (n + 1) (k + 1) := by
  rw [append_of_due t e x hdue]
  exact takeSample_onSchedule e h.growthRate (h.next_update hroom) ((h.due_iff hroom).mp hdue)

/-- An append between checkpoints only counts. -/
theorem OnSchedule.append_early [Measured α] (h : t.OnSchedule rate n k) (hroom : n + 1 < 2 ^ 64)
    (hearly : ¬ t.due = true) (e : SizeEstimator) (x : α) :
    (t.append e x).2.1.OnSchedule rate (n + 1) k := by
  have hahead := h.ahead
  have hlater := mt (h.due_iff hroom).mpr hearly
  rw [append_of_not_due t e x hearly]
  exact ⟨h.growthRate, h.next_update hroom, fun i hi => (h.reached i hi).trans n.le_succ,
    by omega, fun _ => h.next hroom⟩

/-- The checkpoints behind a tracker and those at which the appends of a run attempt an estimate are
the checkpoints among all updates. -/
theorem OnSchedule.attempts (arrivals : List (α × Occasion α)) (h : t.OnSchedule rate n k)
    (hword : n + arrivals.length < 2 ^ 64) :
    (List.range k).map (schedule rate) ++ t.attempts arrivals =
      scheduledUpTo rate (n + arrivals.length) := by
  induction arrivals generalizing t n k with
  | nil =>
    rw [Tracker.attempts, List.append_nil]
    exact (scheduledUpTo_eq h.reached h.ahead).symm
  | cons arrival rest ih =>
    obtain ⟨x, o⟩ := arrival
    let measured := o.measured
    rw [List.length_cons] at hword ⊢
    have hroom : n + 1 < 2 ^ 64 := by omega
    have hcount : n + (rest.length + 1) = n + 1 + rest.length := by omega
    rw [Tracker.attempts, hcount]
    split
    · next hdue =>
      have hnext := h.append_due hroom hdue o.estimator x
      rw [← ih hnext (by omega), List.range_succ, List.map_append, List.append_assoc,
        h.next_update hroom, ← (h.due_iff hroom).mp hdue]
      rfl
    · next hearly => exact ih (h.append_early hroom hearly o.estimator x) (by omega)

end Tracker

end ShuffleBuffer.Estimate
