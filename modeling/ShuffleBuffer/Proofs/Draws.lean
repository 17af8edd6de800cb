import Mathlib.Algebra.Order.Ring.Nat
import Mathlib.Data.List.Basic
import Mathlib.Data.List.Nodup
import ShuffleBuffer.Estimate.Estimator

/-! # Drawn indices are different

Whichever way the indices are drawn, and whatever the words of the stream are, as many different
indices come out as were asked for, all of them below the length. A draw stays in its range also
when patience runs out. -/

namespace ShuffleBuffer.Sampling

/-! ## One draw -/

theorem scaled_lt {bits zone size : Nat} {draw : WordStream → Nat × WordStream}
    (hdraw : ∀ s, (draw s).1 < 2 ^ bits) (hsize : 0 < size) (redraws : Nat) (s : WordStream) :
    (scaled bits zone size draw redraws s).1 < size := by
  have hhigh (s : WordStream) : (draw s).1 * size / 2 ^ bits < size :=
    Nat.div_lt_of_lt_mul (Nat.mul_lt_mul_of_pos_right (hdraw s) hsize)
  induction redraws generalizing s with
  | zero => exact hhigh s
  | succ redraws ih =>
    rw [scaled]
    dsimp only
    split
    · exact hhigh s
    · exact ih _

theorem drawWord_lt (s : WordStream) : (drawWord s).1 < 2 ^ 32 := s.next.1.toNat_lt

theorem drawPair_lt (s : WordStream) : (drawPair s).1 < 2 ^ 64 := s.nextPair.1.toNat_lt

theorem inRange_le {low high : Nat} (h : low ≤ high) (s : WordStream) :
    (inRange low high s).1 ≤ high := by
  have hlt (zone : Nat) :
      (scaled 32 zone (high - low + 1) drawWord patience s).1 < high - low + 1 :=
    scaled_lt drawWord_lt (Nat.succ_pos _) patience s
  rw [inRange]
  dsimp only
  have hdraw := hlt ((high - low + 1) * Nat.pow 2 (31 - (high - low + 1).log2) - 1)
  omega

/-- Draws are of one word or of two. -/
theorem below_lt {bits size : Nat} (hbits : bits = 32 ∨ bits = 64) (hsize : 0 < size)
    (s : WordStream) : (below bits size s).1 < size := by
  rcases hbits with rfl | rfl
  · exact scaled_lt drawWord_lt hsize patience s
  · exact scaled_lt drawPair_lt hsize patience s

/-! ## Different indices -/

/-- So many different numbers, all below a bound. -/
structure Distinct (bound count : Nat) (drawn : List Nat) : Prop where
  nodup : drawn.Nodup
  length : drawn.length = count
  below : ∀ i ∈ drawn, i < bound

variable {bound count length : Nat} {drawn drawn' : List Nat}

theorem Distinct.perm (h : Distinct bound count drawn) (hperm : drawn'.Perm drawn) :
    Distinct bound count drawn' :=
  ⟨hperm.nodup_iff.mpr h.nodup, hperm.length_eq.trans h.length,
    fun i hi => h.below i (hperm.mem_iff.mp hi)⟩

theorem Distinct.cons (h : Distinct bound count drawn) {i : Nat} (hi : i < bound)
    (hnew : i ∉ drawn) : Distinct bound (count + 1) (i :: drawn) :=
  ⟨List.nodup_cons.mpr ⟨hnew, h.nodup⟩, congrArg Nat.succ h.length,
    List.forall_mem_cons.mpr ⟨hi, h.below⟩⟩

theorem Distinct.mono (h : Distinct bound count drawn) {bound' : Nat} (hle : bound ≤ bound') :
    Distinct bound' count drawn :=
  ⟨h.nodup, h.length, fun i hi => Nat.lt_of_lt_of_le (h.below i hi) hle⟩

theorem distinct_range (length : Nat) : Distinct length length (List.range length) :=
  ⟨List.nodup_range, List.length_range, fun _ => List.mem_range.mp⟩

/-- A loop over consecutive numbers takes what holds of the first to what holds behind the last. -/
theorem foldl_range' {σ : Type} {motive : Nat → σ → Prop} {f : σ → Nat → σ} (start count : Nat)
    (hstep : ∀ j x, start ≤ j → j < start + count → motive j x → motive (j + 1) (f x j)) {x : σ}
    (hfirst : motive start x) : motive (start + count) ((List.range' start count).foldl f x) := by
  induction count generalizing start x with
  | zero => exact hfirst
  | succ count ih =>
    rw [List.range'_succ, List.foldl_cons, Nat.add_comm count, ← Nat.add_assoc]
    refine ih (start + 1) (fun j x hlow hhigh => hstep j x (by omega) (by omega)) ?_
    exact hstep start x (Nat.le_refl start) (by omega) hfirst

/-! ## A shuffle of the front -/

theorem swapIfInBounds_perm (places : Array Nat) (i k : Nat) :
    (places.swapIfInBounds i k).toList.Perm places.toList := by
  rw [Array.swapIfInBounds_def]
  split
  · split
    · exact (Array.swap_perm _ _).toList
    · exact .refl _
  · exact .refl _

/-- Swaps with drawn places only reorder. -/
theorem swaps_perm (draw : Nat → WordStream → Nat × WordStream) (steps : List Nat)
    (places : Array Nat) (s : WordStream) :
    (steps.foldl (fun (places, s) i =>
      let (k, s) := draw i s
      (places.swapIfInBounds i k, s)) (places, s)).1.toList.Perm places.toList := by
  induction steps generalizing places s with
  | nil => exact .refl _
  | cons i steps ih => exact (ih _ _).trans (swapIfInBounds_perm places i _)

theorem shuffledFront_distinct (h : count ≤ length) (s : WordStream) :
    Distinct length count (shuffledFront length count s).1 := by
  have hperm := swaps_perm (fun i => inRange i (length - 1)) (List.range count)
    (Array.range length) s
  rw [Array.toList_range] at hperm
  have hall := (distinct_range length).perm hperm
  have htake (places : Array Nat) : (places.take count).toList = places.toList.take count := by
    simp
  rw [shuffledFront]
  dsimp only at hall ⊢
  rw [htake]
  refine ⟨hall.nodup.sublist (List.take_sublist count _), ?_, fun i hi => ?_⟩
  · rw [List.length_take, hall.length, Nat.min_eq_left h]
  · exact hall.below i (List.mem_of_mem_take hi)

/-! ## A growing range -/

theorem insertBefore_perm {t : Nat} (h : t ∈ drawn) (j : Nat) :
    (insertBefore t j drawn).Perm (j :: drawn) := by
  induction drawn with
  | nil => cases h
  | cons x xs ih =>
    rw [insertBefore]
    split
    · exact .refl _
    · next hother =>
      have hrest : t ∈ xs := (List.mem_cons.mp h).resolve_left (Ne.symm hother)
      exact ((ih hrest).cons x).trans (.swap j x xs)

/-- One more index from `0` to `j`: the one that was drawn if it is new, and `j` otherwise. -/
theorem Distinct.grow {j t : Nat} (h : Distinct j count drawn) (ht : t ≤ j) (ordered : Bool) :
    Distinct (j + 1) (count + 1) (if t ∈ drawn then
      (if ordered then insertBefore t j drawn else drawn ++ [j]) else drawn ++ [t]) := by
  have hlarger : Distinct (j + 1) count drawn := h.mono (Nat.le_succ j)
  have hj : Distinct (j + 1) (count + 1) (j :: drawn) :=
    hlarger.cons (Nat.lt_succ_self j) fun hin => Nat.lt_irrefl j (h.below j hin)
  split
  · next htaken =>
    split
    · exact hj.perm (insertBefore_perm htaken j)
    · exact hj.perm (List.perm_append_singleton j drawn)
  · next hnew =>
    exact (hlarger.cons (Nat.lt_succ_of_le ht) hnew).perm (List.perm_append_singleton t drawn)

/-- What one draw for each of the last indices makes of the drawn ones. -/
theorem grown_distinct (h : count ≤ length) (ordered : Bool) (s : WordStream) :
    Distinct length count ((List.range' (length - count) count).foldl (fun (drawn, s) j =>
      let (t, s) := inRange 0 j s
      if t ∈ drawn then (if ordered then insertBefore t j drawn else drawn ++ [j], s)
      else (drawn ++ [t], s)) (([], s) : List Nat × WordStream)).1 := by
  have hloop := foldl_range' (length - count) count
    (motive := fun j (x : List Nat × WordStream) => Distinct j (j - (length - count)) x.1)
    (f := fun (drawn, s) j =>
      let (t, s) := inRange 0 j s
      if t ∈ drawn then (if ordered then insertBefore t j drawn else drawn ++ [j], s)
      else (drawn ++ [t], s)) (fun j x hlow _ hx => ?_) (x := ([], s)) ?_
  · rwa [Nat.sub_add_cancel h, Nat.sub_sub_self h] at hloop
  · have hgrown := hx.grow (inRange_le (Nat.zero_le j) x.2) ordered
    rw [Nat.succ_sub hlow]
    dsimp only
    split
    · next htaken => rwa [if_pos htaken] at hgrown
    · next hnew => rwa [if_neg hnew] at hgrown
  · rw [Nat.sub_self]
    exact ⟨List.nodup_nil, rfl, nofun⟩

theorem growing_distinct (h : count ≤ length) (s : WordStream) :
    Distinct length count (growing length count s).1 := by
  have hdrawn := grown_distinct h (decide (count < keptInOrder)) s
  rw [growing]
  generalize decide (count < keptInOrder) = ordered at hdrawn ⊢
  cases ordered with
  | true => exact hdrawn
  | false => exact hdrawn.perm (swaps_perm (fun i => inRange 0 i) _ _ _)

/-! ## Draws until the index is new -/

/-- Among the numbers up to their count there is one that is not drawn. -/
theorem exists_notMem (drawn : List Nat) : ∃ i ≤ drawn.length, i ∉ drawn := by
  by_contra hnone
  push Not at hnone
  have hsubset : List.range (drawn.length + 1) ⊆ drawn := fun i hi =>
    hnone i (Nat.le_of_lt_succ (List.mem_range.mp hi))
  have hlength := List.Nodup.length_le_of_subset List.nodup_range hsubset
  rw [List.length_range] at hlength
  exact Nat.not_succ_le_self _ hlength

theorem fresh_spec {bits : Nat} (hbits : bits = 32 ∨ bits = 64) (h : drawn.length < length)
    (redraws : Nat) (s : WordStream) :
    let v := (fresh bits length drawn redraws s).1
    v < length ∧ v ∉ drawn := by
  induction redraws generalizing s with
  | zero =>
    obtain ⟨i, hi, hnew⟩ := exists_notMem drawn
    rw [fresh]
    cases hfound : (List.range (drawn.length + 1)).find? (· ∉ drawn) with
    | none =>
      have hall := List.find?_eq_none.mp hfound i (List.mem_range.mpr (Nat.lt_succ_of_le hi))
      exact absurd hnew (by simpa using hall)
    | some v =>
      have hrange := List.mem_range.mp (List.mem_of_find?_eq_some hfound)
      have hv := List.find?_some hfound
      exact ⟨Nat.lt_of_lt_of_le hrange h, by simpa using hv⟩
  | succ redraws ih =>
    rw [fresh]
    dsimp only
    split
    · exact ih _
    · next hnew => exact ⟨below_lt hbits (Nat.zero_lt_of_lt h) s, hnew⟩

theorem redrawn_distinct {bits : Nat} (hbits : bits = 32 ∨ bits = 64) (h : count ≤ length)
    (s : WordStream) : Distinct length count (redrawn bits length count s).1 := by
  have hloop := foldl_range' 0 count
    (motive := fun j (x : List Nat × WordStream) => j ≤ count → Distinct length j x.1)
    (f := fun (drawn, s) _ =>
      let (v, s) := fresh bits length drawn patience s
      (v :: drawn, s)) (fun j x _ hj hx _ => ?_) (x := ([], s)) fun _ => ?_
  · rw [redrawn, List.range_eq_range']
    rw [Nat.zero_add] at hloop
    exact (hloop (Nat.le_refl count)).perm (List.reverse_perm _)
  · have hx := hx (by omega)
    have hroom : x.1.length < length := by
      rw [hx.length]
      omega
    obtain ⟨hrange, hnew⟩ := fresh_spec hbits hroom patience x.2
    exact hx.cons hrange hnew
  · exact ⟨List.nodup_nil, rfl, nofun⟩

/-! ## All ways -/

/-- As many different indices below the length as were asked for, or all there are. -/
theorem sampleIndices_distinct (length count : Nat) (s : WordStream) :
    Distinct length (min count length) (sampleIndices length count s).1 := by
  unfold sampleIndices
  split
  · next hall =>
    rw [Nat.min_eq_right hall]
    exact distinct_range length
  · next hfew =>
    have hle : count ≤ length := Nat.le_of_lt (Nat.not_le.mp hfew)
    rw [Nat.min_eq_left hle]
    split
    · exact redrawn_distinct (.inr rfl) hle s
    · split
      · exact shuffledFront_distinct hle s
      · split
        · exact growing_distinct hle s
        · exact redrawn_distinct (.inl rfl) hle s

end ShuffleBuffer.Sampling

namespace ShuffleBuffer.Estimate.EstimatorOptions

/-- A sequence that is sampled is longer than the number of samples. -/
theorem drawn_distinct {o : EstimatorOptions} (h : o.validate = .ok ()) {length : Nat}
    (hlong : o.samplingThreshold.toNat < length) :
    Sampling.Distinct length o.sampleCount.toNat (o.drawn length) := by
  have hcount : o.sampleCount.toNat < o.samplingThreshold.toNat := by
    unfold validate at h
    split at h
    · cases h
    · split at h
      · cases h
      · next hless => exact UInt64.lt_iff_toNat_lt.mp (UInt64.not_le.mp hless)
  have hdistinct := Sampling.sampleIndices_distinct length o.sampleCount.toNat (.ofSeed o.seed)
  rwa [Nat.min_eq_left (Nat.le_of_lt (Nat.lt_trans hcount hlong))] at hdistinct

end ShuffleBuffer.Estimate.EstimatorOptions
