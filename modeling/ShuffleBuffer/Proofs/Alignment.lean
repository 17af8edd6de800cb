import Mathlib.Algebra.Order.Group.Nat
import ShuffleBuffer.Estimate.Estimator

/-! # Alignment as rounding up

The estimator rounds with a mask. For a power of two that is the least multiple of the alignment
that is not below the size. Words wrap at a multiple of every alignment, so rounding a wrapped size
is wrapping the rounded one: nothing has to be assumed about overflow before the final sum. -/

namespace ShuffleBuffer.Estimate

/-- The least multiple of `a` that is not below `n`. -/
def roundUp (a n : Nat) : Nat := (n + (a - 1)) - (n + (a - 1)) % a

theorem dvd_roundUp (a n : Nat) : a ∣ roundUp a n := Nat.dvd_sub_mod _

theorem le_roundUp {a : Nat} (ha : 0 < a) (n : Nat) : n ≤ roundUp a n := by
  have hmod := Nat.mod_lt (n + (a - 1)) ha
  unfold roundUp
  omega

theorem roundUp_le {a n m : Nat} (ha : 0 < a) (hm : a ∣ m) (hn : n ≤ m) : roundUp a n ≤ m := by
  obtain ⟨q, rfl⟩ := hm
  have hlt : n + (a - 1) < a * (q + 1) := by rw [Nat.mul_add]; omega
  have hq : (n + (a - 1)) / a ≤ q := Nat.lt_succ_iff.mp (Nat.div_lt_of_lt_mul hlt)
  calc roundUp a n = a * ((n + (a - 1)) / a) := by
        unfold roundUp
        have := Nat.div_add_mod (n + (a - 1)) a
        omega
    _ ≤ a * q := Nat.mul_le_mul_left a hq

theorem roundUp_mono {a m n : Nat} (ha : 0 < a) (h : m ≤ n) : roundUp a m ≤ roundUp a n :=
  roundUp_le ha (dvd_roundUp a n) (h.trans (le_roundUp ha n))

/-- Taking the remainder off commutes with wrapping at a multiple of the divisor. -/
theorem sub_mod_wrap {a b : Nat} (hab : a ∣ b) (n : Nat) : n % b - n % b % a = (n - n % a) % b := by
  rw [Nat.mod_mod_of_dvd _ hab]
  have hle : n % a ≤ n % b := by
    rw [← Nat.mod_mod_of_dvd n hab]; exact Nat.mod_le _ _
  rcases Nat.eq_zero_or_pos b with rfl | hb
  · simp
  have hsplit : n - n % a = (n % b - n % a) + b * (n / b) := by
    have := Nat.div_add_mod n b
    omega
  have hlt : n % b - n % a < b := by
    have := Nat.mod_lt n hb
    omega
  rw [hsplit, Nat.add_mul_mod_self_left]
  exact (Nat.mod_eq_of_lt hlt).symm

/-- Clearing the low `k` bits of a word takes its remainder off. -/
theorem clear_low_bits {x k : Nat} (hk : k ≤ 64) (hx : x < 2 ^ 64) :
    x &&& (2 ^ 64 - 1 - (2 ^ k - 1)) = x - x % 2 ^ k := by
  have hle : 2 ^ k ≤ 2 ^ 64 := Nat.pow_le_pow_right (by omega) hk
  have hpos := Nat.two_pow_pos k
  have hdiv : x - x % 2 ^ k = (x >>> k) <<< k := by
    rw [Nat.shiftRight_eq_div_pow, Nat.shiftLeft_eq, Nat.mul_comm]
    have := Nat.div_add_mod x (2 ^ k)
    omega
  rw [hdiv]
  apply Nat.eq_of_testBit_eq
  intro i
  rw [show 2 ^ 64 - 1 - (2 ^ k - 1) = 2 ^ 64 - (2 ^ k - 1 + 1) by omega, Nat.testBit_and,
    Nat.testBit_two_pow_sub_succ (by omega), Nat.testBit_two_pow_sub_one, Nat.testBit_shiftLeft,
    Nat.testBit_shiftRight]
  by_cases hi : i < k
  · simp [hi, Nat.not_le.mpr hi]
  · have hki : k ≤ i := Nat.le_of_not_lt hi
    by_cases hi64 : i < 64
    · simp [hi, hki, hi64]
    · have hbit : x.testBit i = false := Nat.testBit_lt_two_pow
        (Nat.lt_of_lt_of_le hx (Nat.pow_le_pow_right (by omega) (by omega)))
      simp [hki, hbit]

namespace EstimatorOptions

/-- Options that were accepted have a power of two for an alignment. -/
theorem alignment_eq_two_pow {o : EstimatorOptions} (h : o.validate = .ok ()) :
    ∃ k ≤ 63, o.alignment.toNat = 2 ^ k := by
  simp only [validate] at h
  split at h
  · cases h
  split at h
  · cases h
  split at h
  · cases h
  rename_i hpow
  obtain ⟨hzero, hand⟩ : o.alignment ≠ 0 ∧ o.alignment &&& (o.alignment - 1) = 0 := by
    simpa using hpow
  have hpos : 1 ≤ o.alignment.toNat :=
    Nat.one_le_iff_ne_zero.mpr fun h0 => hzero (UInt64.toNat_inj.mp h0)
  have hsub : (o.alignment - 1).toNat = o.alignment.toNat - 1 :=
    UInt64.toNat_sub_of_le _ _ (UInt64.le_iff_toNat_le.mpr hpos)
  have hnat : o.alignment.toNat &&& (o.alignment.toNat - 1) = 0 := by
    rw [← hsub, ← UInt64.toNat_and, hand]; rfl
  obtain ⟨k, hk⟩ := (Nat.and_sub_one_eq_zero_iff_isPowerOfTwo (by omega)).mp hnat
  refine ⟨k, ?_, hk⟩
  by_contra hlarge
  have hlt : o.alignment.toNat < 2 ^ 64 := o.alignment.toNat_lt
  have hge : 2 ^ 64 ≤ 2 ^ k := Nat.pow_le_pow_right (by omega) (by omega)
  omega

/-- The mask form is rounding up, whether or not the size has wrapped before. -/
theorem align_ofNat {o : EstimatorOptions} (h : o.validate = .ok ()) (n : Nat) :
    o.align (UInt64.ofNat n) = UInt64.ofNat (roundUp o.alignment.toNat n) := by
  obtain ⟨k, hk, ha⟩ := alignment_eq_two_pow h
  have hone : (1 : UInt64) ≤ o.alignment :=
    UInt64.le_iff_toNat_le.mpr (by rw [ha]; exact Nat.two_pow_pos k)
  have hmask : (o.alignment - 1).toNat = 2 ^ k - 1 := by
    rw [UInt64.toNat_sub_of_le _ _ hone, ha]; rfl
  have hnot : (~~~(o.alignment - 1)).toNat = 2 ^ 64 - 1 - (2 ^ k - 1) := by
    rw [UInt64.toNat_not, hmask]; rfl
  have hsum : (UInt64.ofNat n + (o.alignment - 1)).toNat = (n + (2 ^ k - 1)) % 2 ^ 64 := by
    rw [UInt64.toNat_add, hmask, UInt64.toNat_ofNat', Nat.mod_add_mod]
  have hdvd : 2 ^ k ∣ 2 ^ 64 := Nat.pow_dvd_pow 2 (by omega)
  apply UInt64.toNat_inj.mp
  show ((UInt64.ofNat n + (o.alignment - 1)) &&& ~~~(o.alignment - 1)).toNat = _
  rw [UInt64.toNat_and, hsum, hnot, clear_low_bits (by omega) (Nat.mod_lt _ (by omega)),
    sub_mod_wrap hdvd, UInt64.toNat_ofNat', ha]
  rfl

end EstimatorOptions

end ShuffleBuffer.Estimate
