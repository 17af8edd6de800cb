import Mathlib.Order.Bounds.Basic
import ShuffleBuffer.Proofs.Headroom

/-! # The mask form as the least multiple

For every power of two the mask rounds a size up to the least multiple that is not below it, as long
as the sum that is masked is a word. From this follow the laws of rounding: it keeps the order, it
leaves multiples as they are, and what is rounded together comes to no more than what is rounded
apart. The overhead of a sequence is two rounded sizes, so it grows with the length as long as
nothing wraps. -/

namespace ShuffleBuffer.Estimate

theorem roundUp_of_dvd {a n : Nat} (ha : 0 < a) (h : a ∣ n) : roundUp a n = n :=
  Nat.le_antisymm (roundUp_le ha h (Nat.le_refl n)) (le_roundUp ha n)

/-- The sum of two multiples is a multiple, and not below the sum of what was rounded up. -/
theorem roundUp_add_le {a : Nat} (ha : 0 < a) (m n : Nat) :
    roundUp a (m + n) ≤ roundUp a m + roundUp a n :=
  roundUp_le ha (Nat.dvd_add (dvd_roundUp a m) (dvd_roundUp a n))
    (Nat.add_le_add (le_roundUp ha m) (le_roundUp ha n))

theorem isLeast_roundUp {a : Nat} (ha : 0 < a) (n : Nat) :
    IsLeast {m | a ∣ m ∧ n ≤ m} (roundUp a n) :=
  ⟨⟨dvd_roundUp a n, le_roundUp ha n⟩, fun _ hm => roundUp_le ha hm.1 hm.2⟩

instance (x y : UInt64) : Decidable (Fits x y) := inferInstanceAs (Decidable (_ < _))

namespace EstimatorOptions

variable {o : EstimatorOptions}

instance (size : UInt64) : Decidable (o.AlignFits size) := inferInstanceAs (Decidable (Fits _ _))

/-! ## Any power of two

Rounding reads the alignment and nothing else, so what holds of valid options holds of all options
whose alignment is a power of two. -/

/-- The same sizes, with a sampling that is valid. -/
def resampled (o : EstimatorOptions) : EstimatorOptions :=
  { o with samplingThreshold := 2, sampleCount := 1 }

theorem validate_resampled : o.resampled.validate = .ok () ↔ o.alignment.toNat.isPowerOfTwo := by
  constructor
  · intro h
    obtain ⟨k, -, hk⟩ := alignment_eq_two_pow h
    exact ⟨k, hk⟩
  · intro hpow
    have hpos : 0 < o.alignment.toNat := Nat.pos_of_isPowerOfTwo hpow
    have hzero : o.alignment ≠ 0 := fun h0 => by
      rw [h0] at hpos
      exact Nat.lt_irrefl 0 hpos
    have hone : (1 : UInt64) ≤ o.alignment := UInt64.le_iff_toNat_le.mpr hpos
    have hmask : o.alignment &&& (o.alignment - 1) = 0 := by
      apply UInt64.toNat_inj.mp
      rw [UInt64.toNat_and, UInt64.toNat_sub_of_le _ _ hone]
      exact (Nat.and_sub_one_eq_zero_iff_isPowerOfTwo (Nat.ne_of_gt hpos)).mpr hpow
    have hcount : ¬ (1 : UInt64) = 0 := by decide
    have hthreshold : ¬ (2 : UInt64) ≤ 1 := by decide
    simp only [validate, resampled, if_neg hcount, if_neg hthreshold, hzero, hmask, ne_eq,
      not_true_eq_false, or_self, if_false]

variable (h : o.alignment.toNat.isPowerOfTwo) {s t : UInt64}

include h

theorem toNat_align_eq_roundUp (hs : o.AlignFits s) :
    (o.align s).toNat = roundUp o.alignment.toNat s.toNat :=
  toNat_align (validate_resampled.mpr h) hs

/-- The mask form is the least multiple that is not below the size. -/
theorem isLeast_align (hs : o.AlignFits s) :
    IsLeast {m | o.alignment.toNat ∣ m ∧ s.toNat ≤ m} (o.align s).toNat := by
  rw [toNat_align_eq_roundUp h hs]
  exact isLeast_roundUp (Nat.pos_of_isPowerOfTwo h) s.toNat

omit h in
theorem AlignFits.mono (hle : s ≤ t) (ht : o.AlignFits t) : o.AlignFits s := by
  rw [UInt64.le_iff_toNat_le] at hle
  unfold AlignFits Fits at ht ⊢
  omega

theorem align_mono (hle : s ≤ t) (ht : o.AlignFits t) : o.align s ≤ o.align t := by
  rw [UInt64.le_iff_toNat_le, toNat_align_eq_roundUp h (ht.mono hle), toNat_align_eq_roundUp h ht]
  exact roundUp_mono (Nat.pos_of_isPowerOfTwo h) (UInt64.le_iff_toNat_le.mp hle)

/-- Words wrap at a multiple of the alignment, so this holds also where the sum wraps. -/
theorem align_align (s : UInt64) : o.align (o.align s) = o.align s := by
  have ho := validate_resampled.mpr h
  have hround : ∀ n, o.align (UInt64.ofNat n) = UInt64.ofNat (roundUp o.alignment.toNat n) :=
    align_ofNat (o := o.resampled) ho
  rw [← UInt64.ofNat_toNat (x := s), hround, hround,
    roundUp_of_dvd (Nat.pos_of_isPowerOfTwo h) (dvd_roundUp _ _)]

theorem toNat_align_add_le (hsum : Fits s t) (hfits : o.AlignFits (s + t)) :
    (o.align (s + t)).toNat ≤ (o.align s).toNat + (o.align t).toNat := by
  have hs : o.AlignFits s := hfits.mono (UInt64.le_iff_toNat_le.mpr (by rw [hsum.toNat_add]; omega))
  have ht : o.AlignFits t := hfits.mono (UInt64.le_iff_toNat_le.mpr (by rw [hsum.toNat_add]; omega))
  rw [toNat_align_eq_roundUp h hfits, toNat_align_eq_roundUp h hs, toNat_align_eq_roundUp h ht,
    hsum.toNat_add]
  exact roundUp_add_le (Nat.pos_of_isPowerOfTwo h) _ _

/-! ## The overhead of a sequence -/

omit h in
/-- No sum and no product wraps when the overhead of a sequence of this length is computed. -/
structure OverheadFits (o : EstimatorOptions) (length : UInt64) : Prop where
  bare : Fits o.objectHeader lengthFieldSize
  header : o.AlignFits (o.objectHeader + lengthFieldSize)
  slots : length.toNat * o.pointerSize.toNat < 2 ^ 64
  run : o.AlignFits (length * o.pointerSize)
  total : Fits o.sequenceHeader (o.align (length * o.pointerSize))

/-- The overhead of a sequence in unbounded numbers. -/
def overheadBytes (o : EstimatorOptions) (length : Nat) : Nat :=
  o.headerBytes + roundUp o.alignment.toNat (length * o.pointerSize.toNat)

theorem overheadBytes_mono {m n : Nat} (hle : m ≤ n) : o.overheadBytes m ≤ o.overheadBytes n :=
  Nat.add_le_add_left
    (roundUp_mono (Nat.pos_of_isPowerOfTwo h) (Nat.mul_le_mul_right o.pointerSize.toNat hle)) _

/-- The overhead is what these numbers come to as a word. -/
theorem sequenceOverhead_eq_ofNat (length : UInt64) :
    o.sequenceOverhead length = UInt64.ofNat (o.overheadBytes length.toNat) := by
  have hwords := sequenceOverhead_eq (validate_resampled.mpr h) length.toNat
  rwa [Nat.toUInt64, UInt64.ofNat_toNat] at hwords

/-- Each sum and the product are parts of the last sum, so that one decides. -/
theorem overheadFits_iff (length : UInt64) :
    o.OverheadFits length ↔ o.overheadBytes length.toNat < 2 ^ 64 := by
  have ho := validate_resampled.mpr h
  have hpos := Nat.pos_of_isPowerOfTwo h
  have hheaderLe := le_roundUp hpos (o.objectHeader.toNat + 4)
  have hrunLe := le_roundUp hpos (length.toNat * o.pointerSize.toNat)
  have hheaderEq (hbare : Fits o.objectHeader lengthFieldSize)
      (hheader : o.AlignFits (o.objectHeader + lengthFieldSize)) :
      o.sequenceHeader.toNat = o.headerBytes := by
    rw [sequenceHeader, toNat_align_eq_roundUp h hheader, hbare.toNat_add,
      Tracker.toNat_lengthFieldSize, headerBytes]
  have hslotsEq (hslots : length.toNat * o.pointerSize.toNat < 2 ^ 64) :
      (length * o.pointerSize).toNat = length.toNat * o.pointerSize.toNat := by
    rw [UInt64.toNat_mul, Nat.mod_eq_of_lt hslots]
  constructor
  · intro hfits
    have htotal := hfits.total
    rwa [Fits, hheaderEq hfits.bare hfits.header, toNat_align_eq_roundUp h hfits.run,
      hslotsEq hfits.slots] at htotal
  · intro htotal
    unfold overheadBytes headerBytes at htotal
    have hbare : Fits o.objectHeader lengthFieldSize := by
      rw [Fits, Tracker.toNat_lengthFieldSize]
      omega
    have hheader : o.AlignFits (o.objectHeader + lengthFieldSize) := by
      refine (alignFits_iff ho _).mpr ?_
      rw [hbare.toNat_add, Tracker.toNat_lengthFieldSize]
      exact Nat.lt_of_le_of_lt (Nat.le_add_right _ _) htotal
    have hslots : length.toNat * o.pointerSize.toNat < 2 ^ 64 := by omega
    have hrun : o.AlignFits (length * o.pointerSize) := by
      refine (alignFits_iff ho _).mpr ?_
      rw [hslotsEq hslots]
      exact Nat.lt_of_le_of_lt (Nat.le_add_left _ _) htotal
    refine ⟨hbare, hheader, hslots, hrun, ?_⟩
    rw [Fits, hheaderEq hbare hheader, toNat_align_eq_roundUp h hrun, hslotsEq hslots]
    exact htotal

theorem toNat_sequenceOverhead {length : UInt64} (hfits : o.OverheadFits length) :
    (o.sequenceOverhead length).toNat = o.overheadBytes length.toNat := by
  rw [sequenceOverhead_eq_ofNat h]
  exact UInt64.toNat_ofNat_of_lt ((overheadFits_iff h length).mp hfits)

/-- A shorter sequence fits where a longer one does, and its overhead is no more. -/
theorem sequenceOverhead_mono {l l' : UInt64} (hle : l ≤ l') (hfits : o.OverheadFits l') :
    o.OverheadFits l ∧ o.sequenceOverhead l ≤ o.sequenceOverhead l' := by
  have hbytes := overheadBytes_mono h (UInt64.le_iff_toNat_le.mp hle)
  have hshort : o.OverheadFits l :=
    (overheadFits_iff h l).mpr (Nat.lt_of_le_of_lt hbytes ((overheadFits_iff h l').mp hfits))
  refine ⟨hshort, ?_⟩
  rwa [UInt64.le_iff_toNat_le, toNat_sequenceOverhead h hshort, toNat_sequenceOverhead h hfits]

omit h in
/-- No slots are rounded up to nothing, whatever the mask. -/
theorem sequenceOverhead_zero (o : EstimatorOptions) : o.sequenceOverhead 0 = o.sequenceHeader := by
  have hnone : o.align 0 = 0 := by
    rw [align, UInt64.zero_add]
    exact UInt64.and_not_self
  rw [sequenceOverhead, UInt64.zero_mul, hnone, UInt64.add_zero]

end EstimatorOptions

/-- A visit to an empty sequence charges the header alone, whatever it is a sequence of. -/
theorem Walk.visit_empty {o : EstimatorOptions} {g : Graph} {id : NodeId}
    (hkind : (g.node id).kind = .sequence) (hempty : (g.node id).elementCount = 0) (w : Walk)
    (pending : List NodeId) :
    w.visit o g id pending = .charged o.sequenceHeader pending w := by
  cases hnode : g.node id with
  | sequence elements =>
    rw [hnode] at hempty
    have hfirst : elements[0]? = none := Array.getElem?_eq_none (Nat.le_of_eq hempty)
    simp only [visit, hnode, hfirst]
  | scalars type count =>
    rw [hnode] at hempty
    simp only [visit, hnode, if_pos (show count = 0 from hempty)]
  | units count =>
    rw [hnode] at hempty
    simp only [visit, hnode, if_pos (show count = 0 from hempty)]
  | _ => rw [hnode] at hkind; cases hkind

namespace EstimatorOptions

/-- For every power of two the mask form is the least multiple that is not below the size, as long
as the masked sum is a word. So rounding is monotone, idempotent and subadditive. The overhead of a
sequence is monotone in its length as long as nothing wraps, and at length zero it is what every
empty sequence is charged. -/
theorem align_laws {o : EstimatorOptions} (h : o.alignment.toNat.isPowerOfTwo) :
    (∀ s, o.AlignFits s →
      IsLeast {m | o.alignment.toNat ∣ m ∧ s.toNat ≤ m} (o.align s).toNat) ∧
    (∀ s t, s ≤ t → o.AlignFits t → o.align s ≤ o.align t) ∧
    (∀ s, o.align (o.align s) = o.align s) ∧
    (∀ s t, Fits s t → o.AlignFits (s + t) →
      (o.align (s + t)).toNat ≤ (o.align s).toNat + (o.align t).toNat ∧
      (Fits (o.align s) (o.align t) → o.align (s + t) ≤ o.align s + o.align t)) ∧
    (∀ l l', l ≤ l' → o.OverheadFits l' →
      o.OverheadFits l ∧ o.sequenceOverhead l ≤ o.sequenceOverhead l') ∧
    (∀ (g : Graph) (id : NodeId), (g.node id).kind = .sequence → (g.node id).elementCount = 0 →
      ∀ (w : Walk) (pending : List NodeId),
        w.visit o g id pending = .charged (o.sequenceOverhead 0) pending w) := by
  refine ⟨fun s => isLeast_align h, fun s t => align_mono h, align_align h, ?_,
    fun l l' => sequenceOverhead_mono h, ?_⟩
  · intro s t hsum hfits
    have hle := toNat_align_add_le h hsum hfits
    refine ⟨hle, fun happart => ?_⟩
    rwa [UInt64.le_iff_toNat_le, happart.toNat_add]
  · intro g id hkind hempty w pending
    rw [sequenceOverhead_zero]
    exact Walk.visit_empty hkind hempty w pending

/-- Multiples of eight, up to the last size that can be rounded up. -/
theorem align_laws_eight :
    let o : EstimatorOptions := {}
    o.alignment.toNat.isPowerOfTwo ∧
      IsLeast {m | 8 ∣ m ∧ 0xfffffffffffffff8 ≤ m} (o.align 0xfffffffffffffff8).toNat ∧
      IsLeast {m | 8 ∣ m ∧ 17 ≤ m} (o.align 17).toNat ∧
      o.align 17 ≤ o.align 0xfffffffffffffff1 ∧ o.align (o.align 17) = o.align 17 ∧
      (o.align (17 + 7)).toNat ≤ (o.align 17).toNat + (o.align 7).toNat ∧
      o.align (17 + 7) ≤ o.align 17 + o.align 7 ∧
      o.sequenceOverhead 3 ≤ o.sequenceOverhead 0x1ffffffffffffffc ∧
      Walk.visit ⟨⟨#[true]⟩, ⟨16, 8, [], 0⟩⟩ o ⟨#[.sequence #[]]⟩ 0 [] =
        .charged (o.sequenceOverhead 0) [] ⟨⟨#[true]⟩, ⟨16, 8, [], 0⟩⟩ := by
  intro o
  have hpow : o.alignment.toNat.isPowerOfTwo := ⟨3, rfl⟩
  obtain ⟨hleast, hmono, hidem, hsub, hover, hempty⟩ := align_laws hpow
  have hlong : o.OverheadFits 0x1ffffffffffffffc :=
    (overheadFits_iff hpow _).mpr (by decide)
  obtain ⟨hnat, hword⟩ := hsub 17 7 (by decide) (by decide)
  exact ⟨hpow, hleast _ (by decide), hleast _ (by decide), hmono _ _ (by decide) (by decide),
    hidem _, hnat, hword (by decide), (hover _ _ (by decide) hlong).2, hempty _ _ rfl rfl _ _⟩

end EstimatorOptions

end ShuffleBuffer.Estimate
