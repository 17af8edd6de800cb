import ShuffleBuffer.Proofs.Prices

/-! # Multiples of the alignment

Whatever is rounded up is a multiple of the alignment, and words wrap at a multiple of it, so all
these charges together are one. What is scaled up is added as it is. So an estimate is a multiple of
the alignment exactly if what the walk scales up comes to one, and always where nothing is too long
to be walked. -/

namespace ShuffleBuffer.Estimate

namespace EstimatorOptions

/-- A multiple of the alignment. -/
def Aligned (o : EstimatorOptions) (bytes : UInt64) : Prop := o.alignment.toNat ∣ bytes.toNat

instance (o : EstimatorOptions) (bytes : UInt64) : Decidable (o.Aligned bytes) :=
  inferInstanceAs (Decidable (_ ∣ _))

variable {o : EstimatorOptions} {x y : UInt64}

theorem alignment_dvd (h : o.validate = .ok ()) : o.alignment.toNat ∣ 2 ^ 64 := by
  obtain ⟨k, hk, ha⟩ := alignment_eq_two_pow h
  rw [ha]
  exact Nat.pow_dvd_pow 2 (by omega)

theorem aligned_zero (o : EstimatorOptions) : o.Aligned 0 := Nat.dvd_zero _

/-- A number that wraps stays a multiple. -/
theorem aligned_ofNat (h : o.validate = .ok ()) {n : Nat} (hn : o.alignment.toNat ∣ n) :
    o.Aligned (UInt64.ofNat n) := by
  rw [Aligned, UInt64.toNat_ofNat']
  exact (Nat.dvd_mod_iff (alignment_dvd h)).mpr hn

theorem aligned_add_iff (h : o.validate = .ok ()) (hx : o.Aligned x) :
    o.Aligned (x + y) ↔ o.Aligned y := by
  rw [Aligned, UInt64.toNat_add, Nat.dvd_mod_iff (alignment_dvd h)]
  exact Nat.dvd_add_right hx

theorem Aligned.add (h : o.validate = .ok ()) (hx : o.Aligned x) (hy : o.Aligned y) :
    o.Aligned (x + y) := (aligned_add_iff h hx).mpr hy

end EstimatorOptions

open EstimatorOptions

variable {o : EstimatorOptions} {g : Graph}

namespace Graph

/-- All that a value costs by itself is rounded up. -/
theorem dvd_cost (g : Graph) (o : EstimatorOptions) (id : NodeId) :
    o.alignment.toNat ∣ g.cost o id := by
  unfold cost
  split
  · exact Nat.dvd_zero _
  · exact Nat.dvd_zero _
  · exact dvd_roundUp _ _
  · exact dvd_roundUp _ _
  · split
    · exact dvd_roundUp _ _
    · exact Nat.dvd_add (dvd_roundUp _ _) (dvd_roundUp _ _)
  · split
    · exact dvd_roundUp _ _
    · exact Nat.dvd_add (Nat.dvd_add (dvd_roundUp _ _) (dvd_roundUp _ _))
        (Nat.dvd_mul_left_of_dvd (dvd_roundUp _ _) _)
  · split
    · exact dvd_roundUp _ _
    · split
      · exact Nat.dvd_add (dvd_roundUp _ _) (dvd_roundUp _ _)
      · exact Nat.dvd_add (dvd_roundUp _ _) (dvd_roundUp _ _)

theorem dvd_rounded (g : Graph) (o : EstimatorOptions) (id : NodeId) :
    o.alignment.toNat ∣ g.rounded o id := by
  unfold rounded
  split
  · split
    · exact Nat.dvd_add (dvd_roundUp _ _) (dvd_roundUp _ _)
    · exact g.dvd_cost o id
  · exact g.dvd_cost o id

end Graph

namespace Walk

/-- What a walk scales up: elements without size, and the samples of sequences that it comes to on
its own stack. What is scaled up within a drawn element is part of a sample. -/
def extrapolated (o : EstimatorOptions) (g : Graph) : Nat → List NodeId → Walk → UInt64
  | _, [], _ => 0
  | 0, _ :: _, _ => 0
  | fuel + 1, id :: pending, w =>
      match w.visit o g id pending with
      | .failed _ _ => 0
      | .charged _ pending w => g.scaledUnits o id + extrapolated o g fuel pending w
      | .sampled _ length ids w =>
          match drainEach (fun pending w => drain o g fuel pending 0 w) ids 0 w with
          | (.error _, _) => 0
          | (.ok sampled, w) =>
              g.scaledUnits o id + o.extrapolate length sampled + extrapolated o g fuel pending w

/-- All else that a walk adds up is rounded up. -/
theorem drain_rounded (h : o.validate = .ok ()) (fuel : Nat) (pending : List NodeId)
    (size : UInt64) (w : Walk) (hw : w.SoundFor o) {bytes : UInt64} {w' : Walk}
    (hok : drain o g fuel pending size w = (.ok bytes, w')) :
    ∃ rounded, o.Aligned rounded ∧
      bytes = size + (rounded + extrapolated o g fuel pending w) := by
  induction fuel generalizing pending size w with
  | zero =>
    refine ⟨0, o.aligned_zero, ?_⟩
    cases pending with
    | nil =>
      cases hok
      rw [extrapolated, UInt64.add_zero, UInt64.add_zero]
    | cons id pending =>
      cases hok
      rw [extrapolated, UInt64.add_zero, UInt64.add_zero]
  | succ fuel ih =>
    cases pending with
    | nil =>
      cases hok
      exact ⟨0, o.aligned_zero, by rw [extrapolated, UInt64.add_zero, UInt64.add_zero]⟩
    | cons id pending =>
      have hown : o.Aligned (UInt64.ofNat (g.rounded o id)) := aligned_ofNat h (g.dvd_rounded o id)
      have hvisit := visit_prices h hw g id pending
      rw [drain] at hok
      rw [extrapolated]
      generalize w.visit o g id pending = outcome at hvisit hok
      cases hvisit with
      | failed _ => cases hok
      | charged _ _ _ hsound =>
        obtain ⟨rounded, haligned, hbytes⟩ := ih _ _ _ hsound hok
        refine ⟨UInt64.ofNat (g.rounded o id) + rounded, hown.add h haligned, ?_⟩
        rw [hbytes, Graph.price]
        ac_rfl
      | sampled _ =>
        have heach := drainEach_extends (o := o) (fun pending w hw =>
          drain_extends (g := g) h fuel pending 0 w hw) (g.leads o id) 0 w hw
        dsimp only at hok ⊢
        generalize drainEach (fun pending w => drain o g fuel pending 0 w) (g.leads o id) 0 w =
          each at heach hok ⊢
        obtain ⟨result, w₁⟩ := each
        cases result with
        | error _ => cases hok
        | ok sampled =>
          obtain ⟨rounded, haligned, hbytes⟩ := ih _ _ _ heach.sound hok
          refine ⟨UInt64.ofNat (g.rounded o id) + rounded, hown.add h haligned, ?_⟩
          rw [hbytes, Graph.price]
          ac_rfl

/-- Where nothing is oversized, nothing is scaled up. -/
theorem extrapolated_eq_zero (h : o.validate = .ok ()) (fuel : Nat) (pending : List NodeId)
    (w : Walk) (hw : w.SoundFor o)
    (hshort : ∀ root ∈ pending, ∀ id, g.Reaches root id → ¬ g.Oversized o id) :
    extrapolated o g fuel pending w = 0 := by
  induction fuel generalizing pending w with
  | zero => cases pending <;> rfl
  | succ fuel ih =>
    cases pending with
    | nil => rfl
    | cons id pending =>
      have hself : ¬ g.Oversized o id :=
        hshort id List.mem_cons_self id Relation.ReflTransGen.refl
      have hvisit := visit_spec hw h g id pending
      rw [extrapolated]
      generalize w.visit o g id pending = outcome at hvisit
      cases hvisit with
      | failed _ _ _ => rfl
      | sampled hlong => exact absurd hlong hself
      | charged _ hpushed hsound _ =>
        dsimp only
        rw [Graph.scaledUnits_of_short hself, UInt64.zero_add]
        refine ih _ _ hsound fun root hroot late hlate => ?_
        obtain ⟨origin, horigin, hway⟩ := hpushed.reaches hroot
        exact hshort origin horigin late (hway.trans hlate)

end Walk

namespace SizeEstimator

variable {e : SizeEstimator} {root : NodeId} {bytes : UInt64}

/-- What an estimate scales up from samples and adds as it is. -/
def extrapolated (e : SizeEstimator) (g : Graph) (root : NodeId) : UInt64 :=
  Walk.extrapolated e.options g g.nodes.size (e.start g root).1 (e.start g root).2

/-- An estimate is a multiple of the alignment, but for what is scaled up from samples: it is one
exactly if this is. So it is one where nothing that the root reaches is too long to be walked. -/
theorem estimate_aligned_iff (he : e.Usable) (hok : (e.estimate g root).1 = .ok bytes) :
    (∃ rounded, e.options.Aligned rounded ∧ bytes = rounded + e.extrapolated g root) ∧
      (e.options.Aligned bytes ↔ e.options.Aligned (e.extrapolated g root)) ∧
      ((∀ id, g.Reaches root id → ¬ g.Oversized e.options id) → e.options.Aligned bytes) := by
  rw [estimate_fst] at hok
  have hpair : (e.start g root).2.drain e.options g g.nodes.size (e.start g root).1 0 =
      (.ok bytes, ((e.start g root).2.drain e.options g g.nodes.size (e.start g root).1 0).2) :=
    Prod.ext hok rfl
  obtain ⟨rounded, haligned, hbytes⟩ :=
    Walk.drain_rounded he.valid _ _ _ _ (start_sound he.sound) hpair
  rw [UInt64.zero_add] at hbytes
  have hiff : e.options.Aligned bytes ↔ e.options.Aligned (e.extrapolated g root) := by
    rw [hbytes]
    exact aligned_add_iff he.valid haligned
  refine ⟨⟨rounded, haligned, hbytes⟩, hiff, fun hshort => hiff.mpr ?_⟩
  have hnone : e.extrapolated g root = 0 := by
    refine Walk.extrapolated_eq_zero he.valid _ _ _ (start_sound he.sound) fun origin horigin => ?_
    rw [eq_of_mem_start horigin]
    exact hshort
  rw [hnone]
  exact e.options.aligned_zero

/-- A sequence of five texts, of which some are empty. -/
def fiveTexts : Graph :=
  ⟨#[.sequence #[1, 2, 3, 4, 5], .scalars .u8 0, .scalars .u8 1, .scalars .u8 0, .scalars .u8 1,
    .scalars .u8 0]⟩

/-- Two of five are drawn, an empty one for 24 bytes and another for 32: two and a half times this
is no multiple of 8. -/
theorem estimate_aligned_iff_five :
    let e := ofOptions { samplingThreshold := 3, sampleCount := 2 }
    e.Usable ∧ (e.estimate fiveTexts 0).1 = .ok 204 ∧ e.extrapolated fiveTexts 0 = 140 ∧
      (e.options.Aligned 204 ↔ e.options.Aligned 140) := by
  intro e
  have he : e.Usable := usable_ofOptions (by decide)
  have hok : (e.estimate fiveTexts 0).1 = .ok 204 := by decide +kernel
  have hscaled : e.extrapolated fiveTexts 0 = 140 := by decide +kernel
  obtain ⟨-, hiff, -⟩ := estimate_aligned_iff he hok
  rw [hscaled] at hiff
  exact ⟨he, hok, hscaled, hiff⟩

/-- What is scaled up is not rounded up. -/
theorem estimate_not_aligned :
    let e := ofOptions { samplingThreshold := 3, sampleCount := 2 }
    e.options.validate = .ok () ∧ (e.estimate fiveTexts 0).1 = .ok 204 ∧
      ¬ e.options.Aligned 204 := by
  decide +kernel

end SizeEstimator

end ShuffleBuffer.Estimate
