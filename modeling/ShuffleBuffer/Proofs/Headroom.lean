import ShuffleBuffer.Config
import ShuffleBuffer.Proofs.Convergence

/-! # Which options leave room in a word

Sizes are summed in words, and a sum beyond them wraps. A configuration bounds neither the header of
an object nor the size of a pointer, and the alignment only by its being a word. So whether the very
first estimate of a new tracker can be trusted depends on them: no sum on its way wraps exactly if
the exact estimate is a word, and then it is what the tracker reports. -/

namespace ShuffleBuffer

open Estimate

/-- Valid options of the estimator make a valid configuration with what else there is by default. -/
theorem Config.valid_of_estimator {o : EstimatorOptions} (ho : o.validate = .ok ()) :
    ({ estimator := o } : Config).validate = .ok () := by
  have hratio : ¬¬((0.0 : Float) < (0.5 : Float) ∧ (0.5 : Float) ≤ 1.0) :=
    not_not.mpr (by decide +kernel)
  have htracker : ({} : TrackerOptions).validate = .ok () := by decide +kernel
  have hmemory : ¬ (1024 : UInt64) = 0 := by decide
  rw [validate, if_neg hmemory, if_neg hratio, ho, htracker]

namespace Estimate

/-- The sum of two words is a word. -/
def Fits (x y : UInt64) : Prop := x.toNat + y.toNat < 2 ^ 64

theorem Fits.toNat_add {x y : UInt64} (h : Fits x y) : (x + y).toNat = x.toNat + y.toNat := by
  rw [UInt64.toNat_add, Nat.mod_eq_of_lt h]

/-! ## Layouts -/

namespace Layout

/-- No sum wraps when these members are added one after the other. -/
def MembersFit (pointerSize : UInt64) (layout : Layout) (fields : List Field) : Prop :=
  ∀ before member after, fields = before ++ member :: after →
    (layout.addFields pointerSize before).baseSize.toNat + member.room pointerSize.toNat < 2 ^ 64

variable {pointerSize : UInt64} {layout : Layout}

theorem toNat_baseSize_addField {f : Field}
    (h : layout.baseSize.toNat + f.room pointerSize.toNat < 2 ^ 64) :
    (layout.addField pointerSize f).baseSize.toNat =
      layout.baseSize.toNat + f.room pointerSize.toNat := by
  cases hkind : f.kind with
  | primitive kind =>
    simp only [Field.room, hkind] at h
    simp only [addField, Field.room, hkind]
    exact Fits.toNat_add h
  | reference =>
    simp only [Field.room, hkind] at h
    simp only [addField, Field.room, hkind]
    exact Fits.toNat_add h

theorem membersFit_cons {f : Field} {fields : List Field} :
    MembersFit pointerSize layout (f :: fields) ↔
      layout.baseSize.toNat + f.room pointerSize.toNat < 2 ^ 64 ∧
        MembersFit pointerSize (layout.addField pointerSize f) fields := by
  constructor
  · intro h
    exact ⟨h [] f fields rfl, fun before member after hsplit =>
      h (f :: before) member after (congrArg (f :: ·) hsplit)⟩
  · rintro ⟨hfirst, hlater⟩ before member after hsplit
    cases before with
    | nil =>
      obtain ⟨rfl, -⟩ := List.cons.inj hsplit
      exact hfirst
    | cons g before =>
      obtain ⟨rfl, hrest⟩ := List.cons.inj hsplit
      exact hlater before member after hrest

/-- Rooms only add up, so the last sum decides. -/
theorem membersFit_iff (fields : List Field) :
    MembersFit pointerSize layout fields ↔
      layout.baseSize.toNat + (fields.map (Field.room pointerSize.toNat)).sum < 2 ^ 64 := by
  induction fields generalizing layout with
  | nil =>
    refine ⟨fun _ => layout.baseSize.toNat_lt, fun _ before member after hsplit => ?_⟩
    exact absurd hsplit.symm (List.append_ne_nil_of_right_ne_nil _ (List.cons_ne_nil _ _))
  | cons f fields ih =>
    rw [membersFit_cons, ih, List.map_cons, List.sum_cons]
    constructor
    · rintro ⟨hfirst, hrest⟩
      rw [toNat_baseSize_addField hfirst] at hrest
      omega
    · intro h
      have hfirst : layout.baseSize.toNat + f.room pointerSize.toNat < 2 ^ 64 := by omega
      refine ⟨hfirst, ?_⟩
      rw [toNat_baseSize_addField hfirst]
      omega

end Layout

namespace Shape

variable {rootSize pointerSize : UInt64}

/-- No sum wraps when the layout of a shape is computed. -/
def LayoutFits (rootSize pointerSize : UInt64) : Shape → Prop
  | root _ _ fields => Layout.MembersFit pointerSize ⟨rootSize, []⟩ fields
  | extending _ _ parent fields =>
      parent.LayoutFits rootSize pointerSize ∧
        (parent.layout rootSize pointerSize).MembersFit pointerSize fields

theorem toNat_baseSize_layout {s : Shape}
    (h : s.bareSize rootSize.toNat pointerSize.toNat < 2 ^ 64) :
    (s.layout rootSize pointerSize).baseSize.toNat =
      s.bareSize rootSize.toNat pointerSize.toNat := by
  rw [Shape.layout_eq]
  exact UInt64.toNat_ofNat_of_lt h

theorem layoutFits_iff (s : Shape) :
    s.LayoutFits rootSize pointerSize ↔
      s.bareSize rootSize.toNat pointerSize.toNat < 2 ^ 64 := by
  induction s with
  | root tag name own =>
    rw [LayoutFits, Layout.membersFit_iff]
    simp [bareSize, fields, chain, ownFields]
  | extending tag name parent own ih =>
    have hsize : (extending tag name parent own).bareSize rootSize.toNat pointerSize.toNat =
        parent.bareSize rootSize.toNat pointerSize.toNat +
          (own.map (Field.room pointerSize.toNat)).sum := by
      simp [bareSize, fields_extending, Nat.add_assoc]
    rw [LayoutFits, ih, Layout.membersFit_iff, hsize]
    constructor
    · rintro ⟨hparent, hown⟩
      rwa [toNat_baseSize_layout hparent] at hown
    · intro h
      have hparent : parent.bareSize rootSize.toNat pointerSize.toNat < 2 ^ 64 := by omega
      refine ⟨hparent, ?_⟩
      rwa [toNat_baseSize_layout hparent]

end Shape

/-! ## Alignment -/

namespace EstimatorOptions

variable {o : EstimatorOptions}

/-- The sum does not wrap that is masked when a size is rounded up. -/
def AlignFits (o : EstimatorOptions) (size : UInt64) : Prop := Fits size (o.alignment - 1)

theorem toNat_mask (h : o.validate = .ok ()) :
    (o.alignment - 1).toNat = o.alignment.toNat - 1 :=
  UInt64.toNat_sub_of_le _ _ (UInt64.le_iff_toNat_le.mpr (alignment_pos h))

/-- All multiples of the alignment that are words leave room for the mask. -/
theorem alignFits_iff (h : o.validate = .ok ()) (size : UInt64) :
    o.AlignFits size ↔ roundUp o.alignment.toNat size.toNat < 2 ^ 64 := by
  have hpos := alignment_pos h
  have hle := le_roundUp hpos size.toNat
  rw [AlignFits, Fits, toNat_mask h]
  constructor
  · intro hfits
    exact Nat.lt_of_le_of_lt (Nat.sub_le _ _) hfits
  · intro hround
    obtain ⟨k, hk, ha⟩ := alignment_eq_two_pow h
    have hdvd : o.alignment.toNat ∣ 2 ^ 64 := ha ▸ Nat.pow_dvd_pow 2 (by omega)
    have hgap := Nat.le_of_dvd (Nat.sub_pos_of_lt hround) (Nat.dvd_sub hdvd (dvd_roundUp _ _))
    omega

theorem toNat_align (h : o.validate = .ok ()) {size : UInt64} (hfits : o.AlignFits size) :
    (o.align size).toNat = roundUp o.alignment.toNat size.toNat := by
  have halign := align_ofNat h size.toNat
  rw [UInt64.ofNat_toNat] at halign
  rw [halign]
  exact UInt64.toNat_ofNat_of_lt ((alignFits_iff h size).mp hfits)

/-- A size is rounded up, and not down by wrapping. -/
theorem le_align (h : o.validate = .ok ()) {size : UInt64} (hfits : o.AlignFits size) :
    size ≤ o.align size := by
  rw [UInt64.le_iff_toNat_le, toNat_align h hfits]
  exact le_roundUp (alignment_pos h) _

end EstimatorOptions

/-! ## The first sample of a tracker -/

namespace Tracker

open EstimatorOptions

variable {α : Type} [Measured α] {o : EstimatorOptions} {e e' : SizeEstimator} {t : Tracker α}

/-- The layout of a tracker as an estimator with these options computes it. -/
def ownLayout (o : EstimatorOptions) : Layout := shape.layout o.objectHeader o.pointerSize

/-- No sum wraps on the way of a tracker's first sample: neither in the layout of the record, nor
when its shell and the header of a sequence are rounded up, nor when the shell and the headers of
its two empty sequences are added. These have no slots, so nothing is multiplied. -/
structure FirstSampleFits (o : EstimatorOptions) : Prop where
  layout : shape.LayoutFits o.objectHeader o.pointerSize
  shell : o.AlignFits (ownLayout o).baseSize
  length : Fits o.objectHeader lengthFieldSize
  header : o.AlignFits (o.objectHeader + lengthFieldSize)
  samples : Fits (o.align (ownLayout o).baseSize) o.sequenceHeader
  elements : Fits (o.align (ownLayout o).baseSize + o.sequenceHeader) o.sequenceHeader

theorem bareSize_shape (header pointer : Nat) :
    shape.bareSize header pointer = header + 2 * pointer + 32 := by
  simp [Shape.bareSize, shape, Shape.fields, Shape.chain, Shape.ownFields, Field.room,
    PrimitiveKind.width]
  omega

theorem toNat_lengthFieldSize : lengthFieldSize.toNat = 4 := rfl

/-- What a new tracker takes, in unbounded numbers: itself and two empty sequences. -/
def blankBytes (o : EstimatorOptions) : Nat :=
  roundUp o.alignment.toNat (o.objectHeader.toNat + 2 * o.pointerSize.toNat + 32) +
    2 * roundUp o.alignment.toNat (o.objectHeader.toNat + 4)

/-- Where no sum wraps, the words are what they stand for. -/
theorem FirstSampleFits.toNat (ho : o.validate = .ok ()) (h : FirstSampleFits o) :
    (ownLayout o).baseSize.toNat = o.objectHeader.toNat + 2 * o.pointerSize.toNat + 32 ∧
      (o.align (ownLayout o).baseSize).toNat =
        roundUp o.alignment.toNat (o.objectHeader.toNat + 2 * o.pointerSize.toNat + 32) ∧
      o.sequenceHeader.toNat = roundUp o.alignment.toNat (o.objectHeader.toNat + 4) := by
  have hbase := Shape.toNat_baseSize_layout ((Shape.layoutFits_iff shape).mp h.layout)
  rw [bareSize_shape] at hbase
  refine ⟨hbase, ?_, ?_⟩
  · rw [toNat_align ho h.shell, ownLayout, hbase]
  · rw [sequenceHeader, toNat_align ho h.header, h.length.toNat_add, toNat_lengthFieldSize]

theorem firstSampleFits_iff (ho : o.validate = .ok ()) :
    FirstSampleFits o ↔ blankBytes o < 2 ^ 64 := by
  constructor
  · intro h
    obtain ⟨-, hshell, hheader⟩ := h.toNat ho
    have htotal := h.elements
    rw [Fits, h.samples.toNat_add, hshell, hheader] at htotal
    unfold blankBytes
    omega
  · intro htotal
    unfold blankBytes at htotal
    have hpos := alignment_pos ho
    have hown := le_roundUp hpos (o.objectHeader.toNat + 2 * o.pointerSize.toNat + 32)
    have hlength := le_roundUp hpos (o.objectHeader.toNat + 4)
    have hlayout : shape.LayoutFits o.objectHeader o.pointerSize := by
      rw [Shape.layoutFits_iff, bareSize_shape]
      omega
    have hbase := Shape.toNat_baseSize_layout ((Shape.layoutFits_iff shape).mp hlayout)
    rw [bareSize_shape] at hbase
    have hshell : o.AlignFits (ownLayout o).baseSize := by
      rw [alignFits_iff ho, ownLayout, hbase]
      omega
    have hfour : Fits o.objectHeader lengthFieldSize := by
      rw [Fits, toNat_lengthFieldSize]
      omega
    have hheader : o.AlignFits (o.objectHeader + lengthFieldSize) := by
      rw [alignFits_iff ho, hfour.toNat_add, toNat_lengthFieldSize]
      omega
    have hshellBytes := toNat_align ho hshell
    have hheaderBytes := toNat_align ho hheader
    rw [ownLayout, hbase] at hshellBytes
    rw [hfour.toNat_add, toNat_lengthFieldSize] at hheaderBytes
    have hsamples : Fits (o.align (ownLayout o).baseSize) o.sequenceHeader := by
      rw [Fits, ownLayout, hshellBytes, sequenceHeader, hheaderBytes]
      omega
    refine ⟨hlayout, hshell, hfour, hheader, hsamples, ?_⟩
    rw [Fits, hsamples.toNat_add, ownLayout, hshellBytes, sequenceHeader, hheaderBytes]
    omega

omit [Measured α] in
theorem exactBytes_blank (ho : o.validate = .ok ()) (kind : PrimitiveKind) :
    exactBytes o kind 0 0 = blankBytes o := by
  have hnone : roundUp o.alignment.toNat 0 = 0 :=
    Nat.le_zero.mp (roundUp_le (alignment_pos ho) (Nat.dvd_zero _) (Nat.le_refl 0))
  simp only [exactBytes, ownBytes, headerBytes, runBytes, blankBytes, bareSize_shape, Nat.zero_mul,
    hnone]
  omega

theorem make_of_valid {options : TrackerOptions} (hoptions : options.validate = .ok ())
    (he : e.Usable) :
    ∃ (t : Tracker α) (e' : SizeEstimator), Tracker.make options e = (.ok t, e') := by
  obtain ⟨t, hmake⟩ := make_ok (α := α) hoptions he
  exact ⟨t, (Tracker.make options e).2, Prod.ext hmake rfl⟩

/-- A new tracker reports what it takes, as far as words go. -/
theorem make_estimateSize (he : e.Usable) {options : TrackerOptions}
    (h : Tracker.make options e = (.ok t, e')) :
    t.estimateSize = UInt64.ofNat (blankBytes e.options) := by
  obtain ⟨n, older, newer, hpast⟩ := make_tracks he h
  cases n with
  | succ n =>
    have hearly := hpast.reached 1 (by omega)
    have hlate : (1 : UInt64).toNat < (checkpointAfter options.growthRate 1).toNat :=
      lt_checkpointAfter options.growthRate (by decide)
    exact absurd hearly (Nat.not_le.mpr hlate)
  | zero =>
    have hnewer := Except.ok.inj (hpast.newer_eq.symm.trans
      (sampleAt_scalars he.valid (nofun : ∀ x ∈ [], OfKind .long x) (Nat.le_refl 1)))
    have hupdates : t.updates - newer.updates = 0 := by
      rw [hpast.updates, hnewer]
      exact UInt64.sub_self 1
    rw [estimateSize, hpast.samples, if_pos rfl]
    show newer.bytes + t.bytesPerUpdate * (t.updates - newer.updates) = _
    rw [hupdates, UInt64.mul_zero, UInt64.add_zero, hnewer]
    exact congrArg UInt64.ofNat (exactBytes_blank he.valid .long)

/-- A valid configuration makes an estimator and with it a tracker. On the way no sum wraps exactly
if what the tracker takes is a word; then it reports exactly this, at least its own bare size, and
no size was rounded up to a smaller one. -/
theorem first_sample_exact {c : Config} (hvalid : c.validate = .ok ()) :
    ∃ (e e' : SizeEstimator) (t : Tracker α),
      SizeEstimator.make c.estimator = .ok e ∧ Tracker.make c.tracker e = (.ok t, e') ∧
      (FirstSampleFits c.estimator ↔ blankBytes c.estimator < 2 ^ 64) ∧
      (FirstSampleFits c.estimator →
        t.estimateSize.toNat = blankBytes c.estimator ∧
        (ownLayout c.estimator).baseSize.toNat =
          c.estimator.objectHeader.toNat + 2 * c.estimator.pointerSize.toNat + 32 ∧
        (ownLayout c.estimator).baseSize ≤ c.estimator.align (ownLayout c.estimator).baseSize ∧
        c.estimator.objectHeader + lengthFieldSize ≤ c.estimator.sequenceHeader ∧
        (ownLayout c.estimator).baseSize ≤ t.estimateSize) := by
  obtain ⟨hestimator, htracker⟩ := Config.parts_of_valid hvalid
  have he : (SizeEstimator.ofOptions c.estimator).Usable :=
    SizeEstimator.usable_ofOptions hestimator
  obtain ⟨t, e', hmade⟩ := make_of_valid (α := α) htracker he
  refine ⟨.ofOptions c.estimator, e', t, ?_, hmade, firstSampleFits_iff hestimator, fun hfits => ?_⟩
  · rw [SizeEstimator.make, hestimator]
    rfl
  · have hword := (firstSampleFits_iff hestimator).mp hfits
    obtain ⟨hbase, hshell, -⟩ := hfits.toNat hestimator
    have hreport : t.estimateSize.toNat = blankBytes c.estimator := by
      rw [make_estimateSize he hmade]
      exact UInt64.toNat_ofNat_of_lt hword
    refine ⟨hreport, hbase, le_align hestimator hfits.shell, le_align hestimator hfits.header, ?_⟩
    have hround := le_align hestimator hfits.shell
    rw [UInt64.le_iff_toNat_le] at hround ⊢
    rw [hreport, blankBytes, ← hshell]
    omega

/-- Wide pointers and headers, rounded up to multiples of 4 GiB. -/
theorem first_sample_exact_wide :
    let c : Config := { estimator := {
      alignment := 0x100000000, pointerSize := 0x10000000000, objectHeader := 0x10000000000 } }
    c.validate = .ok () ∧ ∃ (e e' : SizeEstimator) (t : Tracker UInt64),
      SizeEstimator.make c.estimator = .ok e ∧ Tracker.make c.tracker e = (.ok t, e') ∧
      FirstSampleFits c.estimator ∧ t.estimateSize.toNat = 5510443040768 ∧
      (ownLayout c.estimator).baseSize ≤ t.estimateSize := by
  intro c
  have hestimator : c.estimator.validate = .ok () := by decide
  have hvalid : c.validate = .ok () := Config.valid_of_estimator hestimator
  obtain ⟨e, e', t, he, ht, hiff, hexact⟩ := first_sample_exact (α := UInt64) hvalid
  have hbytes : blankBytes c.estimator = 5510443040768 := by decide
  have hfits : FirstSampleFits c.estimator := hiff.mpr (hbytes ▸ by decide)
  obtain ⟨hreport, -, -, -, hown⟩ := hexact hfits
  exact ⟨hvalid, e, e', t, he, ht, hfits, hreport.trans hbytes, hown⟩

/-- The largest pointers that a document can ask for are accepted, but two of them and a header are
beyond a word: the record's layout wraps, and a new tracker reports less than its own bare size. -/
theorem accepted_pointers_wrap :
    let c : Config := { estimator := { pointerSize := 0x7fffffffffffffff } }
    c.validate = .ok () ∧ ∃ (e e' : SizeEstimator) (t : Tracker UInt64),
      SizeEstimator.make c.estimator = .ok e ∧ Tracker.make c.tracker e = (.ok t, e') ∧
      ¬ FirstSampleFits c.estimator ∧ t.estimateSize.toNat = 96 ∧
      blankBytes c.estimator = 2 ^ 64 + 96 ∧
      t.estimateSize.toNat <
        shape.bareSize c.estimator.objectHeader.toNat c.estimator.pointerSize.toNat := by
  intro c
  have hestimator : c.estimator.validate = .ok () := by decide
  have hvalid : c.validate = .ok () := Config.valid_of_estimator hestimator
  have he : (SizeEstimator.ofOptions c.estimator).Usable :=
    SizeEstimator.usable_ofOptions hestimator
  obtain ⟨t, e', ht⟩ := make_of_valid (α := UInt64) (Config.parts_of_valid hvalid).2 he
  have hbytes : blankBytes c.estimator = 2 ^ 64 + 96 := by decide
  have hreport : t.estimateSize.toNat = 96 := by
    have hwrapped := make_estimateSize he ht
    rw [show (SizeEstimator.ofOptions c.estimator).options = c.estimator from rfl, hbytes]
      at hwrapped
    rw [hwrapped]
    rfl
  refine ⟨hvalid, .ofOptions c.estimator, e', t, ?_, ht, fun hfits => ?_, hreport, hbytes, ?_⟩
  · rw [SizeEstimator.make, hestimator]
    rfl
  · have hword := (firstSampleFits_iff hestimator).mp hfits
    rw [hbytes] at hword
    exact absurd hword (by decide)
  · rw [hreport, bareSize_shape]
    decide

end Tracker

end Estimate

end ShuffleBuffer
