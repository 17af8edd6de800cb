import ShuffleBuffer.Element
import ShuffleBuffer.Proofs.Checkpoints

/-! # How far the extrapolated size is from the exact one

The exact size of a tracker of scalars is what it takes itself, the header of its vector and one run
of its elements. So the error of the extrapolation can be computed. At a checkpoint it is the growth
between the two samples. From then on all of that growth, less a byte for each update in it, is
charged for every single update, and the extrapolated size drifts: with elements of eight bytes it
falls behind the exact one while checkpoints are one update apart, and runs ahead of it later. -/

namespace ShuffleBuffer.Estimate

/-- Elements whose values are scalars of one kind. -/
def OfKind {α : Type} [Measured α] (kind : PrimitiveKind) (x : α) : Prop :=
  ∃ type : ScalarType, describe x = .scalar type ∧ type.kind = kind

namespace EstimatorOptions

/-- The bytes of the header of a sequence. -/
def headerBytes (o : EstimatorOptions) : Nat := roundUp o.alignment.toNat (o.objectHeader.toNat + 4)

/-- The bytes of scalars that lie next to each other. -/
def runBytes (o : EstimatorOptions) (kind : PrimitiveKind) (count : Nat) : Nat :=
  roundUp o.alignment.toNat (count * kind.width.toNat)

variable {o : EstimatorOptions}

theorem alignment_pos (h : o.validate = .ok ()) : 0 < o.alignment.toNat := by
  obtain ⟨k, -, hk⟩ := alignment_eq_two_pow h
  rw [hk]
  exact Nat.two_pow_pos k

theorem runBytes_mono (h : o.validate = .ok ()) (kind : PrimitiveKind) {m n : Nat} (hmn : m ≤ n) :
    o.runBytes kind m ≤ o.runBytes kind n :=
  roundUp_mono (alignment_pos h) (Nat.mul_le_mul_right _ hmn)

theorem le_runBytes (h : o.validate = .ok ()) (kind : PrimitiveKind) (count : Nat) :
    count ≤ o.runBytes kind count := by
  have hwidth : 1 ≤ kind.width.toNat := by cases kind <;> decide
  exact (Nat.le_mul_of_pos_right count hwidth).trans (le_roundUp (alignment_pos h) _)

end EstimatorOptions

/-! ## Vectors of scalars -/

section Vectors

variable {α : Type} [Measured α] {o : EstimatorOptions} {kind : PrimitiveKind} {xs : List α}

theorem OfKind.readable {x : α} (h : OfKind kind x) : (describe x).Readable 0 := by
  obtain ⟨type, hscalar, -⟩ := h
  rw [hscalar]
  exact .scalar type

theorem scalars_of_kind (h : ∀ x ∈ xs, OfKind kind x) :
    ∃ types : List ScalarType,
      xs.map describe = types.map .scalar ∧ ∀ type ∈ types, type.kind = kind := by
  induction xs with
  | nil => exact ⟨[], rfl, nofun⟩
  | cons x xs ih =>
    obtain ⟨⟨type, hscalar, hkind⟩, hxs⟩ := List.forall_mem_cons.mp h
    obtain ⟨types, hscalars, hkinds⟩ := ih hxs
    exact ⟨type :: types, by rw [List.map_cons, hscalar, hscalars, List.map_cons],
      List.forall_mem_cons.mpr ⟨hkind, hkinds⟩⟩

theorem placeAll_scalars (types : List ScalarType) (nodes : Array Node) (ids : Array NodeId) :
    Value.placeAll nodes ids (types.map .scalar) =
      (ids ++ Array.range' nodes.size types.length,
        nodes ++ (types.map Node.scalar).toArray) := by
  induction types generalizing nodes ids with
  | nil => simp [Value.placeAll]
  | cons type types ih =>
    rw [List.map_cons, Value.placeAll, Value.node]
    dsimp only
    rw [ih, Array.size_push]
    refine Prod.ext ?_ ?_
    · apply Array.toList_inj.mp
      simp [List.range'_succ]
    · apply Array.toList_inj.mp
      simp

/-- The graph of a vector of scalars: the scalars, and after them their vector. -/
def scalarGraph (types : List ScalarType) : Graph :=
  ⟨(types.map Node.scalar).toArray.push (.sequence (Array.range' 0 types.length))⟩

theorem place_scalars (types : List ScalarType) :
    Graph.place ⟨#[]⟩ (.sequence (types.map .scalar)) = (types.length, scalarGraph types) := by
  rw [Graph.place, Value.node, placeAll_scalars]
  simp [scalarGraph]

theorem size_scalarGraph (types : List ScalarType) :
    (scalarGraph types).nodes.size = types.length + 1 := by
  simp [scalarGraph]

/-- The vector is priced by its first element, and a run of none takes no room. -/
theorem visit_scalars (ho : o.validate = .ok ()) {types : List ScalarType}
    (hkinds : ∀ type ∈ types, type.kind = kind) (w : Walk) :
    w.visit o (scalarGraph types) types.length [] =
      .charged (UInt64.ofNat (o.headerBytes + o.runBytes kind types.length)) [] w := by
  have hroot : (scalarGraph types).node types.length =
      .sequence (Array.range' 0 types.length) := by
    simp [scalarGraph, Graph.node, Array.getD_eq_getD_getElem?]
  simp only [Walk.visit, hroot]
  cases types with
  | nil =>
    simp [EstimatorOptions.sequenceHeader_eq ho, EstimatorOptions.headerBytes,
      EstimatorOptions.runBytes, roundUp]
  | cons type types =>
    have hfirst : (scalarGraph (type :: types)).node 0 = .scalar type := by
      simp [scalarGraph, Graph.node, Array.getD_eq_getD_getElem?]
    have hzero : (Array.range' 0 (type :: types).length)[0]? = some 0 := by simp
    simp only [hzero, hfirst, Array.size_range']
    rw [EstimatorOptions.scalarRun_eq ho, hkinds type List.mem_cons_self]
    rfl

/-- A vector of scalars is a header and their run. -/
theorem vectorBytes_scalars (ho : o.validate = .ok ()) (h : ∀ x ∈ xs, OfKind kind x) :
    o.vectorBytes xs = .ok (UInt64.ofNat (o.headerBytes + o.runBytes kind xs.length)) := by
  obtain ⟨types, hscalars, hkinds⟩ := scalars_of_kind h
  have hlength : types.length = xs.length := by simpa using (congrArg List.length hscalars).symm
  have hroot : types.length < (scalarGraph types).nodes.size := by
    rw [size_scalarGraph]
    exact Nat.lt_succ_self _
  rw [EstimatorOptions.vectorBytes, hscalars, place_scalars]
  dsimp only
  rw [SizeEstimator.estimate_fst, SizeEstimator.start_pending _ hroot, size_scalarGraph, Walk.drain,
    SizeEstimator.ofOptions, visit_scalars ho hkinds]
  simp [Walk.drain, hlength]

end Vectors

namespace Tracker

variable {α : Type} [Measured α] {o : EstimatorOptions} {rate : Float} {kind : PrimitiveKind}
  {xs : List α} {t : Tracker α} {e : SizeEstimator} {n : Nat} {older newer : Sample}

/-! ## Full estimates of trackers of scalars -/

/-- What a tracker with this many samples takes itself, in unbounded numbers. -/
def ownBytes (o : EstimatorOptions) (samples : Nat) : Nat :=
  roundUp o.alignment.toNat (shape.bareSize o.objectHeader.toNat o.pointerSize.toNat) +
    (o.headerBytes + roundUp o.alignment.toNat (samples * o.pointerSize.toNat)) +
    samples * roundUp o.alignment.toNat
      (sampleShape.bareSize o.objectHeader.toNat o.pointerSize.toNat)

/-- The exact size of a tracker with this many samples and scalars of a kind. -/
def exactBytes (o : EstimatorOptions) (kind : PrimitiveKind) (samples count : Nat) : Nat :=
  ownBytes o samples + (o.headerBytes + o.runBytes kind count)

theorem overhead_eq (ho : o.validate = .ok ()) (samples : Nat) :
    overhead o samples = UInt64.ofNat (ownBytes o samples) := by
  rw [overhead, EstimatorOptions.sequenceOverhead_eq ho, EstimatorOptions.shellBytes,
    EstimatorOptions.shellBytes, ← UInt64.ofNat_mul, ← UInt64.ofNat_add, ← UInt64.ofNat_add]
  rfl

theorem ownBytes_mono (ho : o.validate = .ok ()) {m n : Nat} (h : m ≤ n) :
    ownBytes o m ≤ ownBytes o n := by
  have hslots : roundUp o.alignment.toNat (m * o.pointerSize.toNat) ≤
      roundUp o.alignment.toNat (n * o.pointerSize.toNat) :=
    roundUp_mono (EstimatorOptions.alignment_pos ho) (Nat.mul_le_mul_right _ h)
  have hshells := Nat.mul_le_mul_right
    (roundUp o.alignment.toNat (sampleShape.bareSize o.objectHeader.toNat o.pointerSize.toNat)) h
  unfold ownBytes
  omega

theorem exactBytes_mono (ho : o.validate = .ok ()) {k m n i : Nat} (hk : k ≤ m) (hn : n ≤ i) :
    exactBytes o kind k n ≤ exactBytes o kind m i := by
  have hown := ownBytes_mono ho hk
  have hrun := EstimatorOptions.runBytes_mono ho kind hn
  unfold exactBytes
  omega

/-- A tracker takes more bytes than it holds elements. -/
theorem count_lt_exactBytes (ho : o.validate = .ok ()) (kind : PrimitiveKind)
    (samples count : Nat) :
    count + 32 ≤ exactBytes o kind samples count := by
  have hshell := le_roundUp (EstimatorOptions.alignment_pos ho)
    (shape.bareSize o.objectHeader.toNat o.pointerSize.toNat)
  have hmembers : 32 ≤ shape.bareSize o.objectHeader.toNat o.pointerSize.toNat := by
    simp [Shape.bareSize, shape, Shape.fields, Shape.chain, Shape.ownFields, Field.room,
      PrimitiveKind.width]
    omega
  have hrun := EstimatorOptions.le_runBytes ho kind count
  unfold exactBytes ownBytes
  omega

theorem fullEstimate_scalars (he : e.Usable) (helements : t.elements.toList = xs)
    (hshared : t.shared = []) (hsamples : t.samples.length ≤ 2) (h : ∀ x ∈ xs, OfKind kind x) :
    (t.fullEstimate e).1 =
      .ok (UInt64.ofNat (exactBytes e.options kind t.samples.length xs.length)) := by
  rw [fullEstimate_eq he (fun x hx => (h x hx).readable) helements hshared hsamples,
    vectorBytes_scalars he.valid h, overhead_eq he.valid, exactBytes,
    UInt64.ofNat_add (ownBytes _ _)]
  rfl

/-- A checkpoint samples the exact size of what is held then. -/
theorem sampleAt_scalars (ho : o.validate = .ok ()) (h : ∀ x ∈ xs, OfKind kind x)
    (hreached : (checkpoint rate n).toNat ≤ xs.length + 1) :
    sampleAt o rate xs n = .ok ⟨UInt64.ofNat
      (exactBytes o kind (min n 2) ((checkpoint rate n).toNat - 1)), checkpoint rate n⟩ := by
  have hheld : ∀ x ∈ heldAt rate xs n, OfKind kind x := fun x hx => h x (List.mem_of_mem_take hx)
  have hlength : (heldAt rate xs n).length = (checkpoint rate n).toNat - 1 := by
    rw [heldAt, List.length_take]
    omega
  rw [sampleAt, vectorBytes_scalars ho hheld, hlength, overhead_eq ho, exactBytes,
    UInt64.ofNat_add (ownBytes _ _)]
  rfl

/-! ## The error -/

/-- From the third sample on every sample is the exact size at its checkpoint, and the exact size
now is the newer sample and what the run has grown by since. -/
theorem Past.exact (hpast : Past o rate xs t n older newer) (ho : o.validate = .ok ())
    (h : ∀ x ∈ xs, OfKind kind x) (hn : 2 ≤ n) (hfits : exactBytes o kind 2 xs.length < 2 ^ 64) :
    older.updates.toNat ≤ newer.updates.toNat ∧ newer.updates.toNat ≤ xs.length + 1 ∧
      older.bytes.toNat ≤ newer.bytes.toNat ∧
      newer.bytes.toNat + o.runBytes kind xs.length =
        exactBytes o kind 2 xs.length + o.runBytes kind (newer.updates.toNat - 1) := by
  have hreached := hpast.reached n (Nat.le_refl n)
  have hreached' := hpast.reached (n - 1) (Nat.sub_le n 1)
  have hcount := count_lt_exactBytes ho kind 2 xs.length
  have hordered : (checkpoint rate (n - 1)).toNat ≤ (checkpoint rate n).toNat := by
    obtain ⟨m, rfl⟩ : ∃ m, n = m + 1 := ⟨n - 1, by omega⟩
    rw [Nat.add_sub_cancel] at hreached' ⊢
    exact Nat.le_of_lt (lt_checkpointAfter rate (by omega))
  have hnewer := Except.ok.inj (hpast.newer_eq.symm.trans (sampleAt_scalars ho h hreached))
  have holder := Except.ok.inj (hpast.older_eq.symm.trans (sampleAt_scalars ho h hreached'))
  rw [Nat.min_eq_right hn] at hnewer
  have hnow : exactBytes o kind 2 ((checkpoint rate n).toNat - 1) ≤ exactBytes o kind 2 xs.length :=
    exactBytes_mono ho (Nat.le_refl 2) (by omega)
  have hbefore : exactBytes o kind (min (n - 1) 2) ((checkpoint rate (n - 1)).toNat - 1) ≤
      exactBytes o kind 2 ((checkpoint rate n).toNat - 1) :=
    exactBytes_mono ho (min_le_right _ _) (by omega)
  subst hnewer holder
  rw [UInt64.toNat_ofNat_of_lt' (hnow.trans_lt hfits),
    UInt64.toNat_ofNat_of_lt' ((hbefore.trans hnow).trans_lt hfits)]
  refine ⟨hordered, hreached, hbefore, ?_⟩
  show exactBytes o kind 2 ((checkpoint rate n).toNat - 1) + o.runBytes kind xs.length =
    exactBytes o kind 2 xs.length + o.runBytes kind ((checkpoint rate n).toNat - 1)
  unfold exactBytes
  omega

/-- Where the sum does not wrap it is the size. -/
theorem Past.estimateSize_toNat (hpast : Past o rate xs t n older newer) :
    t.estimateSize.toNat = (older.bytes.toNat + t.bytesPerUpdate.toNat *
      (xs.length + 1 - newer.updates.toNat)) % 2 ^ 64 := by
  obtain ⟨bytes, -, hnewer⟩ := sample_of_ok hpast.newer_eq
  have hupdates : newer.updates = checkpoint rate n := congrArg Sample.updates hnewer
  have hreached := hupdates ▸ hpast.reached n (Nat.le_refl n)
  have hword : xs.length + 1 < 2 ^ 64 := hpast.ahead.trans (checkpoint rate (n + 1)).toNat_lt
  have hcount : (UInt64.ofNat (xs.length + 1)).toNat = xs.length + 1 :=
    UInt64.toNat_ofNat_of_lt' hword
  have hsince : (UInt64.ofNat (xs.length + 1) - newer.updates).toNat =
      xs.length + 1 - newer.updates.toNat := by
    have hle : newer.updates ≤ UInt64.ofNat (xs.length + 1) := by
      rw [UInt64.le_iff_toNat_le, hcount]
      exact hreached
    rw [UInt64.toNat_sub_of_le _ _ hle, hcount]
  rw [hpast.estimateSize_eq, ← hpast.bytesPerUpdate, ← hupdates, UInt64.toNat_add, UInt64.toNat_mul,
    hsince, Nat.add_mod_mod]

/-- The older sample is behind the newer by the interval's growth, or by less if there is no rate. -/
theorem Past.growth (hpast : Past o rate xs t n older newer)
    (h : older.updates.toNat ≤ newer.updates.toNat) :
    (newer.bytes.toNat - older.bytes.toNat : ℤ) ≤
        t.bytesPerUpdate.toNat + (newer.updates.toNat - older.updates.toNat : ℤ) ∧
      (t.bytesPerUpdate ≠ 0 → (newer.bytes.toNat - older.bytes.toNat : ℤ) =
        t.bytesPerUpdate.toNat + (newer.updates.toNat - older.updates.toNat : ℤ)) := by
  have hrate := toNat_rateBetween h
  rw [← hpast.bytesPerUpdate] at hrate
  refine ⟨by omega, fun hnonzero => ?_⟩
  have hpositive : t.bytesPerUpdate.toNat ≠ 0 := fun hzero => hnonzero (UInt64.toNat_inj.mp hzero)
  omega

/-- The error is how far the older sample is behind the newer, and what the run of elements has
grown by since beyond what was charged. -/
theorem Past.error (hpast : Past e.options rate xs t n older newer) (he : e.Usable)
    (h : ∀ x ∈ xs, OfKind kind x) (hn : 2 ≤ n)
    (hfits : exactBytes e.options kind 2 xs.length < 2 ^ 64) :
    ∃ full, (t.fullEstimate e).1 = .ok full ∧
      let charged := t.bytesPerUpdate.toNat * (xs.length + 1 - newer.updates.toNat)
      let grown : ℤ :=
        e.options.runBytes kind xs.length - e.options.runBytes kind (newer.updates.toNat - 1)
      older.bytes.toNat + charged < 2 ^ 64 →
        (full.toNat - t.estimateSize.toNat : ℤ) =
          (newer.bytes.toNat - older.bytes.toNat : ℤ) + (grown - charged) := by
  have hlength : t.samples.length = 2 := by rw [hpast.length_samples, Nat.min_eq_right (by omega)]
  have hfull := fullEstimate_scalars he hpast.elements hpast.shared (Nat.le_of_eq hlength) h
  rw [hlength] at hfull
  refine ⟨_, hfull, ?_⟩
  intro charged grown hroom
  obtain ⟨-, -, -, hexact⟩ := hpast.exact he.valid h hn hfits
  have hsize := hpast.estimateSize_toNat.trans (Nat.mod_eq_of_lt hroom)
  rw [UInt64.toNat_ofNat_of_lt' hfits, hsize]
  omega

/-- Appends one after the other. The estimator is shared, so each comes with what it finds there. -/
theorem appends_track {options : EstimatorOptions} (h : Tracks options rate xs t)
    (calls : List (α × SizeEstimator))
    (hread : ∀ x ∈ xs ++ calls.map Prod.fst, (describe x).Readable 0)
    (hestimators : ∀ call ∈ calls, call.2.Usable ∧ call.2.options = options)
    (hlength : xs.length + calls.length + 2 < 2 ^ 64) :
    Tracks options rate (xs ++ calls.map Prod.fst)
      (t.run (calls.map fun call => (.append call.1, ⟨inferInstance, call.2⟩))) := by
  induction calls generalizing xs t with
  | nil =>
    rw [List.map_nil, List.append_nil]
    exact h
  | cons call rest ih =>
    obtain ⟨⟨he, hoptions⟩, hrest⟩ := List.forall_mem_cons.mp hestimators
    have hsplit : xs ++ (call :: rest).map Prod.fst = xs ++ [call.1] ++ rest.map Prod.fst := by simp
    rw [hsplit] at hread ⊢
    rw [List.length_cons] at hlength
    have hnext := append_tracks he (hoptions ▸ h) (x := call.1)
      (fun y hy => hread y (List.mem_append_left _ hy)) (by omega)
    rw [hoptions] at hnext
    exact ih hnext hread hrest (by rw [List.length_append, List.length_singleton]; omega)

/-- At a checkpoint the size is within one interval's growth of a full estimate. In between there
is a drift on top: the bytes by which the run of elements has grown since the newer sample, less
those that the rate has charged for the updates. With a rate other than zero the error is just the
growth and the drift. -/
theorem estimateSize_near {options : TrackerOptions} (hoptions : options.validate = .ok ())
    (he : e.Usable) (calls : List (α × SizeEstimator))
    (hkind : ∀ call ∈ calls, OfKind kind call.1)
    (hestimators : ∀ call ∈ calls, call.2.Usable ∧ call.2.options = e.options)
    (hfits : exactBytes e.options kind 2 calls.length < 2 ^ 64) :
    ∃ made e', Tracker.make options e = (.ok made, e') ∧
      let t : Tracker α := made.run (calls.map fun call => (.append call.1, ⟨inferInstance, call.2⟩))
      3 ≤ t.samplesTaken.toNat → ∃ full oldest newest,
        (t.fullEstimate e).1 = .ok full ∧ t.samples = [oldest, newest] ∧
        let since := calls.length + 1 - newest.updates.toNat
        let charged := t.bytesPerUpdate.toNat * since
        let grown : ℤ :=
          e.options.runBytes kind calls.length - e.options.runBytes kind (newest.updates.toNat - 1)
        let bound : ℤ := t.bytesPerUpdate.toNat + (newest.updates.toNat - oldest.updates.toNat : ℤ)
        let error : ℤ := full.toNat - t.estimateSize.toNat
        (newest.updates = t.updates → |error| ≤ bound) ∧
        (oldest.bytes.toNat + charged < 2 ^ 64 →
          grown - charged ≤ error ∧ error ≤ bound + (grown - charged) ∧
          (t.bytesPerUpdate ≠ 0 → error = bound + (grown - charged))) := by
  obtain ⟨made, e', hmake, -⟩ := make_settled (α := α) hoptions he []
  refine ⟨made, e', hmake, ?_⟩
  intro t htaken
  have hscalars : ∀ x ∈ calls.map Prod.fst, OfKind kind x := by
    intro x hx
    obtain ⟨call, hcall, rfl⟩ := List.mem_map.mp hx
    exact hkind call hcall
  have hcount := count_lt_exactBytes he.valid kind 2 calls.length
  have htracks : Tracks e.options options.growthRate (calls.map Prod.fst) t :=
    appends_track (make_tracks he hmake) calls (fun x hx => (hscalars x hx).readable) hestimators
      (by rw [List.length_nil]; omega)
  clear_value t
  obtain ⟨n, oldest, newest, hpast⟩ := htracks
  have hn : 2 ≤ n := by
    rw [hpast.taken, UInt64.toNat_ofNat'] at htaken
    have := htaken.trans (Nat.mod_le _ _)
    omega
  have hsamples : t.samples = [oldest, newest] := by rw [hpast.samples, if_neg (by omega)]
  have hlength : (calls.map Prod.fst).length = calls.length := List.length_map _
  have hword : calls.length + 1 < 2 ^ 64 := by omega
  rw [← hlength] at hfits
  obtain ⟨hordered, hreached, hgrows, -⟩ := hpast.exact he.valid hscalars hn hfits
  obtain ⟨full, hfull, herror⟩ := hpast.error he hscalars hn hfits
  obtain ⟨hgrowth, hrated⟩ := hpast.growth hordered
  rw [hlength] at hreached herror
  refine ⟨full, oldest, newest, hfull, hsamples, fun hcheckpoint => ?_, fun hroom => ?_⟩
  · have hnow : newest.updates.toNat = calls.length + 1 := by
      rw [hcheckpoint, hpast.updates, hlength]
      exact UInt64.toNat_ofNat_of_lt' hword
    rw [hnow, Nat.sub_self, Nat.mul_zero, Nat.add_sub_cancel] at herror
    have herror := herror oldest.bytes.toNat_lt
    rw [abs_le]
    omega
  · rw [herror hroom]
    refine ⟨by omega, by omega, fun hnonzero => ?_⟩
    rw [hrated hnonzero]

/-- Eleven numbers: one update after a checkpoint the size has fallen behind by a byte more than the
interval. -/
theorem estimateSize_near_eleven :
    let e := SizeEstimator.ofOptions {}
    let calls : List (UInt64 × SizeEstimator) := List.replicate 11 (0, e)
    ({} : TrackerOptions).validate = .ok () ∧ e.Usable ∧
    exactBytes e.options .long 2 calls.length < 2 ^ 64 ∧
    ∃ made e', Tracker.make {} e = (.ok made, e') ∧
      let t : Tracker UInt64 := made.run (calls.map fun call => (.append call.1, ⟨inferInstance, call.2⟩))
      t.samplesTaken = 11 ∧ t.samples = [⟨264, 10⟩, ⟨272, 11⟩] ∧ t.bytesPerUpdate = 7 ∧
      ∃ full, (t.fullEstimate e).1 = .ok full ∧ (full.toNat - t.estimateSize.toNat : ℤ) = 9 := by
  intro e calls
  have hvalid : ({} : TrackerOptions).validate = .ok () := by decide +kernel
  have he : e.Usable := SizeEstimator.usable_ofOptions (by decide)
  have hfits : exactBytes e.options .long 2 calls.length < 2 ^ 64 := by decide
  have hestimators : ∀ call ∈ calls, call.2.Usable ∧ call.2.options = e.options := by
    intro call hcall
    rw [List.eq_of_mem_replicate hcall]
    exact ⟨he, rfl⟩
  obtain ⟨made, e', hmake, hnear⟩ :=
    estimateSize_near hvalid he calls (fun _ _ => ⟨.u64, rfl, rfl⟩) hestimators hfits
  have hseen : (Tracker.make {} e).1.map (fun made : Tracker UInt64 =>
      let t := made.run (calls.map fun call => (.append call.1, ⟨inferInstance, call.2⟩))
      (t.samplesTaken, t.samples, t.bytesPerUpdate)) =
        .ok (11, [⟨264, 10⟩, ⟨272, 11⟩], 7) := by
    decide +kernel
  rw [hmake] at hseen
  obtain ⟨htaken, hrest⟩ := Prod.mk.inj (Except.ok.inj hseen)
  obtain ⟨hsamples, hrate⟩ := Prod.mk.inj hrest
  obtain ⟨full, oldest, newest, hfull, hpair, -, hbetween⟩ := hnear (by rw [htaken]; decide)
  obtain ⟨rfl, hnewest⟩ := List.cons.inj (hpair.symm.trans hsamples)
  obtain ⟨rfl, -⟩ := List.cons.inj hnewest
  rw [hrate] at hbetween
  obtain ⟨-, -, herror⟩ := hbetween (by decide)
  exact ⟨hvalid, he, hfits, made, e', hmake, htaken, hsamples, hrate, full, hfull,
    (herror (by decide)).trans (by decide)⟩

/-- Forty-four numbers: the whole growth of the interval is charged for each of four updates, and
the size runs ahead of a full estimate by more than that growth. -/
theorem estimate_outruns_interval :
    let e := SizeEstimator.ofOptions {}
    ({} : TrackerOptions).validate = .ok () ∧ e.Usable ∧
    ∃ made e', Tracker.make {} e = (.ok made, e') ∧
      let t : Tracker UInt64 := made.run (List.replicate 44 (.append 0, ⟨inferInstance, e⟩))
      3 ≤ t.samplesTaken.toNat ∧
      ∃ full oldest newest, (t.fullEstimate e).1 = .ok full ∧ t.samples = [oldest, newest] ∧
        ¬ |(full.toNat - t.estimateSize.toNat : ℤ)| ≤
          t.bytesPerUpdate.toNat + (newest.updates.toNat - oldest.updates.toNat : ℤ) := by
  intro e
  have hseen : (Tracker.make {} e).1.map (fun made : Tracker UInt64 =>
      let t := made.run (List.replicate 44 (.append 0, ⟨inferInstance, e⟩))
      (t.samplesTaken, (t.fullEstimate e).1, t.samples, t.bytesPerUpdate, t.estimateSize)) =
        .ok (22, .ok 544, [⟨480, 37⟩, ⟨512, 41⟩], 28, 592) := by
    decide +kernel
  generalize hmade : Tracker.make (α := UInt64) {} e = made at hseen
  obtain ⟨made | made, e'⟩ := made
  · cases hseen
  · obtain ⟨htaken, hrest⟩ := Prod.mk.inj (Except.ok.inj hseen)
    obtain ⟨hfull, hrest⟩ := Prod.mk.inj hrest
    obtain ⟨hsamples, hrest⟩ := Prod.mk.inj hrest
    obtain ⟨hrate, hsize⟩ := Prod.mk.inj hrest
    refine ⟨by decide +kernel, SizeEstimator.usable_ofOptions (by decide), made, e', rfl,
      by rw [htaken]; decide, 544, _, _, hfull, hsamples, ?_⟩
    rw [hrate, hsize]
    decide

end Tracker

end ShuffleBuffer.Estimate
