import Mathlib.Data.Nat.Bitwise
import ShuffleBuffer.Frame

/-! # Reading runs of frames back

A word is put together again from its four bytes, a frame is read off the front of a run, and so a
run of frames whose payloads fit their length field is read back as it was written. The other way
round, whatever is read without a fault is such a run, so each list of frames has one run. -/

namespace ShuffleBuffer

open Step

/-! ## Words -/

theorem ofBigEndian_bytes (w : UInt32) :
    ofBigEndian (w >>> 24).toUInt8 (w >>> 16).toUInt8 (w >>> 8).toUInt8 w.toUInt8 = w := by
  apply UInt32.toNat_inj.mp
  apply Nat.eq_of_testBit_eq
  intro i
  have hhigh : 32 ≤ i → w.toNat.testBit i = false := fun h =>
    Nat.testBit_eq_false_of_lt (lt_of_lt_of_le w.toNat_lt (Nat.pow_le_pow_right (by decide) h))
  simp only [ofBigEndian, UInt32.toNat_or, UInt32.toNat_shiftLeft, UInt8.toNat_toUInt32,
    UInt32.toNat_toUInt8, UInt32.toNat_shiftRight, Nat.testBit_or, Nat.testBit_mod_two_pow,
    Nat.testBit_shiftLeft, Nat.testBit_shiftRight]
  -- each bit comes from the one byte that holds it
  grind

/-- A byte has no bits beyond the eighth. -/
theorem testBit_byte (b : UInt8) {i : Nat} (h : 8 ≤ i) : b.toNat.testBit i = false :=
  Nat.testBit_eq_false_of_lt (lt_of_lt_of_le b.toNat_lt (Nat.pow_le_pow_right (by decide) h))

/-- The other way round, each byte of a word is the one that was put there. -/
theorem bigEndian_ofBigEndian (a b c d : UInt8) :
    bigEndian (ofBigEndian a b c d) = [a, b, c, d] := by
  have ha := fun i => testBit_byte a (i := i)
  have hb := fun i => testBit_byte b (i := i)
  have hc := fun i => testBit_byte c (i := i)
  have hd := fun i => testBit_byte d (i := i)
  simp only [bigEndian, List.cons.injEq, and_true]
  refine ⟨?_, ?_, ?_, ?_⟩
  all_goals
    apply UInt8.toNat_inj.mp
    apply Nat.eq_of_testBit_eq
    intro i
    simp only [ofBigEndian, UInt32.toNat_or, UInt32.toNat_shiftLeft, UInt8.toNat_toUInt32,
      UInt32.toNat_toUInt8, UInt32.toNat_shiftRight, Nat.testBit_or, Nat.testBit_mod_two_pow,
      Nat.testBit_shiftLeft, Nat.testBit_shiftRight]
    grind

theorem length_bigEndian (w : UInt32) : (bigEndian w).length = 4 := rfl

/-- Any four bytes are those of a word. -/
theorem exists_bigEndian {bytes : Bytes} (h : bytes.length = 4) : ∃ w, bytes = bigEndian w := by
  match bytes, h with
  | [a, b, c, d], _ => exact ⟨ofBigEndian a b c d, (bigEndian_ofBigEndian a b c d).symm⟩

namespace Frame

/-! ## Writing -/

variable {f : Frame}

/-- The bytes of a frame whose payload fits come behind what is in the buffer. -/
theorem append_fits (h : f.payload.length < UInt32.size) (buffer : Bytes) :
    f.append buffer = (.ok f.bytes.length, buffer ++ f.bytes) := by
  unfold append
  rw [if_pos h, length_bytes]
  simp [bind_apply, Step.modify, bytes]

/-- A frame whose payload does not fit leaves the buffer alone. -/
theorem append_large (h : ¬ f.payload.length < UInt32.size) (buffer : Bytes) :
    f.append buffer = (.error (.invalid .recordTooLarge), buffer) := by
  unfold append
  rw [if_neg h]
  rfl

/-- Encoding a payload that fits is writing its frame. -/
theorem encode_eq (h : f.payload.length < UInt32.size) : encode f = .ok f.bytes := by
  rw [encode, append_fits h, List.nil_append]

/-- Appends frames one after the other. -/
def appendAll : List Frame → Step Bytes Unit
  | [] => pure ()
  | f :: fs => do
      let _ ← f.append
      appendAll fs

/-- Frames are appended exactly when every payload fits, and then they stand one after the other. -/
theorem appendAll_ok_iff {fs : List Frame} {buffer run : Bytes} :
    appendAll fs buffer = (.ok (), run) ↔
      (∀ f ∈ fs, f.payload.length < UInt32.size) ∧ run = buffer ++ (fs.map bytes).flatten := by
  induction fs generalizing buffer with
  | nil => simp [appendAll, eq_comm]
  | cons f fs ih =>
    rw [List.forall_mem_cons]
    by_cases h : f.payload.length < UInt32.size
    · rw [appendAll, bind_ok (append_fits h buffer), ih, List.map_cons, List.flatten_cons,
        List.append_assoc]
      simp only [h, true_and]
    · rw [appendAll, bind_error (append_large h buffer)]
      simp [h]

/-! ## Reading -/

/-- One frame off the front of a run, whatever key and checksum its header holds. -/
theorem decodeAll_header (key crc : UInt32) {payload : Bytes}
    (h : payload.length < UInt32.size) (rest : Bytes) :
    decodeAll (bigEndian key ++ bigEndian payload.length.toUInt32 ++ bigEndian crc ++ payload ++
        rest) =
      if recordChecksum key payload ≠ crc then .error (.corruption .checksumMismatch)
      else (decodeAll rest).map (⟨key, payload⟩ :: ·) := by
  have hlength : payload.length.toUInt32.toNat = payload.length := UInt32.toNat_ofNat_of_lt h
  simp only [bigEndian, List.cons_append, List.nil_append]
  rw [decodeAll]
  simp only [ofBigEndian_bytes, hlength, List.take_left, List.drop_left, Nat.lt_irrefl, if_false]

/-- A frame whose payload fits is read off the front of a run. -/
theorem decodeAll_bytes (f : Frame) (h : f.payload.length < UInt32.size) (rest : Bytes) :
    decodeAll (f.bytes ++ rest) = (decodeAll rest).map (f :: ·) := by
  rw [bytes, decodeAll_header f.key _ h, if_neg (not_not_intro rfl)]

/-- Frames whose payloads fit are read off the front of a run one after the other. -/
theorem decodeAll_append (frames : List Frame)
    (h : ∀ f ∈ frames, f.payload.length < UInt32.size) (rest : Bytes) :
    decodeAll ((frames.map bytes).flatten ++ rest) = (decodeAll rest).map (frames ++ ·) := by
  induction frames with
  | nil => cases hrest : decodeAll rest <;> simp [hrest, Except.map]
  | cons f frames ih =>
    rw [List.map_cons, List.flatten_cons, List.append_assoc,
      decodeAll_bytes f (h f List.mem_cons_self), ih fun f hf => h f (List.mem_cons_of_mem _ hf)]
    cases decodeAll rest <;> rfl

theorem decodeAll_flatten (frames : List Frame)
    (h : ∀ f ∈ frames, f.payload.length < UInt32.size) :
    decodeAll (frames.map bytes).flatten = .ok frames := by
  rw [← List.append_nil (frames.map bytes).flatten, decodeAll_append frames h, decodeAll]
  simp [Except.map]

/-- Whatever is read without a fault is the run of the frames that are read. -/
theorem eq_of_decodeAll {run : Bytes} {fs : List Frame} (h : decodeAll run = .ok fs) :
    (∀ f ∈ fs, f.payload.length < UInt32.size) ∧ run = (fs.map bytes).flatten := by
  fun_induction decodeAll run generalizing fs with
  | case1 =>
    cases h
    simp
  | case2 | case3 => cases h
  | case4 k0 k1 k2 k3 l0 l1 l2 l3 c0 c1 c2 c3 rest key length payload hlong hsum =>
    rename_i ih
    cases hrest : decodeAll (rest.drop length) with
    | error fault =>
      rw [hrest] at h
      cases h
    | ok more =>
      rw [hrest] at h
      cases h
      obtain ⟨hfits, hrun⟩ := ih hrest
      have hlength : payload.length = length := by
        have hle : payload.length ≤ length := List.length_take_le _ _
        omega
      have hfield : payload.length.toUInt32 = ofBigEndian l0 l1 l2 l3 := by
        rw [hlength]
        exact UInt32.ofNat_toNat
      have hfirst : payload.length < UInt32.size := hlength ▸ (ofBigEndian l0 l1 l2 l3).toNat_lt
      refine ⟨List.forall_mem_cons.mpr ⟨hfirst, hfits⟩, ?_⟩
      -- the header is put together from the fields that were read from it
      rw [List.map_cons, List.flatten_cons, ← hrun, bytes, hfield, Decidable.not_not.mp hsum,
        bigEndian_ofBigEndian, bigEndian_ofBigEndian, bigEndian_ofBigEndian]
      simp [payload]
  | case5 => cases h

/-- A run is read as certain frames exactly when it is what appending them to an empty buffer gives.
Payloads that fit can always be appended, and no other run is read as the same frames. Appending a
frame changes nothing that is in the buffer, and what it tells is how much longer the buffer is. -/
theorem decodeAll_eq_iff :
    (∀ run fs, decodeAll run = .ok fs ↔ appendAll fs [] = (.ok (), run)) ∧
    (∀ fs : List Frame, (∀ f ∈ fs, f.payload.length < 2 ^ 32) →
      ∃ run, appendAll fs [] = (.ok (), run) ∧ decodeAll run = .ok fs) ∧
    (∀ run run' fs, decodeAll run = .ok fs → decodeAll run' = .ok fs → run = run') ∧
    ∀ (f : Frame) (buffer : Bytes), ∃ added, (f.append buffer).2 = buffer ++ added ∧
      (f.payload.length < 2 ^ 32 → (f.append buffer).1 = .ok added.length) ∧
      (2 ^ 32 ≤ f.payload.length →
        (f.append buffer).1 = .error (.invalid .recordTooLarge) ∧ added = []) := by
  have hiff : ∀ run fs, decodeAll run = .ok fs ↔ appendAll fs [] = (.ok (), run) := by
    intro run fs
    rw [appendAll_ok_iff, List.nil_append]
    constructor
    · exact eq_of_decodeAll
    · rintro ⟨hfits, rfl⟩
      exact decodeAll_flatten fs hfits
  refine ⟨hiff, fun fs hfits => ?_, fun run run' fs h h' => ?_, fun f buffer => ?_⟩
  · exact ⟨_, appendAll_ok_iff.mpr ⟨hfits, rfl⟩, decodeAll_flatten fs hfits⟩
  · rw [(eq_of_decodeAll h).2, (eq_of_decodeAll h').2]
  · by_cases h : f.payload.length < UInt32.size
    · rw [append_fits h]
      exact ⟨f.bytes, rfl, fun _ => rfl, fun hlarge => absurd h (Nat.not_lt.mpr hlarge)⟩
    · rw [append_large h]
      exact ⟨[], (List.append_nil _).symm, fun hsmall => absurd hsmall h, fun _ => ⟨rfl, rfl⟩⟩

end Frame

end ShuffleBuffer
