import Mathlib.Data.Nat.Find
import Mathlib.Order.Bounds.Defs
import ShuffleBuffer.Proofs.Records

/-! # Runs that are cut short

A run of frames that was written in part only is read up to the last frame that is whole. What is
left of the next frame is known for what it is: too little for a header, or a header and less than
the payload it announces. So a cut goes unnoticed between two frames and nowhere else. -/

namespace ShuffleBuffer.Frame

variable {f : Frame} {fs : List Frame} {n : Nat}

/-- How many bytes the first frames of a run take. -/
def extent (fs : List Frame) (count : Nat) : Nat := ((fs.take count).map bytes).flatten.length

/-! ## Less than a frame -/

theorem decodeAll_header_cut {run : Bytes} (hsome : run ≠ []) (hshort : run.length < headerLength) :
    decodeAll run = .error (.corruption .truncatedHeader) := by
  fun_cases decodeAll run with
  | case1 => exact absurd rfl hsome
  | case2 | case3 | case4 =>
    simp only [List.length_cons, headerLength] at hshort
    omega
  | case5 => rfl

/-- A header that announces more than there is. -/
theorem decodeAll_payload_cut (key crc : UInt32) {length : Nat} (hlength : length < UInt32.size)
    {rest : Bytes} (hshort : rest.length < length) :
    decodeAll (bigEndian key ++ bigEndian length.toUInt32 ++ bigEndian crc ++ rest) =
      .error (.corruption .truncatedPayload) := by
  have hfield : length.toUInt32.toNat = length := UInt32.toNat_ofNat_of_lt hlength
  have htake : (rest.take length).length < length := by
    rw [List.length_take]
    omega
  simp only [bigEndian, List.cons_append, List.nil_append]
  rw [decodeAll]
  simp only [ofBigEndian_bytes, hfield, if_pos htake]

/-- A frame that ends too early, be it by as little as its last byte. -/
theorem decodeAll_cut (hf : f.payload.length < UInt32.size) (hpos : 0 < n)
    (hn : n < f.bytes.length) :
    decodeAll (f.bytes.take n) = .error (.corruption
      (if n < headerLength then .truncatedHeader else .truncatedPayload)) := by
  split
  · next hheader =>
    have hlength : (f.bytes.take n).length = n := List.length_take_of_le (Nat.le_of_lt hn)
    refine decodeAll_header_cut (List.ne_nil_of_length_pos ?_) ?_
    · rwa [hlength]
    · rwa [hlength]
  · next hpayload =>
    have hheader : (bigEndian f.key ++ bigEndian f.payload.length.toUInt32 ++
        bigEndian (recordChecksum f.key f.payload)).length = headerLength := rfl
    rw [length_bytes] at hn
    rw [bytes, List.take_append, hheader, List.take_of_length_le (by omega)]
    refine decodeAll_payload_cut _ _ hf ?_
    rw [List.length_take]
    omega

/-! ## Whole frames and what is left -/

theorem extent_length (fs : List Frame) : extent fs fs.length = (fs.map bytes).flatten.length := by
  rw [extent, List.take_length]

theorem extent_succ {count : Nat} (h : count < fs.length) :
    extent fs (count + 1) = extent fs count + fs[count].bytes.length := by
  rw [extent, List.take_succ_eq_append_getElem h, List.map_append, List.flatten_append,
    List.length_append, List.map_singleton, List.flatten_singleton, extent]

/-- A cut behind some whole frames leaves their run and the front of the others'. -/
theorem take_run {count : Nat} (h : extent fs count ≤ n) :
    (fs.map bytes).flatten.take n = ((fs.take count).map bytes).flatten ++
      ((fs.drop count).map bytes).flatten.take (n - extent fs count) := by
  conv_lhs => rw [← List.take_append_drop count fs]
  rw [List.map_append, List.flatten_append, List.take_append, ← extent,
    List.take_of_length_le (show _ ≤ n from h)]

/-- A cut behind a whole frame leaves the frames up to there. -/
theorem decodeAll_boundary (hfits : ∀ f ∈ fs, f.payload.length < UInt32.size) (count : Nat) :
    decodeAll ((fs.map bytes).flatten.take (extent fs count)) = .ok (fs.take count) := by
  rw [take_run (Nat.le_refl _), Nat.sub_self, List.take_zero, List.append_nil,
    decodeAll_flatten _ fun f hf => hfits f (List.mem_of_mem_take hf)]

/-- A cut within a frame leaves the frames before it and the front of that frame. -/
theorem decodeAll_between (hfits : ∀ f ∈ fs, f.payload.length < UInt32.size) {count : Nat}
    (hcount : count < fs.length) (hlow : extent fs count < n) (hhigh : n < extent fs (count + 1)) :
    decodeAll ((fs.map bytes).flatten.take n) = .error (.corruption
      (if n - extent fs count < headerLength then .truncatedHeader else .truncatedPayload)) := by
  rw [extent_succ hcount] at hhigh
  have hfront : ((fs.drop count).map bytes).flatten.take (n - extent fs count) =
      fs[count].bytes.take (n - extent fs count) := by
    rw [List.drop_eq_getElem_cons hcount, List.map_cons, List.flatten_cons,
      List.take_append_of_le_length (by omega)]
  rw [take_run (Nat.le_of_lt hlow),
    decodeAll_append _ fun f hf => hfits f (List.mem_of_mem_take hf), hfront,
    decodeAll_cut (hfits _ (List.getElem_mem hcount)) (by omega) (by omega)]
  rfl

/-- A run of frames that is cut anywhere is read as the frames that are whole if the cut is behind
the last of them, and refused otherwise: for its header if less than twelve bytes are left of the
next frame, and for its payload if more are left. So nothing is read of a cut run but frames that
were written, and only if it ends where a frame ends. -/
theorem decodeAll_torn (hfits : ∀ f ∈ fs, f.payload.length < 2 ^ 32) :
    ∃ run, appendAll fs [] = (.ok (), run) ∧ ∀ n ≤ run.length,
      ∃ whole, IsGreatest { count | count ≤ fs.length ∧ extent fs count ≤ n } whole ∧
        (n = extent fs whole → decodeAll (run.take n) = .ok (fs.take whole)) ∧
        (0 < n - extent fs whole → n - extent fs whole < 12 →
          decodeAll (run.take n) = .error (.corruption .truncatedHeader)) ∧
        (12 ≤ n - extent fs whole →
          decodeAll (run.take n) = .error (.corruption .truncatedPayload)) ∧
        ∀ read, decodeAll (run.take n) = .ok read → n = extent fs whole ∧ read = fs.take whole := by
  refine ⟨(fs.map bytes).flatten, appendAll_ok_iff.mpr ⟨hfits, rfl⟩, fun n hn => ?_⟩
  let whole := Nat.findGreatest (extent fs · ≤ n) fs.length
  have hwhole : whole ≤ fs.length := Nat.findGreatest_le _
  have hlow : extent fs whole ≤ n :=
    Nat.findGreatest_spec (P := (extent fs · ≤ n)) (Nat.zero_le _) (Nat.zero_le n)
  have hmost {count : Nat} (hcount : count ≤ fs.length) (hextent : extent fs count ≤ n) :
      count ≤ whole := Nat.le_findGreatest hcount hextent
  have hat : decodeAll ((fs.map bytes).flatten.take (extent fs whole)) = .ok (fs.take whole) :=
    decodeAll_boundary hfits whole
  have hbetween (hmore : extent fs whole < n) :
      decodeAll ((fs.map bytes).flatten.take n) = .error (.corruption
        (if n - extent fs whole < headerLength then .truncatedHeader else .truncatedPayload)) := by
    -- all frames together are as long as the run, so one is left
    have hcount : whole < fs.length := by
      refine Nat.lt_of_le_of_ne hwhole fun hall => ?_
      rw [hall, extent_length] at hmore
      exact absurd hn (Nat.not_le.mpr hmore)
    refine decodeAll_between hfits hcount hmore (Nat.not_le.mp fun hnext => ?_)
    exact absurd (hmost hcount hnext) (Nat.not_succ_le_self whole)
  refine ⟨whole, ⟨⟨hwhole, hlow⟩, fun count h => hmost h.1 h.2⟩, fun heq => ?_,
    fun hpos hshort => ?_, fun hlong => ?_, fun read hread => ?_⟩
  · rw [heq]
    exact hat
  · rw [hbetween (by omega), if_pos (show _ < headerLength from hshort)]
  · rw [hbetween (by omega), if_neg (show ¬ _ < headerLength from Nat.not_lt.mpr hlong)]
  · obtain hmore | heq := Nat.lt_or_eq_of_le hlow
    · rw [hbetween hmore] at hread
      cases hread
    · rw [← heq, hat] at hread
      exact ⟨heq.symm, (Except.ok.inj hread).symm⟩

/-- Three frames, the second without a payload, that are cut behind it, within the third header and
right behind that. -/
theorem decodeAll_torn_empty_payload :
    let fs : List Frame := [⟨2, [97]⟩, ⟨1, []⟩, ⟨1, [7, 8]⟩]
    (∀ f ∈ fs, f.payload.length < 2 ^ 32) ∧
      ∃ run, appendAll fs [] = (.ok (), run) ∧ run.length = 39 ∧
        decodeAll (run.take 25) = .ok [⟨2, [97]⟩, ⟨1, []⟩] ∧
        decodeAll (run.take 30) = .error (.corruption .truncatedHeader) ∧
        decodeAll (run.take 37) = .error (.corruption .truncatedPayload) := by
  intro fs
  have hfits : ∀ f ∈ fs, f.payload.length < 2 ^ 32 := by simp [fs]
  obtain ⟨run, hrun, hcuts⟩ := decodeAll_torn hfits
  have hlength : run.length = 39 := by
    rw [(appendAll_ok_iff.mp hrun).2]
    rfl
  -- the second frame ends with the 25th byte, the third with the 39th
  have htwo {n : Nat} (hlow : 25 ≤ n) (hhigh : n < 39) {whole : Nat}
      (h : IsGreatest { count | count ≤ fs.length ∧ extent fs count ≤ n } whole) : whole = 2 := by
    have hthird : ¬ extent fs 3 ≤ n := Nat.not_le.mpr hhigh
    have htwo : 2 ≤ whole := h.2 ⟨by decide, hlow⟩
    have hthree : whole ≠ 3 := fun heq => hthird (heq ▸ h.1.2)
    have hall : whole ≤ 3 := h.1.1
    omega
  have hextent : extent fs 2 = 25 := rfl
  refine ⟨hfits, run, hrun, hlength, ?_, ?_, ?_⟩
  · obtain ⟨whole, hwhole, hat, -⟩ := hcuts 25 (by omega)
    obtain rfl := htwo (by omega) (by omega) hwhole
    exact hat hextent.symm
  · obtain ⟨whole, hwhole, -, hheader, -⟩ := hcuts 30 (by omega)
    obtain rfl := htwo (by omega) (by omega) hwhole
    exact hheader (by omega) (by omega)
  · obtain ⟨whole, hwhole, -, -, hpayload, -⟩ := hcuts 37 (by omega)
    obtain rfl := htwo (by omega) (by omega) hwhole
    exact hpayload (by omega)

end ShuffleBuffer.Frame
