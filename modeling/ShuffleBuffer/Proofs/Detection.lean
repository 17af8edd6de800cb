import ShuffleBuffer.Proofs.Records

/-! # Damage that reading notices

A step of the checksum's register is linear in exclusive or and loses nothing, so two registers
that differ stay different whatever is fed to them, and four bytes reach the register as one word.
Two runs of bytes that differ within four neighbouring bytes have therefore different checksums,
and a frame whose key or payload was changed that way is refused. -/

namespace ShuffleBuffer

open Step

namespace Crc32

/-! ## One step of the register -/

theorem toNat_low_bit (r : UInt32) : (r &&& 1).toNat = r.toNat % 2 := by
  rw [UInt32.toNat_and]
  exact Nat.and_one_is_mod _

theorem low_bit (r : UInt32) : r &&& 1 = 0 ∨ r &&& 1 = 1 := by
  obtain h | h := Nat.mod_two_eq_zero_or_one r.toNat
  · exact .inl (UInt32.toNat_inj.mp ((toNat_low_bit r).trans h))
  · exact .inr (UInt32.toNat_inj.mp ((toNat_low_bit r).trans h))

theorem toNat_half (r : UInt32) : (r >>> 1).toNat = r.toNat / 2 := by
  rw [UInt32.toNat_shiftRight]
  exact Nat.shiftRight_eq_div_pow _ _

theorem shiftBit_xor (r r' : UInt32) : shiftBit (r ^^^ r') = shiftBit r ^^^ shiftBit r' := by
  have hlow : (r ^^^ r') &&& 1 = (r &&& 1) ^^^ (r' &&& 1) := by
    apply UInt32.toBitVec_inj.mp
    ext i
    simp [Bool.and_xor_distrib_right]
  have hhigh : (r ^^^ r') >>> 1 = (r >>> 1) ^^^ (r' >>> 1) := UInt32.shiftRight_xor ..
  unfold shiftBit
  obtain h | h := low_bit r
  · obtain h' | h' := low_bit r'
    · simp [hlow, hhigh, h, h']
    · simp [hlow, hhigh, h, h', UInt32.xor_assoc]
  · obtain h' | h' := low_bit r'
    · simp [hlow, hhigh, h, h']
      ac_rfl
    · -- both registers lose a set bit, and the two polynomials cancel
      have hcancel : polynomial ^^^ (r' >>> 1 ^^^ polynomial) = r' >>> 1 := by
        rw [UInt32.xor_comm (r' >>> 1), ← UInt32.xor_assoc, UInt32.xor_self, UInt32.zero_xor]
      simp [hlow, hhigh, h, h', UInt32.xor_assoc, hcancel]

/-- Half of a register is below the polynomial, so the bit that leaves can be told from the rest. -/
theorem eq_zero_of_shiftBit {r : UInt32} (h : shiftBit r = 0) : r = 0 := by
  have hhalf := toNat_half r
  have hlt := r.toNat_lt
  unfold shiftBit at h
  split at h
  · rw [UInt32.xor_eq_zero_iff] at h
    rw [h] at hhalf
    have : polynomial.toNat = 0xEDB88320 := rfl
    omega
  · next hset =>
    have hlow := toNat_low_bit r
    rw [(low_bit r).resolve_right hset] at hlow
    rw [h] at hhalf
    apply UInt32.toNat_inj.mp
    have : (0 : UInt32).toNat = 0 := rfl
    omega

/-- A clear bit leaves the register as it is, but for its place. -/
theorem toNat_shiftBit {r : UInt32} {n : Nat} (h : r.toNat = 2 * n) : (shiftBit r).toNat = n := by
  have hclear : ¬ r &&& 1 = 1 := by
    intro hset
    have hlow := toNat_low_bit r
    rw [hset] at hlow
    have : (1 : UInt32).toNat = 1 := rfl
    omega
  rw [shiftBit, if_neg hclear, toNat_half]
  omega

theorem shiftByte_xor (r r' : UInt32) : shiftByte (r ^^^ r') = shiftByte r ^^^ shiftByte r' := by
  simp only [shiftByte, shiftBit_xor]

theorem shiftByte_injective {r r' : UInt32} (h : shiftByte r = shiftByte r') : r = r' := by
  rw [← UInt32.xor_eq_zero_iff, ← shiftByte_xor] at h
  rw [← UInt32.xor_eq_zero_iff]
  iterate 8 apply eq_zero_of_shiftBit
  exact h

theorem shiftByte_eq {r w : UInt32} (h : r.toNat = 256 * w.toNat) : shiftByte r = w := by
  apply UInt32.toNat_inj.mp
  unfold shiftByte
  iterate 8 apply toNat_shiftBit
  omega

/-! ## Runs of bytes -/

/-- The same bytes fed to different registers leave them different. -/
theorem feed_injective {r r' : UInt32} {bytes : Bytes} (h : feed r bytes = feed r' bytes) :
    r = r' := by
  induction bytes generalizing r r' with
  | nil => exact h
  | cons b bytes ih => exact (UInt32.xor_left_inj _).mp (shiftByte_injective (ih h))

/-- A byte that stands above clear bytes moves down. -/
theorem shiftByte_high (b : UInt8) :
    shiftByte (b.toUInt32 <<< 24) = b.toUInt32 <<< 16 ∧
    shiftByte (b.toUInt32 <<< 16) = b.toUInt32 <<< 8 ∧
    shiftByte (b.toUInt32 <<< 8) = b.toUInt32 := by
  have hb := b.toNat_lt
  refine ⟨shiftByte_eq ?_, shiftByte_eq ?_, shiftByte_eq ?_⟩
  all_goals
    simp only [UInt32.toNat_shiftLeft, UInt8.toNat_toUInt32, Nat.shiftLeft_eq]
    simp
    omega

/-- The bytes of a word do not overlap. -/
theorem ofBigEndian_eq_xor (a b c d : UInt8) : ofBigEndian a b c d =
    a.toUInt32 <<< 24 ^^^ b.toUInt32 <<< 16 ^^^ c.toUInt32 <<< 8 ^^^ d.toUInt32 := by
  have ha := fun i => testBit_byte a (i := i)
  have hb := fun i => testBit_byte b (i := i)
  have hc := fun i => testBit_byte c (i := i)
  have hd := fun i => testBit_byte d (i := i)
  apply UInt32.toNat_inj.mp
  apply Nat.eq_of_testBit_eq
  intro i
  simp only [ofBigEndian, UInt32.toNat_or, UInt32.toNat_xor, UInt32.toNat_shiftLeft,
    UInt8.toNat_toUInt32, Nat.testBit_or, Nat.testBit_xor, Nat.testBit_mod_two_pow,
    Nat.testBit_shiftLeft]
  grind

/-- Four bytes reach the register as one word, the first byte lowest. -/
theorem feed_word (r : UInt32) (a b c d : UInt8) : feed r [a, b, c, d] =
    shiftByte (shiftByte (shiftByte (shiftByte (r ^^^ ofBigEndian d c b a)))) := by
  simp only [feed, List.foldl_cons, List.foldl_nil, feedByte, ofBigEndian_eq_xor, shiftByte_xor,
    shiftByte_high]
  ac_rfl

/-- Different words leave a register different. -/
theorem feed_window {r : UInt32} {window window' : Bytes} (hlength : window.length = 4)
    (hlength' : window'.length = 4) (h : feed r window = feed r window') : window = window' := by
  match window, hlength, window', hlength' with
  | [a, b, c, d], _, [a', b', c', d'], _ =>
    rw [feed_word, feed_word] at h
    have hword := (UInt32.xor_right_inj r).mp (shiftByte_injective (shiftByte_injective
      (shiftByte_injective (shiftByte_injective h))))
    have hbytes := congrArg bigEndian hword
    rw [bigEndian_ofBigEndian, bigEndian_ofBigEndian] at hbytes
    simp only [List.cons.injEq, and_true] at hbytes ⊢
    obtain ⟨hd, hc, hb, ha⟩ := hbytes
    exact ⟨ha, hb, hc, hd⟩

/-- Runs that differ within four neighbouring bytes have different checksums. -/
theorem crc32_window {window window' : Bytes} (hlength : window.length = 4)
    (hlength' : window'.length = 4) {pre post : Bytes}
    (h : crc32 (pre ++ window ++ post) = crc32 (pre ++ window' ++ post)) : window = window' := by
  have hfeed := (UInt32.xor_left_inj _).mp h
  rw [feed_append, feed_append, feed_append, feed_append] at hfeed
  exact feed_window hlength hlength' (feed_injective hfeed)

end Crc32

namespace Frame

/-! ## Damaged frames -/

/-- A frame's bytes with another key, checksum and payload put in their places. The length field
stays. -/
def replaced (f : Frame) (key crc payload : Bytes) : Bytes :=
  key ++ bigEndian f.payload.length.toUInt32 ++ crc ++ payload

/-- Damage to a frame that leaves its length field and the number of its bytes: another checksum,
or other bytes under the checksum, all of them in one window of four bytes. -/
inductive Damaged (f : Frame) : Bytes → Prop where
  | checksum {crc : Bytes} (hlength : crc.length = 4)
      (hother : crc ≠ bigEndian (recordChecksum f.key f.payload)) :
      Damaged f (f.replaced (bigEndian f.key) crc f.payload)
  | covered {key payload pre window window' post : Bytes} (hkey : key.length = 4)
      (hstored : coveredBytes f.key f.payload = pre ++ window ++ post)
      (hchanged : key ++ payload = pre ++ window' ++ post)
      (hlength : window.length = 4) (hlength' : window'.length = 4) (hother : window' ≠ window) :
      Damaged f (f.replaced key (bigEndian (recordChecksum f.key f.payload)) payload)

/-- A frame whose key and payload are not what its checksum was made for is refused, whatever
follows it. -/
theorem decodeAll_replaced {f : Frame} {key crc : UInt32} {payload : Bytes}
    (hfits : f.payload.length < UInt32.size) (hlength : payload.length = f.payload.length)
    (hsum : recordChecksum key payload ≠ crc) (rest : Bytes) :
    decodeAll (f.replaced (bigEndian key) (bigEndian crc) payload ++ rest) =
      .error (.corruption .checksumMismatch) := by
  rw [← hlength] at hfits
  rw [replaced, ← hlength, decodeAll_header key crc hfits, if_pos hsum]

theorem decodeAll_of_damaged {f : Frame} {damaged : Bytes} (h : Damaged f damaged)
    (hfits : f.payload.length < UInt32.size) (rest : Bytes) :
    decodeAll (damaged ++ rest) = .error (.corruption .checksumMismatch) := by
  cases h with
  | checksum hlength hother =>
    obtain ⟨crc, rfl⟩ := exists_bigEndian hlength
    exact decodeAll_replaced hfits rfl (fun hsum => hother (hsum ▸ rfl)) rest
  | @covered key payload pre window window' post hkey hstored hchanged hlength hlength' hother =>
    obtain ⟨key, rfl⟩ := exists_bigEndian hkey
    have hsame : payload.length = f.payload.length := by
      have hs := congrArg List.length hstored
      have hc := congrArg List.length hchanged
      simp only [coveredBytes, List.length_append, length_bigEndian] at hs hc
      omega
    refine decodeAll_replaced hfits hsame (fun hsum => hother ?_) rest
    rw [recordChecksum, recordChecksum, hstored, coveredBytes, hchanged] at hsum
    exact Crc32.crc32_window hlength' hlength hsum

/-- Another key is damage. -/
theorem Damaged.key {f : Frame} {key : Bytes} (hlength : key.length = 4)
    (hother : key ≠ bigEndian f.key) :
    Damaged f (f.replaced key (bigEndian (recordChecksum f.key f.payload)) f.payload) :=
  .covered hlength (show coveredBytes f.key f.payload = [] ++ bigEndian f.key ++ f.payload from rfl)
    (show key ++ f.payload = [] ++ key ++ f.payload from rfl) rfl hlength hother

/-- Another byte anywhere in the payload is damage. -/
theorem Damaged.payload {f : Frame} {u v : Bytes} {x y : UInt8} (hpayload : f.payload = u ++ x :: v)
    (hother : y ≠ x) : Damaged f (f.replaced (bigEndian f.key)
      (bigEndian (recordChecksum f.key f.payload)) (u ++ y :: v)) := by
  -- the window ends at the byte, so it may begin within the key
  obtain ⟨pre, low, hsplit, hlow⟩ :
      ∃ pre low, bigEndian f.key ++ u = pre ++ low ∧ low.length = 3 := by
    refine ⟨_, _, (List.take_append_drop ((bigEndian f.key ++ u).length - 3) _).symm, ?_⟩
    simp only [List.length_drop, List.length_append, length_bigEndian]
    omega
  have hstream : ∀ z, bigEndian f.key ++ (u ++ z :: v) = pre ++ (low ++ [z]) ++ v := by
    intro z
    rw [← List.append_assoc, hsplit]
    simp
  have hlength : ∀ z, (low ++ [z]).length = 4 := by
    intro z
    rw [List.length_append, hlow, List.length_singleton]
  refine .covered rfl ?_ (hstream y) (hlength x) (hlength y) ?_
  · rw [coveredBytes, hpayload, hstream]
  · intro h
    exact hother (List.cons.inj (List.append_cancel_left h)).1

/-- Behind any frames that fit, and before any bytes at all, a frame with a changed checksum or
with changed bytes in one window of four under its checksum is refused for its checksum. So is a
frame with any other key, and a frame with any one byte of its payload changed. -/
theorem decodeAll_damaged {before : List Frame} {f : Frame}
    (hbefore : ∀ g ∈ before, g.payload.length < 2 ^ 32) (hf : f.payload.length < 2 ^ 32)
    (after : Bytes) :
    ∃ run, appendAll before [] = (.ok (), run) ∧ (f.append run).2 = run ++ f.bytes ∧
      (∀ damaged, Damaged f damaged →
        decodeAll (run ++ damaged ++ after) = .error (.corruption .checksumMismatch)) ∧
      (∀ key : Bytes, key.length = 4 → key ≠ bigEndian f.key →
        decodeAll (run ++ f.replaced key (bigEndian (recordChecksum f.key f.payload)) f.payload ++
          after) = .error (.corruption .checksumMismatch)) ∧
      ∀ u x v y, f.payload = u ++ x :: v → y ≠ x →
        decodeAll (run ++ f.replaced (bigEndian f.key)
          (bigEndian (recordChecksum f.key f.payload)) (u ++ y :: v) ++ after) =
          .error (.corruption .checksumMismatch) := by
  have hrefused : ∀ damaged, Damaged f damaged →
      decodeAll ((before.map bytes).flatten ++ damaged ++ after) =
        .error (.corruption .checksumMismatch) := by
    intro damaged h
    rw [List.append_assoc, decodeAll_append before hbefore, decodeAll_of_damaged h hf]
    rfl
  refine ⟨(before.map bytes).flatten, appendAll_ok_iff.mpr ⟨hbefore, rfl⟩, ?_, hrefused, ?_, ?_⟩
  · rw [append_fits hf]
  · intro key hlength hother
    exact hrefused _ (Damaged.key hlength hother)
  · intro u x v y hpayload hother
    exact hrefused _ (Damaged.payload hpayload hother)

/-- The last byte of a second frame is changed, and one more byte follows. -/
theorem decodeAll_damaged_second :
    (∀ g ∈ [(⟨2, [97]⟩ : Frame)], g.payload.length < 2 ^ 32) ∧
    (⟨1, [7, 8]⟩ : Frame).payload.length < 2 ^ 32 ∧
    ∃ run, appendAll [⟨2, [97]⟩] [] = (.ok (), run) ∧
      decodeAll (run ++ replaced ⟨1, [7, 8]⟩ (bigEndian 1) (bigEndian (recordChecksum 1 [7, 8]))
        [7, 9] ++ [9]) = .error (.corruption .checksumMismatch) := by
  have hbefore : ∀ g ∈ [(⟨2, [97]⟩ : Frame)], g.payload.length < 2 ^ 32 := by simp
  have hf : (⟨1, [7, 8]⟩ : Frame).payload.length < 2 ^ 32 := by simp
  obtain ⟨run, hrun, -, -, -, hbyte⟩ := decodeAll_damaged hbefore hf [9]
  exact ⟨hbefore, hf, run, hrun, hbyte [7] 8 [] 9 rfl (by decide)⟩

end Frame

end ShuffleBuffer
