import Mathlib
import ShuffleBuffer.Pool
import ShuffleBuffer.Proofs.Lookup

/-! # The balance of a pool

What is left of a pool and what its ledger charges add up to the capacity, or to the largest signed
word if the capacity is larger. A pool in balance computes exactly: nothing that is taken from it,
charged to a block or given back wraps. The five things that a writer or a removal does to a pool
keep the balance. -/

namespace ShuffleBuffer

theorem toInt_signedAmount (amount : UInt64) :
    (signedAmount amount).toInt = min (amount.toNat : Int) (2 ^ 63 - 1) := by
  have hvalue : (0x8000000000000000 : UInt64).toNat = 2 ^ 63 := rfl
  unfold signedAmount
  split
  · rename_i h
    have hlt := UInt64.lt_iff_toNat_lt.mp h
    rw [hvalue] at hlt
    have hsigned : amount.toInt64.toInt = (amount.toNat : Int) := by
      show amount.toInt64.toBitVec.toInt = _
      rw [UInt64.toBitVec_toInt64, BitVec.toInt_eq_toNat_of_lt]
      · rfl
      · have : amount.toBitVec.toNat = amount.toNat := rfl
        omega
    rw [hsigned]
    omega
  · rename_i h
    have hge := UInt64.le_iff_toNat_le.mp (UInt64.not_lt.mp h)
    rw [hvalue] at hge
    rw [Int64.toInt_maxValue]
    omega

namespace Pool

/-- What all blocks together are charged. -/
def charged (p : Pool) : Nat := (p.charges.map fun entry => entry.2.toNat).sum

/-- Between two calls: each block is charged once, and what is not charged is left. -/
structure Balanced (capacity : UInt64) (p : Pool) : Prop where
  distinct : (p.charges.map Prod.fst).Nodup
  counter : p.remaining.toInt + p.charged = min (capacity.toNat : Int) (2 ^ 63 - 1)
  nonneg : 0 ≤ p.remaining.toInt
  positive : 0 < capacity → 0 < p.remaining.toInt

/-- The arithmetic of the pool is that of unbounded numbers: taking and giving back, also right
after a refusal, adding to the ledger when an amount is granted, and returning a charge. The cap of
an amount at the largest signed word changes nothing that is granted. -/
structure Exact (p : Pool) : Prop where
  taken : ∀ amount, (p.acquire amount).2.remaining.toInt =
    p.remaining.toInt - (signedAmount amount).toInt
  restored : ∀ amount, ((p.acquire amount).2.release amount).remaining.toInt =
    (p.acquire amount).2.remaining.toInt + (signedAmount amount).toInt
  granted : ∀ id amount, (p.reserve id amount).1 = true →
    (signedAmount amount).toInt = amount.toNat ∧
    ∃ total, (p.reserve id amount).2.charged? id = some total ∧
      total.toNat = ((p.charged? id).getD 0).toNat + amount.toNat
  returned : ∀ id amount, p.charged? id = some amount →
    (p.releaseBlock id).2.remaining.toInt = p.remaining.toInt + amount.toNat

/-- What one call can make of a pool: nothing, a granted offer, one that is taken back, a refused
one, or a charge returned. -/
inductive Moves (p : Pool) : Pool → Prop
  | still : Moves p p
  | granted {id : BlockId} {amount : UInt64} :
      (p.reserve id amount).1 = true → Moves p (p.reserve id amount).2
  | withdrawn {id : BlockId} {amount : UInt64} :
      (p.reserve id amount).1 = true → Moves p ((p.reserve id amount).2.releaseBlock id).2
  | refused {id : BlockId} {amount : UInt64} :
      (p.reserve id amount).1 = false → Moves p ((p.reserve id amount).2.release amount)
  | returned {id : BlockId} : Moves p (p.releaseBlock id).2

/-- What can be left of a pool after an offer for a block of which nothing came: what it was, or
that without anything that is charged to the block. -/
inductive Reverts (p : Pool) (id : BlockId) (size : Option UInt64) : Pool → Prop
  | same : Reverts p id size p
  | withdrawn {amount : UInt64} : size = some amount → (p.reserve id amount).1 = true →
      Reverts p id size ((p.reserve id amount).2.releaseBlock id).2

variable {p : Pool} {capacity amount : UInt64} {id : BlockId}

/-! ## Offers -/

theorem reserve_fst (p : Pool) (id : BlockId) (amount : UInt64) :
    (p.reserve id amount).1 = (p.acquire amount).1 := by
  unfold reserve
  split
  · rename_i h; rw [h]
  · rename_i h; rw [h]

theorem reserve_granted (h : (p.reserve id amount).1 = true) :
    (p.reserve id amount).2 = (p.acquire amount).2.charge id amount := by
  rw [reserve_fst] at h
  unfold reserve
  split
  · rename_i heq; rw [heq]
  · rename_i heq; rw [heq] at h; cases h

theorem reserve_refused (h : (p.reserve id amount).1 = false) :
    (p.reserve id amount).2 = (p.acquire amount).2 := by
  rw [reserve_fst] at h
  unfold reserve
  split
  · rename_i heq; rw [heq] at h; cases h
  · rename_i heq; rw [heq]

/-- Taking and giving back the same amount cancel out, also where the counter wraps. -/
theorem release_acquire (p : Pool) (amount : UInt64) : (p.acquire amount).2.release amount = p := by
  simp [acquire, release]

/-- Unless the counter wraps, an amount is granted exactly if something is left after it. -/
theorem acquire_exact (p : Pool) (amount : UInt64)
    (h : -(2 ^ 63) ≤ p.remaining.toInt - (signedAmount amount).toInt) :
    (p.acquire amount).2.remaining.toInt = p.remaining.toInt - (signedAmount amount).toInt ∧
    ((p.acquire amount).1 = true ↔ 0 < p.remaining.toInt - (signedAmount amount).toInt) := by
  have hamount := toInt_signedAmount amount
  have hlarge : p.remaining.toInt < 2 ^ 63 := p.remaining.toInt_lt
  have hrest : (p.remaining - signedAmount amount).toInt =
      p.remaining.toInt - (signedAmount amount).toInt := by
    rw [Int64.toInt_sub]
    apply Int.bmod_eq_of_le
    · omega
    · omega
  refine ⟨hrest, ?_⟩
  rw [acquire, decide_eq_true_iff, Int64.lt_iff_toInt_lt, hrest, Int64.toInt_zero]

theorem Reverts.moves {size : Option UInt64} {p' : Pool} (h : p.Reverts id size p') :
    p.Moves p' := by
  cases h with
  | same => exact .still
  | withdrawn _ hgranted => exact .withdrawn hgranted

/-- Of a counter that is not negative exactly a smaller amount is granted. -/
theorem acquire_spec (h : 0 ≤ p.remaining.toInt) (amount : UInt64) :
    (p.acquire amount).2.remaining.toInt = p.remaining.toInt - (signedAmount amount).toInt ∧
    ((p.acquire amount).1 = true ↔ (amount.toNat : Int) < p.remaining.toInt) := by
  have hamount := toInt_signedAmount amount
  have hlarge : p.remaining.toInt < 2 ^ 63 := p.remaining.toInt_lt
  obtain ⟨hrest, hgrant⟩ := acquire_exact p amount (by omega)
  refine ⟨hrest, hgrant.trans ?_⟩
  omega

theorem reserve_iff (h : 0 ≤ p.remaining.toInt) (id : BlockId) (amount : UInt64) :
    (p.reserve id amount).1 = true ↔ (amount.toNat : Int) < p.remaining.toInt := by
  rw [reserve_fst]
  exact (acquire_spec h amount).2

/-! ## The ledger -/

/-- The charge of one block and those of all others are the whole. -/
theorem charged_split {charges : List (BlockId × UInt64)} (h : (charges.map Prod.fst).Nodup)
    (id : BlockId) :
    (charges.map fun entry => entry.2.toNat).sum = ((charges.lookup id).getD 0).toNat +
      ((charges.filter (·.1 ≠ id)).map fun entry => entry.2.toNat).sum := by
  induction charges with
  | nil => rfl
  | cons entry charges ih =>
    obtain ⟨id', amount⟩ := entry
    obtain ⟨hfresh, hdistinct⟩ := List.nodup_cons.mp h
    by_cases heq : id' = id
    · subst heq
      have hothers : charges.filter (·.1 ≠ id') = charges := by
        refine List.filter_eq_self.mpr fun entry hentry => ?_
        refine decide_eq_true fun hsame => hfresh ?_
        exact List.mem_map.mpr ⟨entry, hentry, hsame⟩
      have hskip : ((id', amount) :: charges).filter (·.1 ≠ id') = charges.filter (·.1 ≠ id') := by
        simp
      rw [hskip, hothers, List.lookup_cons_self]
      simp
    · have hkeep : ((id', amount) :: charges).filter (·.1 ≠ id) =
          (id', amount) :: charges.filter (·.1 ≠ id) := by
        simp [heq]
      rw [hkeep, lookup_cons_ne (Ne.symm heq), List.map_cons, List.sum_cons, ih hdistinct,
        List.map_cons, List.sum_cons]
      omega

theorem distinct_filter {charges : List (BlockId × UInt64)} (h : (charges.map Prod.fst).Nodup)
    (id : BlockId) : ((charges.filter (·.1 ≠ id)).map Prod.fst).Nodup :=
  h.sublist (List.filter_sublist.map Prod.fst)

theorem distinct_charge (h : (p.charges.map Prod.fst).Nodup) (id : BlockId) (amount : UInt64) :
    ((p.charge id amount).charges.map Prod.fst).Nodup := by
  refine List.nodup_cons.mpr ⟨?_, distinct_filter h id⟩
  intro hmem
  obtain ⟨entry, hentry, hsame⟩ := List.mem_map.mp hmem
  exact of_decide_eq_true (List.mem_filter.mp hentry).2 hsame

/-- Takes what is charged to a block out of the ledger, and nothing back onto the counter. -/
def withdraw (p : Pool) (id : BlockId) : Pool :=
  { p with charges := p.charges.filter (·.1 ≠ id) }

theorem releaseBlock_of_charged (h : p.charged? id = some amount) :
    p.releaseBlock id = (some amount, (p.withdraw id).release amount) := by
  simp only [releaseBlock, h, withdraw]

theorem charged_withdraw_self (p : Pool) (id : BlockId) : (p.withdraw id).charged? id = none :=
  lookup_filter_self p.charges id

theorem charged_withdraw_ne {other : BlockId} (h : other ≠ id) :
    (p.withdraw id).charged? other = p.charged? other :=
  lookup_filter_ne p.charges h

theorem withdraw_charge (p : Pool) (id : BlockId) (amount : UInt64) :
    (p.charge id amount).withdraw id = p.withdraw id := by
  simp [charge, withdraw, List.filter_filter]

theorem withdraw_of_uncharged (h : p.charged? id = none) : p.withdraw id = p := by
  rw [withdraw, filter_of_lookup_none h]

theorem charged_charge_self (p : Pool) (id : BlockId) (amount : UInt64) :
    (p.charge id amount).charged? id = some ((p.charged? id).getD 0 + amount) :=
  List.lookup_cons_self

theorem charged_charge_ne {other : BlockId} (h : other ≠ id) :
    (p.charge id amount).charged? other = p.charged? other :=
  (lookup_cons_ne h).trans (lookup_filter_ne p.charges h)

theorem charged_charge (h : (p.charges.map Prod.fst).Nodup) {id : BlockId} {amount : UInt64}
    (hfits : ((p.charged? id).getD 0).toNat + amount.toNat < 2 ^ 64) :
    (p.charge id amount).charged = p.charged + amount.toNat := by
  have hsplit := charged_split h id
  have htotal : ((p.charged? id).getD 0 + amount).toNat =
      ((p.charged? id).getD 0).toNat + amount.toNat := by
    rw [UInt64.toNat_add, Nat.mod_eq_of_lt hfits]
  rw [charged?] at htotal
  simp only [charged, charge, List.map_cons, List.sum_cons, htotal, hsplit, charged?]
  omega

/-! ## The balance -/

theorem balanced_ofCapacity (capacity : UInt64) : (ofCapacity capacity).Balanced capacity where
  distinct := List.nodup_nil
  counter := by simp [ofCapacity, charged, toInt_signedAmount]
  nonneg := by
    show 0 ≤ (signedAmount capacity).toInt
    rw [toInt_signedAmount]
    omega
  positive h := by
    show 0 < (signedAmount capacity).toInt
    rw [toInt_signedAmount]
    have := UInt64.lt_iff_toNat_lt.mp h
    rw [UInt64.toNat_zero] at this
    omega

namespace Balanced

theorem charged_le (h : p.Balanced capacity) : p.charged ≤ capacity.toNat := by
  have := h.counter
  have := h.nonneg
  omega

theorem charge_le (h : p.Balanced capacity) (id : BlockId) :
    ((p.charged? id).getD 0).toNat ≤ p.charged := by
  have := charged_split h.distinct id
  rw [charged, this, charged?]
  omega

theorem reserve (h : p.Balanced capacity) (hgrant : (p.reserve id amount).1 = true) :
    (p.reserve id amount).2.Balanced capacity := by
  have hless := (reserve_iff h.nonneg id amount).mp hgrant
  obtain ⟨hrest, -⟩ := acquire_spec h.nonneg amount
  have hamount := toInt_signedAmount amount
  have hcounter := h.counter
  have hcharge := h.charge_le id
  have hlarge : p.remaining.toInt < 2 ^ 63 := p.remaining.toInt_lt
  rw [reserve_granted hgrant]
  have hledger : ((p.acquire amount).2.charge id amount).charged = p.charged + amount.toNat :=
    charged_charge (p := (p.acquire amount).2) h.distinct (by
      show ((p.charged? id).getD 0).toNat + amount.toNat < 2 ^ 64
      omega)
  refine ⟨distinct_charge (p := (p.acquire amount).2) h.distinct id amount, ?_, ?_, fun _ => ?_⟩
  · rw [hledger]
    show (p.acquire amount).2.remaining.toInt + _ = _
    omega
  · show 0 ≤ (p.acquire amount).2.remaining.toInt
    omega
  · show 0 < (p.acquire amount).2.remaining.toInt
    omega

theorem returned_eq (h : p.Balanced capacity) (hcharge : p.charged? id = some amount) :
    (p.releaseBlock id).2.remaining.toInt = p.remaining.toInt + amount.toNat := by
  have hle := h.charge_le id
  have hcounter := h.counter
  have hnonneg := h.nonneg
  have hamount := toInt_signedAmount amount
  rw [hcharge, Option.getD_some] at hle
  simp only [releaseBlock, hcharge, release]
  rw [Int64.toInt_add, Int.bmod_eq_of_le]
  · omega
  · omega
  · omega

theorem releaseBlock (h : p.Balanced capacity) (id : BlockId) :
    (p.releaseBlock id).2.Balanced capacity := by
  cases hcharge : p.charged? id with
  | none => simpa only [Pool.releaseBlock, hcharge] using h
  | some amount =>
    have hreturned := h.returned_eq hcharge
    have hnonneg := h.nonneg
    have hsplit := charged_split h.distinct id
    have hrest : (p.releaseBlock id).2.charges = p.charges.filter (·.1 ≠ id) := by
      simp [Pool.releaseBlock, hcharge, release]
    have hcharged : p.charged = amount.toNat + (p.releaseBlock id).2.charged := by
      rw [charged, charged, hrest, hsplit]
      rw [charged?] at hcharge
      rw [hcharge, Option.getD_some]
    refine ⟨?_, ?_, by omega, fun hpos => ?_⟩
    · rw [hrest]
      exact distinct_filter h.distinct id
    · have := h.counter
      omega
    · have := h.positive hpos
      omega

/-- Whatever a call makes of a pool in balance is in balance. -/
theorem moves (h : p.Balanced capacity) {p' : Pool} (hmoves : p.Moves p') :
    p'.Balanced capacity := by
  cases hmoves with
  | still => exact h
  | granted hgrant => exact h.reserve hgrant
  | withdrawn hgrant => exact (h.reserve hgrant).releaseBlock _
  | refused hrefuse =>
    rw [reserve_refused hrefuse, release_acquire]
    exact h
  | returned => exact h.releaseBlock _

theorem exact (h : p.Balanced capacity) : p.Exact where
  taken amount := (acquire_spec h.nonneg amount).1
  restored amount := by
    rw [release_acquire, (acquire_spec h.nonneg amount).1]
    omega
  granted id amount hgrant := by
    have hless := (reserve_iff h.nonneg id amount).mp hgrant
    have hlarge : p.remaining.toInt < 2 ^ 63 := p.remaining.toInt_lt
    have hcharge := h.charge_le id
    have hcounter := h.counter
    refine ⟨by rw [toInt_signedAmount]; omega, ?_⟩
    refine ⟨(p.charged? id).getD 0 + amount, ?_, ?_⟩
    · rw [reserve_granted hgrant]
      exact List.lookup_cons_self
    · rw [UInt64.toNat_add, Nat.mod_eq_of_lt (by omega)]
  returned id amount hcharge := h.returned_eq hcharge

end Balanced

end Pool

end ShuffleBuffer
