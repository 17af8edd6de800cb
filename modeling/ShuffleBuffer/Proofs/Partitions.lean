import ShuffleBuffer.PartitionMap
import ShuffleBuffer.Proofs.Lookup

/-! # What lies under a key

Partitions are lists of things under keys. A map keeps one for each key, in ascending order, so what
is appended to a key comes after everything else that lies there. Sizes are summed up whatever
their order. -/

namespace ShuffleBuffer

/-- Everything under a key, in the order of the partitions. -/
def gather {γ : Type} (partitions : List (PartitionKey × List γ)) (key : PartitionKey) : List γ :=
  (partitions.filter (·.1 = key)).flatMap (·.2)

section Gather

variable {γ : Type} {key : PartitionKey}

theorem gather_append (l l' : List (PartitionKey × List γ)) (key : PartitionKey) :
    gather (l ++ l') key = gather l key ++ gather l' key := by
  simp [gather]

theorem gather_cons (k : PartitionKey) (xs : List γ) (l : List (PartitionKey × List γ)) :
    gather ((k, xs) :: l) key = (if k = key then xs else []) ++ gather l key := by
  by_cases h : k = key
  · simp [gather, h]
  · simp [gather, h]

theorem gather_eq_nil {l : List (PartitionKey × List γ)} (h : ∀ entry ∈ l, entry.1 ≠ key) :
    gather l key = [] := by
  rw [gather, List.filter_eq_nil_iff.mpr, List.flatMap_nil]
  intro entry hentry
  simpa using h entry hentry

end Gather

namespace PartitionMap

variable {γ δ : Type}

/-- The keys ascend. -/
def Sorted (m : PartitionMap γ) : Prop := m.Pairwise (·.1 < ·.1)

theorem mem_alter {change : Option γ → γ} {key : PartitionKey} {m : PartitionMap γ}
    {entry : PartitionKey × γ} (h : entry ∈ m.alter change key) :
    entry.1 = key ∨ ∃ old ∈ m, old.1 = entry.1 := by
  induction m with
  | nil =>
    rw [alter, List.mem_singleton] at h
    exact .inl (congrArg Prod.fst h)
  | cons first rest ih =>
    obtain ⟨k, x⟩ := first
    rw [alter] at h
    by_cases hlt : key < k
    · rw [if_pos hlt] at h
      rcases List.mem_cons.mp h with rfl | hold
      · exact .inl rfl
      · exact .inr ⟨entry, hold, rfl⟩
    · rw [if_neg hlt] at h
      by_cases heq : key = k
      · rw [if_pos heq] at h
        rcases List.mem_cons.mp h with rfl | hold
        · exact .inl rfl
        · exact .inr ⟨entry, List.mem_cons_of_mem _ hold, rfl⟩
      · rw [if_neg heq] at h
        rcases List.mem_cons.mp h with rfl | hnew
        · exact .inr ⟨(k, x), List.mem_cons_self, rfl⟩
        · rcases ih hnew with hkey | ⟨old, hold, hsame⟩
          · exact .inl hkey
          · exact .inr ⟨old, List.mem_cons_of_mem _ hold, hsame⟩

theorem sorted_alter {m : PartitionMap γ} (h : m.Sorted) (change : Option γ → γ)
    (key : PartitionKey) : Sorted (m.alter change key) := by
  induction m with
  | nil => exact List.pairwise_singleton _ _
  | cons first rest ih =>
    obtain ⟨k, x⟩ := first
    obtain ⟨hfirst, hrest⟩ := List.pairwise_cons.mp h
    rw [alter]
    by_cases hlt : key < k
    · rw [if_pos hlt]
      refine List.pairwise_cons.mpr ⟨fun entry hentry => ?_, h⟩
      rcases List.mem_cons.mp hentry with rfl | hlater
      · exact hlt
      · exact UInt32.lt_trans hlt (hfirst entry hlater)
    · rw [if_neg hlt]
      by_cases heq : key = k
      · rw [if_pos heq, heq]
        exact List.pairwise_cons.mpr ⟨hfirst, hrest⟩
      · rw [if_neg heq]
        refine List.pairwise_cons.mpr ⟨fun entry hentry => ?_, ih hrest⟩
        rcases mem_alter hentry with hkey | ⟨old, hold, hsame⟩
        · rw [hkey]
          exact UInt32.lt_of_le_of_ne (UInt32.not_lt.mp hlt) (Ne.symm heq)
        · rw [← hsame]
          exact hfirst old hold

theorem lookup_alter {m : PartitionMap γ} (h : m.Sorted) (change : Option γ → γ)
    (key k : PartitionKey) :
    (m.alter change key).lookup k =
      if k = key then some (change (m.lookup key)) else m.lookup k := by
  induction m with
  | nil =>
    by_cases heq : k = key
    · simp [alter, heq]
    · rw [alter, if_neg heq, lookup_cons_ne heq]
  | cons first rest ih =>
    obtain ⟨k', x⟩ := first
    obtain ⟨hfirst, hrest⟩ := List.pairwise_cons.mp h
    rw [alter]
    by_cases hlt : key < k'
    · -- a key that is less than the first is not there
      have hnone : ((k', x) :: rest).lookup key = none := by
        refine List.lookup_eq_none_iff.mpr fun entry hentry => ?_
        rcases List.mem_cons.mp hentry with rfl | hlater
        · simpa using UInt32.ne_of_lt hlt
        · simpa using UInt32.ne_of_lt (UInt32.lt_trans hlt (hfirst entry hlater))
      rw [if_pos hlt, hnone]
      by_cases heq : k = key
      · simp [heq]
      · rw [if_neg heq, lookup_cons_ne heq]
    · rw [if_neg hlt]
      by_cases hkey : key = k'
      · subst hkey
        by_cases heq : k = key
        · simp [heq]
        · rw [if_pos rfl, if_neg heq, lookup_cons_ne heq, lookup_cons_ne heq]
      · rw [if_neg hkey, lookup_cons_ne hkey]
        by_cases hsame : k = k'
        · subst hsame
          rw [List.lookup_cons_self, List.lookup_cons_self, if_neg (Ne.symm hkey)]
        · rw [lookup_cons_ne hsame, lookup_cons_ne hsame, ih hrest]

/-- What is appended to a key lies behind everything else there. -/
theorem gather_append_key {m : PartitionMap (List γ)} (h : m.Sorted) (key : PartitionKey)
    (xs : List γ) (k : PartitionKey) :
    gather (m.append key xs) k = gather m k ++ if key = k then xs else [] := by
  induction m with
  | nil =>
    rw [append, alter, gather_cons]
    simp [gather]
  | cons first rest ih =>
    obtain ⟨k', ys⟩ := first
    obtain ⟨hfirst, hrest⟩ := List.pairwise_cons.mp h
    rw [append, alter]
    by_cases hlt : key < k'
    · rw [if_pos hlt, gather_cons]
      by_cases hkey : key = k
      · have hnone : gather ((k', ys) :: rest) k = [] := by
          refine gather_eq_nil fun entry hentry hsame => ?_
          rcases List.mem_cons.mp hentry with rfl | hlater
          · exact UInt32.ne_of_lt hlt (hkey.trans hsame.symm)
          · exact UInt32.ne_of_lt (UInt32.lt_trans hlt (hfirst entry hlater))
              (hkey.trans hsame.symm)
        simp [hkey, hnone]
      · simp [hkey]
    · rw [if_neg hlt]
      by_cases heq : key = k'
      · rw [if_pos heq, gather_cons, gather_cons]
        by_cases hkey : key = k
        · have hnone : gather rest k = [] := by
            refine gather_eq_nil fun entry hentry hsame => ?_
            exact UInt32.ne_of_lt (hfirst entry hentry)
              (heq.symm.trans (hkey.trans hsame.symm))
          simp [hkey, ← heq, hnone]
        · simp [hkey, ← heq]
      · rw [if_neg heq, gather_cons, gather_cons, List.append_assoc, ← ih hrest, append]

/-- Appending commutes with changing what lies under the keys. -/
theorem append_map (f : γ → δ) (m : PartitionMap (List γ)) (key : PartitionKey) (xs : List γ) :
    append (m.map fun entry => (entry.1, entry.2.map f)) key (xs.map f) =
      (m.append key xs).map fun entry => (entry.1, entry.2.map f) := by
  induction m with
  | nil => simp [append, alter]
  | cons first rest ih =>
    obtain ⟨k, ys⟩ := first
    rw [append, append, List.map_cons, alter, alter]
    by_cases hlt : key < k
    · simp [hlt]
    · by_cases heq : key = k
      · simp [heq]
      · simp only [if_neg hlt, if_neg heq, List.map_cons, List.cons.injEq, true_and]
        exact ih

end PartitionMap

namespace PartitionSizes

theorem total_eq (sizes : PartitionSizes) (start : UInt64) :
    sizes.foldl (fun sum entry => sum + entry.2) start = start + total sizes := by
  induction sizes generalizing start with
  | nil => simp [total]
  | cons entry sizes ih =>
    rw [total, List.foldl_cons, List.foldl_cons, ih, ih (0 + entry.2), UInt64.zero_add,
      UInt64.add_assoc]

theorem total_cons (key : PartitionKey) (bytes : UInt64) (sizes : PartitionSizes) :
    total ((key, bytes) :: sizes) = bytes + total sizes := by
  rw [total, List.foldl_cons, total_eq, UInt64.zero_add]

/-- The total grows by what is added, under whatever key. -/
theorem total_add (sizes : PartitionSizes) (key : PartitionKey) (bytes : UInt64) :
    (sizes.add key bytes).total = sizes.total + bytes := by
  induction sizes with
  | nil => simp [add, PartitionMap.alter, total]
  | cons first rest ih =>
    obtain ⟨k, x⟩ := first
    rw [add, PartitionMap.alter]
    by_cases hlt : key < k
    · rw [if_pos hlt, total_cons]
      simp [UInt64.add_comm]
    · rw [if_neg hlt]
      by_cases heq : key = k
      · rw [if_pos heq, total_cons, total_cons, Option.getD_some, UInt64.add_assoc,
          UInt64.add_assoc, UInt64.add_comm bytes]
      · rw [if_neg heq, total_cons, total_cons, UInt64.add_assoc, ← ih, add]

end PartitionSizes

end ShuffleBuffer
