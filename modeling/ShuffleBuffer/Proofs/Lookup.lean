import Mathlib.Data.List.Nodup

/-! # Lookups in lists of named entries

Registries, ledgers, directories and caches are lists of pairs whose first match counts. An entry is
replaced by filtering its name out and putting the new entry in front. -/

namespace ShuffleBuffer

variable {κ ν : Type} [DecidableEq κ]

theorem mem_of_lookup {l : List (κ × ν)} {k : κ} {v : ν} (h : l.lookup k = some v) :
    (k, v) ∈ l := by
  obtain ⟨before, after, rfl, _⟩ := List.lookup_eq_some_iff.mp h
  simp

theorem lookup_cons_ne {l : List (κ × ν)} {k k' : κ} {v : ν} (h : k' ≠ k) :
    ((k, v) :: l).lookup k' = l.lookup k' := by
  rw [List.lookup_cons, beq_eq_false_iff_ne.mpr h]

theorem lookup_filter_ne (l : List (κ × ν)) {k k' : κ} (h : k' ≠ k) :
    (l.filter (·.1 ≠ k)).lookup k' = l.lookup k' := by
  induction l with
  | nil => rfl
  | cons entry l ih =>
    obtain ⟨k₁, v⟩ := entry
    by_cases hk : k₁ = k
    · subst hk
      simpa [lookup_cons_ne h] using ih
    · by_cases hk' : k' = k₁
      · subst hk'; simp [h]
      · simpa [hk, lookup_cons_ne hk'] using ih

theorem lookup_filter_self (l : List (κ × ν)) (k : κ) : (l.filter (·.1 ≠ k)).lookup k = none := by
  rw [List.lookup_eq_none_iff]
  intro entry hmem
  have hne : entry.1 ≠ k := of_decide_eq_true (List.mem_filter.mp hmem).2
  exact bne_iff_ne.mpr hne.symm

theorem filter_of_lookup_none {l : List (κ × ν)} {k : κ} (h : l.lookup k = none) :
    l.filter (·.1 ≠ k) = l := by
  refine List.filter_eq_self.mpr fun entry hmem => decide_eq_true fun hsame => ?_
  have habsent := List.lookup_eq_none_iff.mp h entry hmem
  rw [← hsame, bne_self_eq_false] at habsent
  cases habsent

theorem names_filter {l : List (κ × ν)} (h : (l.map Prod.fst).Nodup) (k : κ) :
    ((l.filter (·.1 ≠ k)).map Prod.fst).Nodup :=
  h.sublist (List.filter_sublist.map _)

/-- An entry that replaces the one of its name leaves every name once. -/
theorem names_replace {l : List (κ × ν)} (h : (l.map Prod.fst).Nodup) (k : κ) (v : ν) :
    (((k, v) :: l.filter (·.1 ≠ k)).map Prod.fst).Nodup := by
  refine List.nodup_cons.mpr ⟨fun hmem => ?_, names_filter h k⟩
  obtain ⟨entry, hentry, hsame⟩ := List.mem_map.mp hmem
  exact of_decide_eq_true (List.mem_filter.mp hentry).2 hsame

/-- The entry of a name in front, where names stand once. -/
theorem perm_of_lookup {l : List (κ × ν)} {k : κ} {v : ν} (hnames : (l.map Prod.fst).Nodup)
    (h : l.lookup k = some v) : l.Perm ((k, v) :: l.filter (·.1 ≠ k)) := by
  obtain ⟨before, after, rfl, hbefore⟩ := List.lookup_eq_some_iff.mp h
  have hother : ∀ entry ∈ before ++ after, entry.1 ≠ k := by
    rw [List.map_append, List.map_cons, List.nodup_middle, List.nodup_cons, ← List.map_append]
      at hnames
    exact fun entry hmem hsame => hnames.1 (List.mem_map.mpr ⟨entry, hmem, hsame⟩)
  have hfilter : (before ++ (k, v) :: after).filter (·.1 ≠ k) = before ++ after := by
    rw [List.filter_append, List.filter_cons_of_neg (by simp), ← List.filter_append]
    exact List.filter_eq_self.mpr fun entry hmem => decide_eq_true (hother entry hmem)
  rw [hfilter]
  exact List.perm_middle

/-- Only an empty list gives nothing under every name. -/
theorem eq_nil_of_lookup_none {l : List (κ × ν)} (h : ∀ k, l.lookup k = none) : l = [] := by
  cases l with
  | nil => rfl
  | cons entry l =>
    have hfirst := h entry.1
    rw [List.lookup_cons_self] at hfirst
    cases hfirst

end ShuffleBuffer
