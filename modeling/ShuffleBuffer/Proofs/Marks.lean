import Mathlib.Data.Finset.Card
import ShuffleBuffer.Proofs.Layouts

/-! # Marks and the stack of a walk

A walk marks a value when it puts it on the stack. What a visit does to the two together is said by
`Pushed`: some values that were not marked are marked and lie on top of the stack, each of them
once. So the length of the stack and the number of unmarked values add up to the same before and
after, which is what bounds the walk. -/

namespace ShuffleBuffer.Estimate

/-- The identities that are not charged yet. -/
def Visited.unmarked (v : Visited) : Finset NodeId :=
  (Finset.range v.marks.size).filter fun id => v.contains id = false

namespace Visited

theorem lt_of_not_contains {v : Visited} {id : NodeId} (h : v.contains id = false) :
    id < v.marks.size := by
  by_contra hge
  simp [contains, Array.getD, hge] at h

@[simp] theorem mem_unmarked {v : Visited} {id : NodeId} :
    id ∈ v.unmarked ↔ v.contains id = false := by
  simp only [unmarked, Finset.mem_filter, Finset.mem_range, and_iff_right_iff_imp]
  exact lt_of_not_contains

theorem card_unmarked_le (v : Visited) : v.unmarked.card ≤ v.marks.size :=
  (Finset.card_filter_le _ _).trans_eq (Finset.card_range _)

theorem contains_mark (v : Visited) (id other : NodeId) :
    (v.mark id).contains other = (v.contains other || decide (other = id)) := by
  simp only [contains, mark, Array.getD_eq_getD_getElem?, Array.getElem?_setIfInBounds]
  by_cases heq : id = other
  · subst heq
    by_cases hlt : id < v.marks.size
    · simp [hlt]
    · simp [hlt]
  · simp [heq, Ne.symm heq]

theorem unmarked_mark (v : Visited) (id : NodeId) :
    (v.mark id).unmarked = v.unmarked.erase id := by
  ext other
  simp [contains_mark, and_comm]

theorem contains_none (g : Graph) (id : NodeId) :
    (Visited.none g).contains id = decide (g.nodes.size ≤ id) := by
  by_cases h : id < g.nodes.size
  · simp [contains, Visited.none, Array.getD, h, Nat.not_le.mpr h]
  · simp [contains, Visited.none, Array.getD, h, Nat.le_of_not_lt h]

theorem unmarked_none (g : Graph) : (Visited.none g).unmarked = Finset.range g.nodes.size := by
  ext id
  simp [contains_none]

end Visited

namespace Walk

/-- What a walk has not marked yet. -/
abbrev unmarked (w : Walk) : Finset NodeId := w.visited.unmarked

/-- Some of `ids` were not marked; these are marked now and lie on top of the stack. -/
structure Pushed (ids : List NodeId) (w : Walk) (pending : List NodeId) (w' : Walk)
    (pending' : List NodeId) : Prop where
  fresh : ∃ fresh : List NodeId, pending' = fresh ++ pending ∧ fresh.Nodup ∧
    (∀ id ∈ fresh, id ∈ ids) ∧ fresh.toFinset = w.unmarked \ w'.unmarked
  marked : ∀ id ∈ ids, id ∉ w'.unmarked
  shrinks : w'.unmarked ⊆ w.unmarked

variable {ids : List NodeId} {w w' : Walk} {pending pending' : List NodeId}

theorem Pushed.refl (w : Walk) (pending : List NodeId) : Pushed [] w pending w pending :=
  ⟨⟨[], by simp⟩, by simp, Finset.Subset.refl _⟩

/-- What counts is what is marked, not which layouts are known. -/
theorem Pushed.congr {v v' : Walk} (h : Pushed ids w pending w' pending')
    (hv : v.visited = w.visited) (hv' : v'.visited = w'.visited) :
    Pushed ids v pending v' pending' := by
  obtain ⟨hfresh, hmarked, hshrinks⟩ := h
  refine ⟨?_, ?_, ?_⟩
  · simpa only [unmarked, hv, hv'] using hfresh
  · simpa only [unmarked, hv, hv'] using hmarked
  · simpa only [unmarked, hv, hv'] using hshrinks

theorem Pushed.trans {more : List NodeId} {w'' : Walk} {pending'' : List NodeId}
    (h : Pushed ids w pending w' pending') (h' : Pushed more w' pending' w'' pending'') :
    Pushed (ids ++ more) w pending w'' pending'' := by
  obtain ⟨⟨fresh, hp, hnodup, hmem, heq⟩, hmarked, hshrinks⟩ := h
  obtain ⟨⟨fresh', hp', hnodup', hmem', heq'⟩, hmarked', hshrinks'⟩ := h'
  refine ⟨⟨fresh' ++ fresh, ?_, ?_, ?_, ?_⟩, ?_, hshrinks'.trans hshrinks⟩
  · rw [hp', hp, List.append_assoc]
  · refine List.nodup_append.mpr ⟨hnodup', hnodup, ?_⟩
    -- what the second round marks was unmarked after the first
    rintro id hid' _ hid rfl
    have hout := Finset.mem_sdiff.mp (heq ▸ List.mem_toFinset.mpr hid)
    have hin := Finset.mem_sdiff.mp (heq' ▸ List.mem_toFinset.mpr hid')
    exact hout.2 hin.1
  · intro id hid
    rcases List.mem_append.mp hid with h | h
    · exact List.mem_append_right _ (hmem' id h)
    · exact List.mem_append_left _ (hmem id h)
  · rw [List.toFinset_append, heq, heq']
    ext id
    simp only [Finset.mem_union, Finset.mem_sdiff]
    constructor
    · rintro (⟨hin, hout⟩ | ⟨hin, hout⟩)
      · exact ⟨hshrinks hin, hout⟩
      · exact ⟨hin, fun hlate => hout (hshrinks' hlate)⟩
    · rintro ⟨hin, hout⟩
      by_cases hmid : id ∈ w'.unmarked
      · exact .inl ⟨hmid, hout⟩
      · exact .inr ⟨hin, hmid⟩
  · intro id hid
    rcases List.mem_append.mp hid with h | h
    · exact fun hlate => hmarked id h (hshrinks' hlate)
    · exact hmarked' id h

/-- The stack grows by as much as the unmarked identities shrink. -/
theorem Pushed.balance (h : Pushed ids w pending w' pending') :
    pending'.length + w'.unmarked.card = pending.length + w.unmarked.card := by
  obtain ⟨⟨fresh, hp, hnodup, -, heq⟩, -, hshrinks⟩ := h
  have hcard : fresh.length + w'.unmarked.card = w.unmarked.card := by
    rw [← List.toFinset_card_of_nodup hnodup, heq, Finset.card_sdiff_of_subset hshrinks]
    have := Finset.card_le_card hshrinks
    omega
  rw [hp, List.length_append]
  omega

/-- What was marked on the way lies on the stack. -/
theorem Pushed.mem_of_marked (h : Pushed ids w pending w' pending') {id : NodeId}
    (hin : id ∈ w.unmarked) (hout : id ∉ w'.unmarked) : id ∈ pending' := by
  obtain ⟨⟨fresh, rfl, -, -, heq⟩, -, -⟩ := h
  refine List.mem_append_left _ (List.mem_toFinset.mp ?_)
  rw [heq]
  exact Finset.mem_sdiff.mpr ⟨hin, hout⟩

/-- Nothing else lies on a stack that was empty. -/
theorem Pushed.source (h : Pushed ids w [] w' pending') {id : NodeId} (hid : id ∈ pending') :
    id ∈ ids := by
  obtain ⟨⟨fresh, rfl, -, hmem, -⟩, -, -⟩ := h
  rw [List.append_nil] at hid
  exact hmem id hid

theorem push_pushed (w : Walk) (pending : List NodeId) (id : NodeId) :
    Pushed [id] w pending (w.push pending id).2 (w.push pending id).1 := by
  unfold push
  split
  · rename_i h
    exact ⟨⟨[], by simp⟩, by simp [unmarked, h], Finset.Subset.refl _⟩
  · rename_i h
    have hin : id ∈ w.unmarked := by simpa [unmarked] using h
    refine ⟨⟨[id], rfl, List.nodup_singleton id, by simp, ?_⟩, ?_, ?_⟩
    · simp [unmarked, Visited.unmarked_mark, Finset.sdiff_erase_self hin]
    · simp [unmarked, Visited.unmarked_mark]
    · simp only [unmarked, Visited.unmarked_mark]
      exact Finset.erase_subset _ _

theorem layouts_push (w : Walk) (pending : List NodeId) (id : NodeId) :
    (w.push pending id).2.layouts = w.layouts := by
  unfold push
  split <;> rfl

theorem pushAll_cons (w : Walk) (pending : List NodeId) (id : NodeId) (ids : List NodeId) :
    w.pushAll pending (id :: ids) =
      (w.push pending id).2.pushAll (w.push pending id).1 ids := rfl

theorem pushAll_pushed (w : Walk) (pending ids : List NodeId) :
    Pushed ids w pending (w.pushAll pending ids).2 (w.pushAll pending ids).1 := by
  induction ids generalizing w pending with
  | nil => exact Pushed.refl w pending
  | cons id ids ih =>
    rw [pushAll_cons]
    exact (push_pushed w pending id).trans (ih _ _)

theorem layouts_pushAll (w : Walk) (pending ids : List NodeId) :
    (w.pushAll pending ids).2.layouts = w.layouts := by
  induction ids generalizing w pending with
  | nil => rfl
  | cons id ids ih => rw [pushAll_cons, ih, layouts_push]

end Walk

end ShuffleBuffer.Estimate
