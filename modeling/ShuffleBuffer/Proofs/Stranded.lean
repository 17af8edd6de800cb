import ShuffleBuffer.Proofs.Dues

/-! # What a fault leaves marked

A value is marked when it is put on a stack and charged when it is visited, and a fault that ends an
estimate returns no charge at all. The marks stay, also those of values that can be read. What is
marked like this is no longer due: no later estimate with the same set of marks charges it, and
another estimate of the same root comes to nothing. -/

namespace ShuffleBuffer.Estimate.SizeEstimator

variable {g : Graph} {e e' : SizeEstimator} {root : NodeId} {visited : Visited}

/-- After a fault some of what was due is lost: it is marked but not charged, the root and a value
that cannot be read among it. The marks stay, whatever is estimated afterwards. From then on a lost
value costs nothing, and an estimate takes and marks what is due by the marks that it finds: nothing
that is lost, and all that was due before the fault exactly if none of it is lost. -/
theorem estimateWith_after_fault (he : e.Usable) {left : Visited} {fault : Fault}
    (hfault : e.estimateWith g root visited = (.error fault, left, e')) :
    let lost := visited.unmarked \ left.unmarked
    root ∈ lost ∧ (∃ id ∈ lost, ¬ g.Readable id) ∧ lost ⊆ visited.due g e.options root ∧
      left.unmarked ⊆ visited.unmarked ∧
      (∀ other, left.due g e.options other = visited.due g e.options other ↔
        Disjoint (visited.due g e.options other) lost) ∧
      ∀ (roots : List NodeId) (results : List (Except Fault UInt64)) (after : Visited)
        (later : SizeEstimator), e'.estimateAll g roots left = (results, after, later) →
        later.options = e.options ∧
        (∀ id ∈ lost, later.estimateWith g id after = (.ok 0, after, later)) ∧
        ∀ other, later.Answers g other after (later.estimateWith g other after) ∧
          ((∃ bytes, (later.estimateWith g other after).1 = .ok bytes) ↔
            ∀ id ∈ after.due g e.options other, g.Readable id) ∧
          Disjoint (after.due g e.options other) lost := by
  intro lost
  have hanswers := estimateWith_answers he g root visited
  rw [hfault] at hanswers
  cases hanswers with
  | failed he' hoptions hless hdue hroot hunreadable =>
    refine ⟨hroot, hunreadable, hdue, hless, fun other => Visited.due_eq_iff hless,
      fun roots results after later hcalls => ?_⟩
    obtain ⟨hlater, hsame, hfewer⟩ := estimateAll_keeps he' g roots left
    rw [hcalls] at hlater hsame hfewer
    have hsame : later.options = e.options := hsame.trans hoptions
    have hmarked : ∀ id ∈ lost, id ∉ after.unmarked := fun id hid hin =>
      (Finset.mem_sdiff.mp hid).2 (hfewer hin)
    refine ⟨hsame, fun id hid => later.estimateWith_marked g (hmarked id hid), fun other => ?_⟩
    have hother := estimateWith_answers hlater g other after
    refine ⟨hother, hsame ▸ hother.ok_iff, Finset.disjoint_left.mpr fun id hid hlost => ?_⟩
    exact hmarked id hlost (after.due_subset g e.options other hid)

/-- A sequence of an unreadable value and a text, and another sequence of this text and one more. -/
def severed : Graph :=
  ⟨#[.sequence #[1, 2], .pointer (some 3), .pointer (some 4),
    .object (.root (.declared 0) "Owner" [⟨"ghost", .reference⟩]) [], .scalars .u8 5,
    .sequence #[6, 7], .pointer (some 4), .pointer (some 8), .scalars .u8 9]⟩

/-- The text has been visited before the value that cannot be read, and is lost with it. The other
sequence costs 80 bytes then, and 112 without the fault. -/
theorem estimateWith_after_fault_severed :
    let e := ofOptions {}
    let left := (e.estimateWith severed 0 (.none severed)).2.1
    let e' := (e.estimateWith severed 0 (.none severed)).2.2
    e.Usable ∧ e.estimateWith severed 0 (.none severed) =
        (.error (.unreadableField "ghost" "Owner"), left, e') ∧
      (Visited.none severed).unmarked \ left.unmarked = {0, 1, 2, 3, 4} ∧
      e'.estimateWith severed 4 left = (.ok 0, left, e') ∧
      (e'.estimateWith severed 5 left).1 = .ok 80 ∧
      (∀ id ∈ left.due severed e.options 5, severed.Readable id) ∧
      4 ∉ left.due severed e.options 5 ∧
      (e.estimateWith severed 5 (.none severed)).1 = .ok 112 := by
  intro e left e'
  have he : e.Usable := usable_ofOptions (by decide)
  have hfault : (e.estimateWith severed 0 (.none severed)).1 =
      .error (.unreadableField "ghost" "Owner") := by decide +kernel
  have hcall : e.estimateWith severed 0 (.none severed) =
      (.error (.unreadableField "ghost" "Owner"), left, e') := Prod.ext hfault rfl
  have hlost : (Visited.none severed).unmarked \ left.unmarked = {0, 1, 2, 3, 4} := by
    decide +kernel
  have hother : (e'.estimateWith severed 5 left).1 = .ok 80 := by decide +kernel
  obtain ⟨-, -, -, -, -, hlater⟩ := estimateWith_after_fault he hcall
  obtain ⟨-, hzero, hanswers⟩ := hlater [] [] left e' rfl
  obtain ⟨-, hiff, hdisjoint⟩ := hanswers 5
  have htext : 4 ∈ (Visited.none severed).unmarked \ left.unmarked := hlost ▸ by decide
  exact ⟨he, hcall, hlost, hzero 4 htext, hother, hiff.mp ⟨80, hother⟩,
    fun hdue => Finset.disjoint_left.mp hdisjoint hdue htext, by decide +kernel⟩

/-- The set is not what it was before the fault, and neither the text nor the failed root is charged
by a later estimate, though no estimate has charged them. -/
theorem fault_keeps_marks :
    let e := ofOptions {}
    let left := (e.estimateWith severed 0 (.none severed)).2.1
    let e' := (e.estimateWith severed 0 (.none severed)).2.2
    e.Usable ∧ (e.estimateWith severed 0 (.none severed)).1 =
        .error (.unreadableField "ghost" "Owner") ∧
      left ≠ .none severed ∧ severed.Readable 4 ∧
      (e.estimateWith severed 4 (.none severed)).1 = .ok 32 ∧
      (e'.estimateWith severed 4 left).1 = .ok 0 ∧
      (e'.estimateWith severed 0 left).1 = .ok 0 := by
  refine ⟨usable_ofOptions (by decide), by decide +kernel, by decide +kernel, ?_,
    by decide +kernel, by decide +kernel, by decide +kernel⟩
  intro shape references hnode
  cases hnode

end ShuffleBuffer.Estimate.SizeEstimator
