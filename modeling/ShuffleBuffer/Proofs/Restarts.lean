import ShuffleBuffer.Proofs.Checkpoints
import ShuffleBuffer.Proofs.Twins

/-! # A reset tracker starts anew

Whatever its calls have found, a tracker keeps its growth rate and the values that its elements
share. A reset reads nothing else of it, so what it leaves is a new tracker, and no later call tells
the two apart. -/

namespace ShuffleBuffer.Estimate

namespace Tracker

variable {α : Type}

/-! ## Conversations -/

/-- The tracker after a checkpoint on some occasion. -/
def Occasion.takeSample (o : Occasion α) (t : Tracker α) : Tracker α :=
  letI := o.measured
  (t.takeSample o.estimator).2.1

/-- Everything that a sequence of calls returns, and the tracker after it. -/
def converse (t : Tracker α) :
    List (Operation α × Occasion α) → List (Except Fault (List α)) × Tracker α
  | [] => ([], t)
  | (op, o) :: rest =>
      let (answers, last) := (o.perform t op).converse rest
      (o.answer t op :: answers, last)

/-- A tracker that comes up with these elements since the last reset. The estimators that its calls
have found are arbitrary, and so are the estimates that have failed. -/
inductive Reached (options : TrackerOptions) (shared : List Value) :
    List α → Tracker α → Prop
  | made (measured : Measured α) {e e' : SizeEstimator} {t : Tracker α} :
      Tracker.make options e shared = (.ok t, e') → Reached options shared [] t
  | performed (o : Occasion α) (op : Operation α) {xs : List α} {t : Tracker α} :
      Reached options shared xs t → Reached options shared (op.after xs) (o.perform t op)

variable {options : TrackerOptions} {shared : List Value} {xs : List α} {t : Tracker α}

/-! ## What a tracker keeps for good -/

section Kept

variable [Measured α] (t : Tracker α) (e : SizeEstimator)

/-- What a sample leaves alone, a checkpoint leaves as it is with the next one set. -/
theorem takeSample_untouched {β : Type} (f : Tracker α → β)
    (hf : ∀ (t : Tracker α) bytes, f (t.sampled bytes) = f t) :
    f (t.takeSample e).2.1 = f t.scheduled := by
  rcases takeSample_cases t e with ⟨fault, -, htaken⟩ | ⟨bytes, -, htaken⟩
  · rw [htaken]
  · rw [htaken, hf]

theorem takeSample_growthRate : (t.takeSample e).2.1.growthRate = t.growthRate :=
  takeSample_untouched t e (·.growthRate) fun _ _ => rfl

theorem takeSample_shared : (t.takeSample e).2.1.shared = t.shared :=
  takeSample_untouched t e (·.shared) fun _ _ => rfl

theorem takeSample_updates : (t.takeSample e).2.1.updates = t.updates :=
  takeSample_untouched t e (·.updates) fun _ _ => rfl

theorem takeSample_nextSampleAt :
    (t.takeSample e).2.1.nextSampleAt = checkpointAfter t.growthRate t.updates :=
  takeSample_untouched t e (·.nextSampleAt) fun _ _ => rfl

theorem perform_keeps (op : Operation α) :
    (t.perform e op).growthRate = t.growthRate ∧ (t.perform e op).shared = t.shared := by
  cases op with
  | append x =>
    by_cases hdue : t.due = true
    · rw [perform, append_of_due t e x hdue, takeSample_growthRate, takeSample_shared]
      exact ⟨rfl, rfl⟩
    · rw [perform, append_of_not_due t e x hdue]
      exact ⟨rfl, rfl⟩
  | clear =>
    rw [perform_clear, takeSample_growthRate, takeSample_shared]
    exact ⟨rfl, rfl⟩
  | takeElements =>
    rw [perform_takeElements, takeSample_growthRate, takeSample_shared]
    exact ⟨rfl, rfl⟩

theorem perform_elements (op : Operation α) :
    (t.perform e op).elements.toList = op.after t.elements.toList := by
  cases op with
  | append x => simp [perform, append_elements, Operation.after]
  | clear =>
    rw [perform_clear, takeSample_elements]
    rfl
  | takeElements =>
    rw [perform_takeElements, takeSample_elements]
    rfl

end Kept

theorem Reached.elements (h : Reached options shared xs t) : t.elements.toList = xs := by
  induction h with
  | made measured hmade =>
    rw [eq_of_make hmade, takeSample_elements]
    rfl
  | performed o op _ ih =>
    let measured := o.measured
    rw [← ih]
    exact perform_elements _ o.estimator op

/-- The growth rate and the shared values are those that the tracker was made with. -/
theorem Reached.keeps (h : Reached options shared xs t) :
    t.growthRate = options.growthRate ∧ t.shared = shared := by
  induction h with
  | made measured hmade =>
    rw [eq_of_make hmade, takeSample_growthRate, takeSample_shared]
    exact ⟨rfl, rfl⟩
  | performed o op _ ih =>
    let measured := o.measured
    rw [← ih.1, ← ih.2]
    exact perform_keeps _ o.estimator op

/-- Only a tracker of valid options is ever made. -/
theorem Reached.valid (h : Reached options shared xs t) : options.validate = .ok () := by
  induction h with
  | made measured hmade =>
    unfold make at hmade
    split at hmade
    · cases hmade
    · next hvalid => exact hvalid
  | performed _ _ _ ih => exact ih

/-- Two occasions that look the same: the elements do, and the estimators have the same options. -/
structure Occasion.Alike (o o' : Occasion α) : Prop where
  measured : o'.measured = o.measured
  estimator : o.estimator.Matched o'.estimator

/-- The same calls on occasions that look the same. -/
def AlikeCalls : List (Operation α × Occasion α) → List (Operation α × Occasion α) → Prop :=
  List.Forall₂ fun call call' => call'.1 = call.1 ∧ call.2.Alike call'.2

section Congr

variable [Measured α] {e e' : SizeEstimator} (t : Tracker α)

theorem clear_congr (h : e.Matched e') :
    (t.clear e').1 = (t.clear e).1 ∧ (t.clear e').2.1 = (t.clear e).2.1 := by
  rw [clear, clear]
  exact takeSample_congr _ h

theorem answer_congr (h : e.Matched e') (op : Operation α) :
    Tracker.answer t e' op = Tracker.answer t e op := by
  cases op with
  | append x => rw [answer, answer, (append_congr t x h).1]
  | clear => rw [answer, answer, (clear_congr t h).1]
  | takeElements => exact takeElements_congr t h

theorem perform_congr (h : e.Matched e') (op : Operation α) :
    t.perform e' op = t.perform e op := by
  cases op with
  | append x => exact (append_congr t x h).2
  | clear => exact (clear_congr t h).2
  | takeElements =>
    rw [perform, perform, takeElements_left, takeElements_left]
    exact (clear_congr t h).2

end Congr

/-- On occasions that look the same, calls return the same and leave the same tracker. -/
theorem converse_congr {calls calls' : List (Operation α × Occasion α)}
    (h : AlikeCalls calls calls') (t : Tracker α) : t.converse calls' = t.converse calls := by
  induction h generalizing t with
  | nil => rfl
  | @cons call call' rest rest' hcall _ ih =>
    obtain ⟨op, o⟩ := call
    obtain ⟨op', measured, estimator⟩ := call'
    obtain ⟨hop, hmeasured, hestimator⟩ := hcall
    dsimp only at hop hmeasured hestimator
    subst hop hmeasured
    have hperform : Occasion.perform ⟨o.measured, estimator⟩ t op' = o.perform t op' :=
      letI := o.measured
      perform_congr t hestimator op'
    have hanswer : Occasion.answer ⟨o.measured, estimator⟩ t op' = o.answer t op' :=
      letI := o.measured
      answer_congr t hestimator op'
    rw [converse, converse, hperform, hanswer, ih]

/-! ## Resets -/

section Resets

variable [Measured α] {e e' : SizeEstimator}

/-- Making a tracker leaves an estimator of the same options. -/
theorem matched_of_make (he : e.Usable) (h : Tracker.make options e shared = (.ok t, e')) :
    e.Matched e' := by
  refine SizeEstimator.Matched.after ⟨he, he, rfl⟩ (.inl rfl) (.inr ?_)
  obtain ⟨g, root, hestimate⟩ :=
    takeSample_estimator (blank (α := α) options.growthRate shared) e
  rw [takeSample_of_make h] at hestimate
  exact ⟨g, root, hestimate⟩

/-- Whatever a tracker has been through, it can be cleared and its elements can be taken out: all
that were appended since the last reset, in the order of their appends, those whose append has
failed too. What is left is the tracker that is made anew with an estimator of the same options, so
nothing that can be seen of it differs, and neither does anything that later calls return. -/
theorem Reached.reset_eq_fresh (h : Reached options shared xs t) (he : e.Matched e') :
    (t.clear e).1 = .ok () ∧ (t.takeElements e).1 = .ok xs ∧
      (t.takeElements e).2 = (t.clear e).2 ∧
      ∃ fresh estimator, Tracker.make options e' shared = (.ok fresh, estimator) ∧
        (t.clear e).2.1 = fresh ∧ (t.clear e).2.2.Matched estimator ∧
        ∀ calls calls', AlikeCalls calls calls' →
          (t.clear e).2.1.converse calls = fresh.converse calls' := by
  have hclear : t.clear e = (blank options.growthRate shared).takeSample e := by
    rw [clear, h.keeps.1, h.keeps.2]
  have hfresh := (takeSample_congr (blank (α := α) options.growthRate shared) he).2
  refine ⟨takeSample_blank he.usable _ _, ?_, takeElements_left t e, _, _,
    make_eq h.valid he.usable' shared, ?_, ?_, fun calls calls' hcalls => ?_⟩
  · rw [takeElements_ok he.usable t, h.elements]
  · rw [hclear, hfresh]
  · rw [hclear]
    exact he.after (.inr (takeSample_estimator _ e)) (.inr (takeSample_estimator _ e'))
  · rw [hclear, hfresh, converse_congr hcalls]

end Resets

/-- A text and a record whose member cannot be read. The append of the record fails, the record is
handed out nevertheless, and then the tracker goes on as a new one does, with the record again. -/
theorem reset_eq_fresh_unreadable :
    let hidden : Value := .object (.root (.declared 0) "Row" [⟨"key", .reference⟩]) [] []
    let e := SizeEstimator.ofOptions {}
    let o : Occasion Value := ⟨inferInstance, e⟩
    ∃ made e₁, Tracker.make (α := Value) {} e = (.ok made, e₁) ∧
      let held := o.perform made (.append (.text 5))
      let t := o.perform held (.append hidden)
      (held.append e hidden).1 = .error (.unreadableField "key" "Row") ∧
      (t.clear e).1 = .ok () ∧ (t.takeElements e).1 = .ok [.text 5, hidden] ∧
      (t.takeElements e).2 = (t.clear e).2 ∧
      ∃ fresh estimator, Tracker.make {} e₁ = (.ok fresh, estimator) ∧
        (t.clear e).2.1.converse [(.append hidden, o), (.takeElements, ⟨inferInstance, e₁⟩)] =
          fresh.converse [(.append hidden, o), (.takeElements, o)] := by
  intro hidden e o
  have hvalid : ({} : TrackerOptions).validate = .ok () := by decide +kernel
  have he : e.Usable := SizeEstimator.usable_ofOptions (by decide)
  have hmade := make_eq (α := Value) hvalid he []
  have hsame := matched_of_make he hmade
  refine ⟨_, _, hmade, ?_⟩
  intro held t
  have hreached : Reached {} [] [.text 5, hidden] t :=
    .performed o (.append hidden) (.performed o (.append (.text 5)) (.made inferInstance hmade))
  obtain ⟨hclear, htaken, hleft, fresh, estimator, hfresh, -, -, hlater⟩ :=
    hreached.reset_eq_fresh hsame
  have hfailed : (held.append e hidden).1 = .error (.unreadableField "key" "Row") := by
    decide +kernel
  refine ⟨hfailed, hclear, htaken, hleft, fresh, estimator, hfresh, hlater _ _ ?_⟩
  exact .cons ⟨rfl, rfl, ⟨he, he, rfl⟩⟩ (.cons ⟨rfl, rfl, hsame.symm⟩ .nil)

end Tracker

end ShuffleBuffer.Estimate
