import ShuffleBuffer.Element
import ShuffleBuffer.Proofs.Extrapolation

/-! # What a tracker holds between calls

What the estimator sees of an element may change while the element is held, and others estimate with
the same estimator, so every call comes with what it finds. An estimate can fail at any checkpoint,
also for an element that could be read before or can be read later. Then the element has been taken
in and the next checkpoint is set but no sample is kept. Nothing else is left half done. So every
call leaves a tracker with the latest two of its samples, or the first, each of a later update than
the one before, with the rate that these give and with the next checkpoint ahead. An empty tracker
can always be estimated, so a reset never leaves one without a sample. -/

namespace ShuffleBuffer.Estimate

namespace Tracker

variable {α : Type}

/-! ## Calls -/

/-- A call that changes a tracker. -/
inductive Operation (α : Type) where
  | append (x : α)
  | clear
  | takeElements

/-- What a tracker holds after a call, whether the call succeeds or not. -/
def Operation.after (held : List α) : Operation α → List α
  | .append x => held ++ [x]
  | .clear | .takeElements => []

/-- Everything that was appended since the last reset. -/
def sinceReset (ops : List (Operation α)) : List α := ops.foldl Operation.after []

/-- The tracker after a call, whether the call succeeds or not. -/
def perform [Measured α] (t : Tracker α) (e : SizeEstimator) : Operation α → Tracker α
  | .append x => (t.append e x).2.1
  | .clear => (t.clear e).2.1
  | .takeElements => (t.takeElements e).2.1

/-- What a call finds: how the elements can be seen by now, and the estimator. -/
structure Occasion (α : Type) where
  measured : Measured α
  estimator : SizeEstimator

/-- The tracker after a call on some occasion. -/
def Occasion.perform (o : Occasion α) (t : Tracker α) (op : Operation α) : Tracker α :=
  letI := o.measured
  t.perform o.estimator op

/-- What a call returns. A call that hands out nothing answers with no elements. -/
def answer [Measured α] (t : Tracker α) (e : SizeEstimator) :
    Operation α → Except Fault (List α)
  | .append x => (t.append e x).1.map fun _ => []
  | .clear => (t.clear e).1.map fun _ => []
  | .takeElements => (t.takeElements e).1

/-- What a call on some occasion returns. -/
def Occasion.answer (o : Occasion α) (t : Tracker α) (op : Operation α) :
    Except Fault (List α) :=
  letI := o.measured
  Tracker.answer t o.estimator op

/-- The tracker after a sequence of calls, each on an occasion of its own. -/
def run (t : Tracker α) (calls : List (Operation α × Occasion α)) : Tracker α :=
  calls.foldl (fun t call => call.2.perform t call.1) t

section Resets

variable [Measured α] (t : Tracker α) (e : SizeEstimator)

/-- Both resets leave the same. -/
theorem takeElements_left : (t.takeElements e).2 = (t.clear e).2 := by
  rw [takeElements]

/-- A reset goes on from the blank tracker. -/
theorem perform_clear :
    t.perform e .clear = ((blank t.growthRate t.shared).takeSample e).2.1 := by
  rw [perform, clear]

theorem perform_takeElements :
    t.perform e .takeElements = ((blank t.growthRate t.shared).takeSample e).2.1 := by
  rw [perform, takeElements_left, clear]

end Resets

/-! ## Samples -/

theorem latestTwo_sublist : ∀ samples : List Sample, (latestTwo samples).Sublist samples
  | [] => .slnil
  | [_] => .refl _
  | [_, _] => .refl _
  | _ :: b :: c :: rest => (latestTwo_sublist (b :: c :: rest)).cons _

theorem length_latestTwo : ∀ samples : List Sample,
    (latestTwo samples).length = min samples.length 2
  | [] => rfl
  | [_] => rfl
  | [_, _] => rfl
  | _ :: b :: c :: rest => by
    rw [latestTwo, length_latestTwo (b :: c :: rest)]
    simp

/-- The rate is the growth beyond one byte per update. It fits into a word, since the growth does. -/
theorem toNat_rateBetween {oldest newest : Sample}
    (h : oldest.updates.toNat ≤ newest.updates.toNat) :
    ((rateBetween oldest newest).toNat : Int) =
      max 0 ((newest.bytes.toNat - oldest.bytes.toNat : Int) -
        (newest.updates.toNat - oldest.updates.toNat : Int)) := by
  have hbytes := newest.bytes.toNat_lt
  have hfits : ((newest.bytes.toNat - oldest.bytes.toNat : Int) -
      (newest.updates.toNat - oldest.updates.toNat : Int)).toNat < 2 ^ 64 := by omega
  have hword : ∀ n < 2 ^ 64, n.toUInt64.toNat = n :=
    fun n hn => UInt64.toNat_ofNat_of_lt' hn
  rw [rateBetween, hword _ hfits]
  omega

/-- A tracker of these elements that has samples of its first `reached` updates. -/
structure Kept (t : Tracker α) (xs : List α) (reached : Nat) : Prop where
  elements : t.elements.toList = xs
  updates : t.updates.toNat = xs.length + 1
  retained : t.samples.length = min t.samplesTaken.toNat 2
  taken : t.samplesTaken.toNat ≤ reached
  increasing : t.samples.Pairwise (·.updates < ·.updates)
  earlier : ∀ sample ∈ t.samples, sample.updates.toNat ≤ reached
  rate : t.bytesPerUpdate = rateOf t.samples

/-- A tracker between two calls. The count of updates is a word, so no checkpoint is beyond the
largest. -/
structure Settled (t : Tracker α) (xs : List α) : Prop where
  kept : t.Kept xs (xs.length + 1)
  sampled : t.samples ≠ []
  ahead : xs.length + 2 < 2 ^ 64 → xs.length + 1 < t.nextSampleAt.toNat

/-- The tracker with one more sample. -/
def sampled (t : Tracker α) (bytes : UInt64) : Tracker α :=
  let samples := latestTwo (t.samples ++ [⟨bytes, t.updates⟩])
  { t with samples, samplesTaken := t.samplesTaken + 1, bytesPerUpdate := rateOf samples }

/-- The tracker with its next checkpoint set. -/
def scheduled (t : Tracker α) : Tracker α :=
  { t with nextSampleAt := checkpointAfter t.growthRate t.updates }

/-- The next element brings a checkpoint. -/
def due (t : Tracker α) : Bool := t.nextSampleAt ≤ t.updates + 1

/-- The tracker with one more element. -/
def pushed (t : Tracker α) (x : α) : Tracker α :=
  { t with elements := t.elements.push x, updates := t.updates + 1 }

variable {t : Tracker α} {xs : List α}

theorem Kept.scheduled {reached : Nat} (h : t.Kept xs reached) : t.scheduled.Kept xs reached :=
  ⟨h.elements, h.updates, h.retained, h.taken, h.increasing, h.earlier, h.rate⟩

theorem Kept.mono {m n : Nat} (h : t.Kept xs m) (hle : m ≤ n) : t.Kept xs n :=
  { h with
    taken := h.taken.trans hle
    earlier := fun sample hsample => (h.earlier sample hsample).trans hle }

/-- A sample of the latest update is the newest. -/
theorem Kept.sampled (h : t.Kept xs xs.length) (bytes : UInt64) :
    (t.sampled bytes).Kept xs (xs.length + 1) := by
  have htaken : (t.samplesTaken + 1).toNat = t.samplesTaken.toNat + 1 := by
    have hfew := h.taken
    have hword := h.updates ▸ t.updates.toNat_lt
    rw [UInt64.toNat_add, UInt64.toNat_one, Nat.mod_eq_of_lt (by omega)]
  have hall : ∀ sample ∈ t.samples ++ [⟨bytes, t.updates⟩],
      sample.updates.toNat ≤ xs.length + 1 := by
    intro sample hsample
    rcases List.mem_append.mp hsample with hold | hnew
    · exact (h.earlier sample hold).trans (Nat.le_succ _)
    · rw [List.mem_singleton.mp hnew]
      exact Nat.le_of_eq h.updates
  have hincreasing : List.Pairwise (fun a b : Sample => a.updates < b.updates)
      (t.samples ++ [⟨bytes, t.updates⟩]) := by
    rw [List.pairwise_append]
    refine ⟨h.increasing, List.pairwise_singleton _ _, fun sample hold newest hnew => ?_⟩
    rw [List.mem_singleton.mp hnew, UInt64.lt_iff_toNat_lt, h.updates]
    exact Nat.lt_succ_of_le (h.earlier sample hold)
  have hsublist := latestTwo_sublist (t.samples ++ [⟨bytes, t.updates⟩])
  refine ⟨h.elements, h.updates, ?_, ?_, hincreasing.sublist hsublist,
    fun sample hsample => hall sample (hsublist.subset hsample), rfl⟩
  · show (latestTwo (t.samples ++ [⟨bytes, t.updates⟩])).length = min (t.samplesTaken + 1).toNat 2
    rw [length_latestTwo, htaken, List.length_append, List.length_singleton, h.retained]
    omega
  · show (t.samplesTaken + 1).toNat ≤ xs.length + 1
    rw [htaken]
    exact Nat.succ_le_succ h.taken

/-- An element that comes is counted, and the samples are of earlier updates. -/
theorem Kept.pushed (h : t.Kept xs (xs.length + 1)) (hword : xs.length + 2 < 2 ^ 64) (x : α) :
    (t.pushed x).Kept (xs ++ [x]) (xs ++ [x]).length := by
  have hupdates : (t.updates + 1).toNat = xs.length + 2 := by
    rw [UInt64.toNat_add, UInt64.toNat_one, h.updates, Nat.mod_eq_of_lt hword]
  rw [List.length_append, List.length_singleton]
  refine ⟨by simp [Tracker.pushed, h.elements], ?_, h.retained, h.taken, h.increasing, h.earlier,
    h.rate⟩
  rw [List.length_append, List.length_singleton]
  exact hupdates

theorem sampled_samples_ne_nil (t : Tracker α) (bytes : UInt64) :
    (t.sampled bytes).samples ≠ [] := by
  intro hnone
  have hlength := length_latestTwo (t.samples ++ [⟨bytes, t.updates⟩])
  rw [show latestTwo (t.samples ++ [⟨bytes, t.updates⟩]) = [] from hnone] at hlength
  rw [List.length_nil, List.length_append, List.length_singleton] at hlength
  omega

variable [Measured α]

/-- At a checkpoint the next one is set, and where the estimate succeeds a sample is kept. -/
theorem takeSample_cases (t : Tracker α) (e : SizeEstimator) :
    (∃ fault, (t.takeSample e).1 = .error fault ∧ (t.takeSample e).2.1 = t.scheduled) ∨
      ∃ bytes, (t.takeSample e).1 = .ok () ∧ (t.takeSample e).2.1 = t.scheduled.sampled bytes := by
  unfold takeSample
  dsimp only
  split
  · exact .inl ⟨_, rfl, rfl⟩
  · exact .inr ⟨_, rfl, rfl⟩

/-- At a checkpoint an append attempts a full estimate with the new element held. -/
theorem append_of_due (t : Tracker α) (e : SizeEstimator) (x : α) (h : t.due = true) :
    t.append e x = (t.pushed x).takeSample e := if_pos (of_decide_eq_true h)

/-- Between checkpoints it leaves the estimator alone. -/
theorem append_of_not_due (t : Tracker α) (e : SizeEstimator) (x : α) (h : ¬ t.due = true) :
    t.append e x = (.ok (), t.pushed x, e) := if_neg fun hdue => h (decide_eq_true hdue)

omit [Measured α] in
theorem Kept.ahead_scheduled {reached : Nat} (h : t.Kept xs reached)
    (hword : xs.length + 2 < 2 ^ 64) : xs.length + 1 < t.scheduled.nextSampleAt.toNat := by
  have hroom : t.updates.toNat + 1 < 2 ^ 64 := by
    rw [h.updates]
    omega
  have hnext := lt_checkpointAfter t.growthRate hroom
  rwa [h.updates] at hnext

/-- A checkpoint leaves a settled tracker, if there is a sample from before or the estimate
succeeds. -/
theorem Kept.takeSample (h : t.Kept xs xs.length) (e : SizeEstimator)
    (hsample : t.samples ≠ [] ∨ (t.takeSample e).1 = .ok ()) : (t.takeSample e).2.1.Settled xs := by
  rcases takeSample_cases t e with ⟨fault, hfailed, htaken⟩ | ⟨bytes, -, htaken⟩
  · rw [htaken]
    refine ⟨h.scheduled.mono (Nat.le_succ _), ?_, h.ahead_scheduled⟩
    rcases hsample with hbefore | hok
    · exact hbefore
    · rw [hfailed] at hok
      cases hok
  · rw [htaken]
    exact ⟨h.scheduled.sampled bytes, sampled_samples_ne_nil _ bytes, h.ahead_scheduled⟩

/-! ## Calls leave a settled tracker -/

variable {e : SizeEstimator}

omit [Measured α] in
theorem blank_kept (rate : Float) (shared : List Value) : (blank (α := α) rate shared).Kept [] 0 :=
  ⟨rfl, rfl, rfl, Nat.le_refl 0, .nil, nofun, rfl⟩

/-- A reset takes the sample of an empty tracker, which cannot fail. -/
theorem clear_settled (he : e.Usable) (t : Tracker α) : (t.clear e).2.1.Settled [] := by
  rw [clear]
  exact (blank_kept t.growthRate t.shared).takeSample e (.inr (takeSample_blank he _ _))

theorem append_settled (h : t.Settled xs) (hword : xs.length + 2 < 2 ^ 64) (e : SizeEstimator)
    (x : α) : (t.append e x).2.1.Settled (xs ++ [x]) := by
  have hpushed := h.kept.pushed hword x
  by_cases hdue : t.due = true
  · rw [append_of_due t e x hdue]
    exact hpushed.takeSample e (.inl h.sampled)
  · rw [append_of_not_due t e x hdue]
    have hless : (t.pushed x).updates < t.nextSampleAt :=
      UInt64.not_le.mp fun hle => hdue (decide_eq_true hle)
    rw [UInt64.lt_iff_toNat_lt, hpushed.updates] at hless
    exact ⟨hpushed.mono (Nat.le_succ _), h.sampled, fun _ => hless⟩

/-- One call keeps the tracker settled. -/
theorem perform_settled (h : t.Settled xs) (hword : xs.length + 2 < 2 ^ 64) (he : e.Usable)
    (op : Operation α) : (t.perform e op).Settled (op.after xs) := by
  cases op with
  | append x => exact append_settled h hword e x
  | clear => exact clear_settled he t
  | takeElements =>
    rw [perform, takeElements_left]
    exact clear_settled he t

omit [Measured α] in
theorem Operation.length_after_le (op : Operation α) (xs : List α) :
    (op.after xs).length ≤ xs.length + 1 := by
  cases op with
  | append x => simp [after]
  | clear => simp [after]
  | takeElements => simp [after]

omit [Measured α] in
theorem Operation.length_foldl_after_le (ops : List (Operation α)) (xs : List α) :
    (ops.foldl Operation.after xs).length ≤ xs.length + ops.length := by
  induction ops generalizing xs with
  | nil => exact Nat.le_refl _
  | cons op rest ih =>
    have hrest := ih (op.after xs)
    have hafter := op.length_after_le xs
    rw [List.foldl_cons, List.length_cons]
    omega

omit [Measured α] in
/-- So does any sequence of calls that fits into the count of updates, whatever they find. -/
theorem run_settled (calls : List (Operation α × Occasion α)) (h : t.Settled xs)
    (hword : xs.length + calls.length + 1 < 2 ^ 64)
    (hestimators : ∀ call ∈ calls, call.2.estimator.Usable) :
    (t.run calls).Settled ((calls.map Prod.fst).foldl Operation.after xs) := by
  induction calls generalizing t xs with
  | nil => exact h
  | cons call rest ih =>
    let measured := call.2.measured
    rw [List.length_cons] at hword
    have hafter := Operation.length_after_le call.1 xs
    have hnext := perform_settled h (by omega) (hestimators call List.mem_cons_self) call.1
    exact ih hnext (by omega) fun other hother =>
      hestimators other (List.mem_cons_of_mem call hother)

/-- A new tracker is settled. -/
theorem make_settled {options : TrackerOptions} (ho : options.validate = .ok ()) (he : e.Usable)
    (shared : List Value) :
    ∃ t e', Tracker.make (α := α) options e shared = (.ok t, e') ∧ t.Settled [] := by
  refine ⟨_, _, make_eq ho he shared, ?_⟩
  exact (blank_kept options.growthRate shared).takeSample e (.inr (takeSample_blank he _ _))

/-! ## What can be seen of a settled tracker -/

omit [Measured α] in
/-- The rate is that between the oldest sample and the newest, and the newest is of an update that
has been made. -/
theorem Settled.samples (h : t.Settled xs) :
    ∃ oldest newest, t.samples.head? = some oldest ∧ t.samples.getLast? = some newest ∧
      newest.updates ≤ t.updates ∧
      (t.bytesPerUpdate.toNat : Int) =
        max 0 ((newest.bytes.toNat - oldest.bytes.toNat : Int) -
          (newest.updates.toNat - oldest.updates.toNat : Int)) := by
  obtain ⟨oldest, rest, hsamples⟩ := List.exists_cons_of_ne_nil h.sampled
  have hearlier := h.kept.earlier
  have hincreasing := h.kept.increasing
  have hrate := h.kept.rate
  rw [hsamples] at hearlier hincreasing hrate ⊢
  have hnewest := List.getLast_mem (List.cons_ne_nil oldest rest)
  refine ⟨oldest, (oldest :: rest).getLast (by simp), rfl, List.getLast?_eq_some_getLast _, ?_, ?_⟩
  · rw [UInt64.le_iff_toNat_le, h.kept.updates]
    exact hearlier _ hnewest
  · rw [hrate]
    refine toNat_rateBetween ?_
    rcases List.mem_cons.mp hnewest with hsame | hlater
    · rw [hsame]
    · exact Nat.le_of_lt (UInt64.lt_iff_toNat_lt.mp ((List.pairwise_cons.mp hincreasing).1 _ hlater))

/-- Between the calls of any sequence that fits into the count of updates, whichever estimates
fail, a tracker holds the latest two of the samples it has taken, or the first. The newest is of
an update up to the count and the next checkpoint lies beyond, so the updates since the newest can
be counted. The rate is what the samples give, and every element since the last reset is held,
those whose append has failed too. What one call cannot read the next may read, and the other way
round. The count of updates is a word: when it is the largest word after the last call, no
checkpoint can lie beyond it. -/
theorem settled_between_calls {options : TrackerOptions} (ho : options.validate = .ok ())
    (he : e.Usable) (shared : List Value) (calls : List (Operation α × Occasion α))
    (hfew : calls.length < 2 ^ 64 - 1) (hestimators : ∀ call ∈ calls, call.2.estimator.Usable) :
    ∃ made e', Tracker.make options e shared = (.ok made, e') ∧
      ∀ before after, calls = before ++ after →
        let t : Tracker α := made.run before
        let n := t.size + 1
        ∃ oldest newest, t.samples.head? = some oldest ∧ t.samples.getLast? = some newest ∧
          t.samples.length = min t.samplesTaken.toNat 2 ∧
          t.samples.Pairwise (·.updates < ·.updates) ∧
          t.updates.toNat = n ∧ newest.updates.toNat ≤ n ∧
          (t.updates - newest.updates).toNat = n - newest.updates.toNat ∧
          (after ≠ [] ∨ calls.length + 2 < 2 ^ 64 → n < t.nextSampleAt.toNat) ∧
          (t.bytesPerUpdate.toNat : Int) =
            max 0 ((newest.bytes.toNat - oldest.bytes.toNat : Int) -
              (newest.updates.toNat - oldest.updates.toNat : Int)) ∧
          t.elements.toList = sinceReset (before.map Prod.fst) := by
  obtain ⟨made, e', hmade, hsettled⟩ := make_settled (α := α) ho he shared
  refine ⟨made, e', hmade, fun before after hsplit => ?_⟩
  intro t n
  have hlength : calls.length = before.length + after.length := by
    rw [hsplit, List.length_append]
  have h : t.Settled (sinceReset (before.map Prod.fst)) :=
    run_settled before hsettled (by rw [List.length_nil]; omega) fun call hcall =>
      hestimators call (hsplit ▸ List.mem_append_left after hcall)
  have hsize : n = (sinceReset (before.map Prod.fst)).length + 1 := by
    show t.elements.size + 1 = _
    rw [← h.kept.elements, Array.length_toList]
  have hupdates : t.updates.toNat = n := h.kept.updates.trans hsize.symm
  obtain ⟨oldest, newest, holdest, hnewest, hreached, hrate⟩ := h.samples
  have hcount : newest.updates.toNat ≤ n := hupdates ▸ UInt64.le_iff_toNat_le.mp hreached
  refine ⟨oldest, newest, holdest, hnewest, h.kept.retained, h.kept.increasing, hupdates, hcount,
    ?_, fun hafter => ?_, hrate, h.kept.elements⟩
  · rw [UInt64.toNat_sub_of_le _ _ hreached, hupdates]
  · have hbound := Operation.length_foldl_after_le (before.map Prod.fst) []
    rw [List.length_nil, List.length_map] at hbound
    have hroom : before.length + 2 < 2 ^ 64 := by
      rcases hafter with hmore | hroom
      · have hone := List.length_pos_iff.mpr hmore
        omega
      · omega
    rw [hsize]
    refine h.ahead ?_
    rw [sinceReset]
    omega

/-- Three numbers, and the second call cannot read what is held: its append fails at a checkpoint,
the number stays, and the third call reads it again and takes a sample. Only the reset lets them
go. -/
theorem settled_between_calls_unreadable :
    let hidden : Value := .object (.root (.declared 0) "Row" [⟨"key", .reference⟩]) [] []
    let e := SizeEstimator.ofOptions {}
    let readable : Occasion UInt64 := ⟨inferInstance, e⟩
    let unreadable : Occasion UInt64 := ⟨⟨fun _ => hidden⟩, e⟩
    let calls : List (Operation UInt64 × Occasion UInt64) :=
      [(.append 7, readable), (.append 8, unreadable), (.append 9, readable),
        (.takeElements, unreadable)]
    ({} : TrackerOptions).validate = .ok () ∧ e.Usable ∧ calls.length < 2 ^ 64 - 1 ∧
    (Tracker.make {} e).1.map (fun made : Tracker UInt64 =>
      (unreadable.answer (made.run (calls.take 1)) (.append 8),
        readable.answer (made.run (calls.take 2)) (.append 9),
        (made.run (calls.take 3)).samplesTaken)) =
      .ok (.error (.unreadableField "key" "Row"), .ok [], 3) ∧
    ∃ made e', Tracker.make {} e = (.ok made, e') ∧
      let t : Tracker UInt64 := made.run (calls.take 3)
      ∃ oldest newest, t.samples.head? = some oldest ∧ t.samples.getLast? = some newest ∧
        t.samples.length = 2 ∧ newest.updates.toNat ≤ 4 ∧ 4 < t.nextSampleAt.toNat ∧
        (t.bytesPerUpdate.toNat : Int) =
          max 0 ((newest.bytes.toNat - oldest.bytes.toNat : Int) -
            (newest.updates.toNat - oldest.updates.toNat : Int)) ∧
        t.elements.toList = [7, 8, 9] := by
  intro hidden e readable unreadable calls
  have hvalid : ({} : TrackerOptions).validate = .ok () := by decide +kernel
  have he : e.Usable := SizeEstimator.usable_ofOptions (by decide)
  have hcalls : ∀ call ∈ calls, call.2.estimator.Usable := by
    intro call hcall
    have hsame : call.2.estimator = e := by
      simp only [calls, List.mem_cons, List.not_mem_nil, or_false] at hcall
      rcases hcall with rfl | rfl | rfl | rfl <;> rfl
    rwa [hsame]
  have hseen : (Tracker.make {} e).1.map (fun made : Tracker UInt64 =>
      (unreadable.answer (made.run (calls.take 1)) (.append 8),
        readable.answer (made.run (calls.take 2)) (.append 9),
        (made.run (calls.take 3)).samplesTaken)) =
      .ok (.error (.unreadableField "key" "Row"), .ok [], 3) := by
    decide +kernel
  refine ⟨hvalid, he, by decide, hseen, ?_⟩
  obtain ⟨made, e', hmade, hbetween⟩ :=
    settled_between_calls hvalid he [] calls (by decide) hcalls
  obtain ⟨oldest, newest, holdest, hnewest, hretained, -, hupdates, hcount, -, hahead, hrate,
    helements⟩ := hbetween (calls.take 3) (calls.drop 3) (List.take_append_drop 3 calls).symm
  have hsize : (made.run (calls.take 3)).size = 3 := by
    rw [size, ← Array.length_toList, helements]
    rfl
  have htaken : (made.run (calls.take 3)).samplesTaken = 3 := by
    rw [hmade] at hseen
    exact congrArg (·.2.2) (Except.ok.inj hseen)
  rw [hsize] at hcount hahead
  rw [htaken] at hretained
  exact ⟨made, e', hmade, oldest, newest, holdest, hnewest, hretained, hcount,
    hahead (.inl (List.cons_ne_nil _ _)), hrate, helements⟩

end Tracker

end ShuffleBuffer.Estimate
