import ShuffleBuffer.Proofs.Admissions
import ShuffleBuffer.Proofs.Lifecycle
import ShuffleBuffer.Proofs.Retries

/-! # What a call makes of a session

There are seven ways in which a session can change in a call. What holds of all its writers, as that
each of them is at a stage of its life, is kept in each of these ways, and so throughout a run. -/

namespace ShuffleBuffer

open Estimate Step

variable {σ α : Type}

namespace Session

open Writer Executor

variable [Measured α] {s : Session σ α} {call : Call σ α} {calls : List (Call σ α)} {name : String}

/-! ## What a call does -/

/-- What becomes of a session in a call. -/
inductive Performs (s : Session σ α) : Call σ α → Session σ α → Prop
  | opened {name : String} {task : TaskId} {edge : Edge} {destination : Destination}
      {p : Partitioner σ α} {w : Writer σ α} {e : Executor α} :
      Writer.make task edge destination p s.executor = (.ok w, e) →
      Opened edge (.of edge.id task) s.executor.account w e.account →
      Performs s (.openWriter name task edge destination p)
        (({ s with executor := e }.dropWriter name).putWriter name w)
  | unopened {name : String} {task : TaskId} {edge : Edge} {destination : Destination}
      {p : Partitioner σ α} {fault : Fault} {e : Executor α} :
      Writer.make task edge destination p s.executor = (.error fault, e) →
      e.account = s.executor.account →
      Performs s (.openWriter name task edge destination p) { s with executor := e }
  | called {name : String} {w : Writer σ α} (c : WriterCall α) : s.writer? name = some w →
      Performs s (c.under name) ({ s with executor := (c.step (w, s.executor)).2.2 }.putWriter name
        (c.step (w, s.executor)).2.1)
  | absent {name : String} (c : WriterCall α) : s.writer? name = none → Performs s (c.under name) s
  | dropped (name : String) : Performs s (.drop name) (s.dropWriter name)
  | removed (id : BlockId) : Performs s (.removeBlock id)
      { s with executor := (Executor.removeBlock id s.executor).2 }
  | disturbed (dir : SpillDir) : Performs s (.disturb dir) { s with
      executor := (Executor.onMedium (Step.modify fun medium => { medium with dir }) s.executor).2 }

theorem perform_under {w : Writer σ α} (hw : s.writer? name = some w) (c : WriterCall α) :
    perform (c.under name) s = ((c.step (w, s.executor)).1,
      { s with executor := (c.step (w, s.executor)).2.2 }.putWriter name
        (c.step (w, s.executor)).2.1) := by
  cases c <;> simp [WriterCall.under, WriterCall.step, perform, callWriter, hw]

theorem perform_under_none (hw : s.writer? name = none) (c : WriterCall α) :
    perform (c.under name) s = (.ok (), s) := by
  cases c <;> simp [WriterCall.under, perform, callWriter, hw]

theorem performs (call : Call σ α) (s : Session σ α) : Performs s call (perform call s).2 := by
  have hcalled : ∀ (name : String) (c : WriterCall α), Performs s (c.under name)
      (perform (c.under name) s).2 := by
    intro name c
    cases hw : s.writer? name with
    | none =>
      rw [perform_under_none hw]
      exact .absent c hw
    | some w =>
      rw [perform_under hw]
      exact .called c hw
  cases call with
  | openWriter name task edge destination p =>
    have hmade := make_opens task edge destination p s.executor rfl
    cases hmake : Writer.make task edge destination p s.executor with
    | mk result e =>
      rw [hmake] at hmade
      cases result with
      | ok w =>
        rw [perform_openWriter hmake]
        exact .opened hmake hmade
      | error fault =>
        simp only [perform, openWriter, bind_apply, onExecutor, within, hmake]
        exact .unopened hmake hmade
  | write name x => exact hcalled name (.write x)
  | close name => exact hcalled name .close
  | drop name => exact .dropped name
  | removeBlock id =>
    rw [perform_removeBlock]
    exact .removed id
  | disturb dir => exact .disturbed dir

/-- A call is seen by the writer that it is about. -/
theorem writer_perform (h : call.writer? ≠ some name) (s : Session σ α) :
    (perform call s).2.writer? name = s.writer? name := by
  have hperforms := performs call s
  generalize (perform call s).2 = s' at hperforms
  cases hperforms with
  | opened =>
    have hne : name ≠ _ := fun hsame => h (congrArg some hsame.symm)
    exact (writer_putWriter_ne _ _ hne).trans (writer_dropWriter_ne _ hne)
  | @called other w c hw =>
    have hne : name ≠ other := fun hsame => h (by cases c <;> exact congrArg some hsame.symm)
    exact writer_putWriter_ne _ _ hne
  | dropped other => exact writer_dropWriter_ne s fun hsame => h (congrArg some hsame.symm)
  | unopened | absent | removed | disturbed => rfl

/-! ## Along runs -/

/-- What runs keep of a session: names stand once, each writer is at one of its stages, and buffers
can be emptied. -/
structure Regular (s : Session σ α) : Prop where
  names : (s.writers.map Prod.fst).Nodup
  stages : s.Each Stage
  usable : s.executor.estimator.Usable

omit [Measured α] in
theorem Regular.start {e : Executor α} (h : e.estimator.Usable) :
    Regular ({ executor := e } : Session σ α) where
  names := List.nodup_nil
  stages := by
    intro name w hw
    cases hw
  usable := h

omit [Measured α] in
/-- Letting a writer go takes its name from the list. -/
theorem writers_dropWriter (s : Session σ α) (name : String) :
    (s.dropWriter name).writers = s.writers.filter (·.1 ≠ name) := by
  unfold dropWriter
  cases hw : s.writer? name with
  | none => exact (filter_of_lookup_none hw).symm
  | some w => rfl

theorem perform_names (h : (s.writers.map Prod.fst).Nodup) (call : Call σ α) :
    ((perform call s).2.writers.map Prod.fst).Nodup := by
  have hperforms := performs call s
  generalize (perform call s).2 = s' at hperforms
  cases hperforms with
  | opened =>
    refine names_replace ?_ _ _
    rw [writers_dropWriter]
    exact names_filter h _
  | called c hw => exact names_replace h _ _
  | dropped name =>
    rw [writers_dropWriter]
    exact names_filter h name
  | unopened | absent | removed | disturbed => exact h

theorem perform_stages (h : s.Each Stage) (call : Call σ α) : (perform call s).2.Each Stage := by
  have hperforms := performs call s
  generalize (perform call s).2 = s' at hperforms
  cases hperforms with
  | @opened name task edge destination p w e _ hopens =>
    have hothers : ({ s with executor := e } : Session σ α).Each Stage := h
    exact (hothers.dropWriter name).putWriter (Stage.of_opened hopens) name
  | @called name w c hw =>
    exact Each.putWriter (s := { s with executor := (c.step (w, s.executor)).2.2 }) h
      (Stage.step (s := (w, s.executor)) (h name w hw) c) name
  | dropped name => exact h.dropWriter name
  | unopened | absent | removed | disturbed => exact h

theorem Regular.perform (h : s.Regular) (call : Call σ α) : (perform call s).2.Regular where
  names := perform_names h.names call
  stages := perform_stages h.stages call
  usable := (perform_fits ⟨h.usable, rfl, rfl⟩ call).usable

theorem Regular.run (h : s.Regular) (calls : List (Call σ α)) : (s.run calls).Regular := by
  induction calls generalizing s with
  | nil => exact h
  | cons call calls ih => exact ih (h.perform call)

/-! ## Buffers -/

omit [Measured α] in
theorem given_cons (name : String) (call : Call σ α) (calls : List (Call σ α)) :
    Call.given name (call :: calls) = Call.given name [call] ++ Call.given name calls := by
  cases call with
  | write other x =>
    simp only [Call.given]
    split <;> rfl
  | openWriter | close | drop | removeBlock | disturb => rfl

/-- A buffer that a call leaves, from the one that it found. -/
theorem step_tracker {w : Writer σ α} {e : Executor α} (h : Stage w) (c : WriterCall α)
    {t' : Tracker α} (ht' : (c.step (w, e)).2.1.tracker = some t') (name : String) :
    ∃ t, w.tracker = some t ∧ (t.Sparse → t'.Sparse) ∧
      t'.elements.toList = t.elements.toList ++ Call.given name [c.under (σ := σ) name] := by
  cases c with
  | write x =>
    have hwrote := (write_stands (w := w) (e := e) x).1
    rw [WriterCall.step] at ht'
    generalize (write x (w, e)).2.1 = w' at hwrote ht'
    cases hwrote with
    | idle hidle =>
      cases h with
      | opened hstate hblock =>
        obtain hclosed | ⟨hempty, -⟩ := hidle
        · exact absurd hstate hclosed
        · cases hempty.symm.trans hblock
      | idle _ _ hnone | stuck _ _ hnone | kept _ _ hnone | spilled _ _ _ hnone =>
        cases hnone.symm.trans ht'
    | @buffered t e hstate ht =>
      cases ht'
      refine ⟨t, ht, fun hsparse => hsparse.append e x, ?_⟩
      rw [Tracker.append_elements, Array.toList_push, WriterCall.under, Call.given, if_pos rfl,
        Call.given]
    | through p hstate hnone => cases hnone.symm.trans ht'
  | close =>
    have hends := close_ends h e
    rw [WriterCall.step] at ht'
    generalize close (w, e) = closed at hends ht'
    cases hends with
    | idle => exact ⟨t', ht', id, (List.append_nil _).symm⟩
    | committed hclosable hcommitted => cases hcommitted.empties.2.symm.trans ht'
    | failed => cases ht'

/-- A buffer that a call leaves is new, or it is one from before with what the call gives it. -/
theorem perform_tracker (h : s.Each Stage) (call : Call σ α) {w' : Writer σ α} {t' : Tracker α}
    (hw' : (perform call s).2.writer? name = some w') (ht' : w'.tracker = some t') :
    (t'.elements = #[] ∧ t'.Sparse) ∨ ∃ w t, s.writer? name = some w ∧ w.tracker = some t ∧
      (t.Sparse → t'.Sparse) ∧
      t'.elements.toList = t.elements.toList ++ Call.given name [call] := by
  have hperforms := performs call s
  generalize (perform call s).2 = s' at hperforms hw'
  have hkept : s.writer? name = some w' → Call.given name [call] = [] →
      ∃ w t, s.writer? name = some w ∧ w.tracker = some t ∧ (t.Sparse → t'.Sparse) ∧
        t'.elements.toList = t.elements.toList ++ Call.given name [call] := fun hw hnone =>
    ⟨w', t', hw, ht', id, by rw [hnone, List.append_nil]⟩
  cases hperforms with
  | @opened other task edge destination p w e _ hopens =>
    by_cases hsame : name = other
    · subst hsame
      cases (writer_putWriter _ _ _).symm.trans hw'
      generalize e.account = a at hopens
      cases hopens with
      | writing _ _ _ _ _ _ _ hempty => exact .inl (hempty t' ht')
      | omitted _ _ _ _ hnone => cases hnone.symm.trans ht'
    · rw [writer_putWriter_ne _ _ hsame, writer_dropWriter_ne _ hsame] at hw'
      exact .inr (hkept hw' rfl)
  | @called other w c hw =>
    by_cases hsame : name = other
    · subst hsame
      cases (writer_putWriter _ _ _).symm.trans hw'
      obtain ⟨t, ht, hstep⟩ := step_tracker (h name w hw) c ht' name
      exact .inr ⟨w, t, hw, ht, hstep⟩
    · rw [writer_putWriter_ne _ _ hsame] at hw'
      refine .inr (hkept hw' ?_)
      cases c with
      | write x => exact if_neg (Ne.symm hsame)
      | close => rfl
  | @absent other c hnone =>
    refine .inr (hkept hw' ?_)
    cases c with
    | write x => exact if_neg fun hsame => by cases (hsame ▸ hnone).symm.trans hw'
    | close => rfl
  | dropped other =>
    refine .inr (hkept ?_ rfl)
    by_cases hsame : name = other
    · rw [hsame, writer_dropWriter] at hw'
      cases hw'
    · exact (writer_dropWriter_ne s hsame).symm.trans hw'
  | unopened | removed | disturbed => exact .inr (hkept hw' rfl)

end Session

end ShuffleBuffer
