import ShuffleBuffer.Proofs.Callers

/-! # Closes that are refused

What a close has to know of an edge is asked in order, the persistence first, then the pattern, then
the number of destination tasks where the pattern needs it. If some of it is missing, the close
fails before it has touched anything. Nothing that can be called later makes up for it, so every
close of the writer fails alike, and a run goes as it would go without these closes: whatever the
other calls answer and leave, on this writer or another, they would answer and leave anyway. -/

namespace ShuffleBuffer

open Estimate Step

variable {σ α : Type}

/-! ## What is missing -/

/-- What is missing of the number of destination tasks, if anything. -/
def Destination.deficit (destination : Destination) (edge : Edge) : Option Fault :=
  match destination.parallelism with
  | none => some (.missingProperty .destinationParallelism edge.id)
  | some tasks => if tasks = 0 then some (.invalid .noParallelism) else none

theorem Destination.requiredParallelism_of_deficit {destination : Destination} {edge : Edge}
    {fault : Fault} (h : destination.deficit edge = some fault) :
    destination.requiredParallelism edge = .error fault := by
  unfold deficit at h
  unfold requiredParallelism
  cases hparallelism : destination.parallelism with
  | none =>
    rw [hparallelism] at h
    exact congrArg Except.error (Option.some.inj h)
  | some tasks =>
    rw [hparallelism] at h
    by_cases hnone : tasks = 0
    · subst hnone
      exact congrArg Except.error (Option.some.inj h)
    · simp [hnone] at h

namespace Edge

/-- The first thing that a close asks for in vain, if any. -/
def deficit (edge : Edge) (destination : Destination) : Option Fault :=
  match edge.persistence, edge.pattern with
  | none, _ => some (.missingProperty .dataPersistence edge.id)
  | some _, none => some (.missingProperty .communicationPattern edge.id)
  | some _, some .oneToOne => none
  | some _, some .broadcast | some _, some .shuffle => destination.deficit edge

variable {edge : Edge} {destination : Destination} {fault : Fault}

/-- Something is missing where the persistence or the pattern is, or the pattern needs a number of
destination tasks and there is none. -/
theorem exists_deficit (h : edge.persistence = none ∨ edge.pattern = none ∨
    (edge.pattern = some .broadcast ∨ edge.pattern = some .shuffle) ∧
      (destination.parallelism = none ∨ destination.parallelism = some 0)) :
    ∃ fault, edge.deficit destination = some fault := by
  unfold deficit
  cases hpersistence : edge.persistence with
  | none => exact ⟨_, rfl⟩
  | some persistence =>
    rcases h with hnone | hnone | ⟨hpattern, htasks⟩
    · simp [hpersistence] at hnone
    · simp [hnone]
    · have htasks : ∃ fault, destination.deficit edge = some fault := by
        rcases htasks with htasks | htasks
        · simp [Destination.deficit, htasks]
        · simp [Destination.deficit, htasks]
      rcases hpattern with hpattern | hpattern
      · simpa only [hpattern] using htasks
      · simpa only [hpattern] using htasks

/-- Either the persistence is asked for in vain, or what the expected reads need. -/
theorem asked_in_vain (h : edge.deficit destination = some fault) :
    edge.requiredPersistence = .error fault ∨
      ∃ persistence, edge.requiredPersistence = .ok persistence ∧
        destination.expectedReads edge = .error fault := by
  unfold deficit at h
  cases hpersistence : edge.persistence with
  | none =>
    rw [hpersistence] at h
    cases h
    exact .inl (by rw [requiredPersistence, hpersistence, require])
  | some persistence =>
    rw [hpersistence] at h
    refine .inr ⟨persistence, by rw [requiredPersistence, hpersistence, require], ?_⟩
    unfold Destination.expectedReads
    rw [requiredPattern]
    cases hpattern : edge.pattern with
    | none =>
      rw [hpattern] at h
      cases h
      rfl
    | some pattern =>
      rw [hpattern] at h
      cases pattern with
      | oneToOne => cases h
      | broadcast | shuffle =>
        simp only [require, Destination.requiredParallelism_of_deficit h]
        rfl

end Edge

/-! ## Closes of such a writer -/

namespace Writer

/-- An open writer that misses something for a close. -/
structure Lacks (w : Writer σ α) (fault : Fault) : Prop where
  state : w.state = .writing
  deficit : w.edge.deficit w.destination = some fault

variable [Measured α] {w : Writer σ α} {fault : Fault}

/-- Its close is refused and touches nothing. -/
theorem Lacks.close (h : w.Lacks fault) (e : Executor α) :
    Writer.close (w, e) = (.error fault, (w, e)) := by
  unfold Writer.close
  rcases Edge.asked_in_vain h.deficit with hpersistence | ⟨persistence, hpersistence, hreads⟩
  · simp only [bind_apply, Step.read, h.state, Step.ofExcept, hpersistence]
  · simp only [bind_apply, Step.read, h.state, Step.ofExcept, hpersistence, expectedReads, hreads]

/-- A write does not make up for it. -/
theorem Lacks.step (h : w.Lacks fault) (call : WriterCall α) (e : Executor α) :
    (call.step (w, e)).2.1.Lacks fault := by
  cases call with
  | write x =>
    have halike := (write_stands (w := w) (e := e) x).1.alike
    refine ⟨halike.state.trans h.state, ?_⟩
    rw [WriterCall.step, halike.edge, halike.destination]
    exact h.deficit
  | close =>
    rw [WriterCall.step, h.close e]
    exact h

end Writer

/-! ## Sessions that look the same -/

/-- The call closes the writer of this name. -/
def Call.closesWriter (name : String) : Call σ α → Bool
  | .close other => other = name
  | _ => false

namespace Session

/-- Sessions that no call tells apart: one executor, and the same under every name. -/
structure Indistinct (s s' : Session σ α) : Prop where
  executor : s'.executor = s.executor
  writers : ∀ name, s'.writer? name = s.writer? name
  blocks : s'.blocks = s.blocks

variable {s s' : Session σ α}

theorem Indistinct.refl (s : Session σ α) : Indistinct s s := ⟨rfl, fun _ => rfl, rfl⟩

theorem Indistinct.symm (h : Indistinct s s') : Indistinct s' s :=
  ⟨h.executor.symm, fun name => (h.writers name).symm, h.blocks.symm⟩

theorem Indistinct.trans {s'' : Session σ α} (h : Indistinct s s') (h' : Indistinct s' s'') :
    Indistinct s s'' :=
  ⟨h'.executor.trans h.executor, fun name => (h'.writers name).trans (h.writers name),
    h'.blocks.trans h.blocks⟩

theorem Indistinct.onExecutor (h : Indistinct s s') (e : Executor α) :
    Indistinct { s with executor := e } { s' with executor := e } :=
  ⟨rfl, h.writers, h.blocks⟩

theorem Indistinct.putWriter (h : Indistinct s s') (name : String) (w : Writer σ α) :
    Indistinct (s.putWriter name w) (s'.putWriter name w) := by
  refine ⟨h.executor, fun other => ?_, h.blocks⟩
  by_cases hsame : other = name
  · rw [hsame, writer_putWriter, writer_putWriter]
  · rw [writer_putWriter_ne _ _ hsame, writer_putWriter_ne _ _ hsame, h.writers]

theorem Indistinct.dropWriter (h : Indistinct s s') (name : String) :
    Indistinct (s.dropWriter name) (s'.dropWriter name) := by
  refine ⟨?_, fun other => ?_, ?_⟩
  · unfold Session.dropWriter
    rw [h.writers]
    cases s.writer? name with
    | none => exact h.executor
    | some w => simp only [h.executor]
  · by_cases hsame : other = name
    · rw [hsame, writer_dropWriter, writer_dropWriter]
    · rw [writer_dropWriter_ne _ hsame, writer_dropWriter_ne _ hsame, h.writers]
  · unfold Session.dropWriter
    rw [h.writers]
    cases s.writer? name with
    | none => exact h.blocks
    | some w => exact h.blocks

/-- A writer that is put where it is already is not seen to be put. -/
theorem Indistinct.put_back {name : String} {w : Writer σ α} (hw : s.writer? name = some w) :
    Indistinct s (s.putWriter name w) := by
  refine ⟨rfl, fun other => ?_, rfl⟩
  by_cases hsame : other = name
  · rw [hsame, writer_putWriter, hw]
  · exact writer_putWriter_ne _ _ hsame

/-! ## Calls on sessions that look the same -/

variable [Measured α]

/-- A call answers alike, and the sessions that it leaves look the same again. -/
theorem Indistinct.perform (h : Indistinct s s') (call : Call σ α) :
    (perform call s').1 = (perform call s).1 ∧
      Indistinct (Session.perform call s).2 (Session.perform call s').2 := by
  obtain ⟨e, ws, bs⟩ := s'
  obtain rfl : e = s.executor := h.executor
  have hcalled : ∀ (name : String) (c : WriterCall α),
      (Session.perform (c.under name) (⟨s.executor, ws, bs⟩ : Session σ α)).1 =
          (Session.perform (c.under name) s).1 ∧
        Indistinct (Session.perform (c.under name) s).2
          (Session.perform (c.under name) (⟨s.executor, ws, bs⟩ : Session σ α)).2 := by
    intro name c
    cases hw : s.writer? name with
    | none =>
      rw [perform_under_none hw, perform_under_none ((h.writers name).trans hw)]
      exact ⟨rfl, h⟩
    | some w =>
      rw [perform_under hw, perform_under ((h.writers name).trans hw)]
      exact ⟨rfl, (h.onExecutor _).putWriter name _⟩
  cases call with
  | openWriter name task edge destination p =>
    simp only [Session.perform, openWriter, bind_apply, Session.onExecutor, within]
    generalize Writer.make task edge destination p s.executor = made
    obtain ⟨result, e⟩ := made
    cases result with
    | error fault => exact ⟨rfl, h.onExecutor e⟩
    | ok w => exact ⟨rfl, ((h.onExecutor e).dropWriter name).putWriter name w⟩
  | write name x => exact hcalled name (.write x)
  | close name => exact hcalled name .close
  | drop name => exact ⟨rfl, h.dropWriter name⟩
  | removeBlock id =>
    simp only [Session.perform, bind_apply, Session.onExecutor, within]
    generalize Executor.removeBlock id s.executor = removed
    obtain ⟨result, e⟩ := removed
    cases result with
    | error fault => exact ⟨rfl, h.onExecutor e⟩
    | ok _ => exact ⟨rfl, h.onExecutor e⟩
  | disturb dir => exact ⟨rfl, h.onExecutor _⟩

/-- The calls of a run, each with what it answers. -/
def answered : Session σ α → List (Call σ α) → List (Call σ α × Except Fault Unit)
  | _, [] => []
  | s, call :: calls => (call, (perform call s).1) :: answered (perform call s).2 calls

/-! ## Runs without the closes that are refused -/

/-- The writer of this name misses something for a close. -/
def LacksAt (name : String) (fault : Fault) (s : Session σ α) : Prop :=
  ∃ w, s.writer? name = some w ∧ w.Lacks fault

variable {name : String} {fault : Fault} {call : Call σ α}

theorem LacksAt.close (h : s.LacksAt name fault) :
    (perform (.close name) s).1 = .error fault ∧
      Indistinct s (Session.perform (.close name) s).2 := by
  obtain ⟨w, hw, hlacks⟩ := h
  rw [perform_close hw, hlacks.close s.executor]
  exact ⟨rfl, .put_back hw⟩

/-- The calls on the writer, and those that are not about it, leave it as lacking as it was. -/
theorem LacksAt.perform (h : s.LacksAt name fault)
    (hcall : call.writer? = some name → ∃ c : WriterCall α, call = c.under name) :
    (Session.perform call s).2.LacksAt name fault := by
  obtain ⟨w, hw, hlacks⟩ := h
  by_cases hmine : call.writer? = some name
  · obtain ⟨c, rfl⟩ := hcall hmine
    rw [perform_under hw]
    exact ⟨_, writer_putWriter _ _ _, hlacks.step c s.executor⟩
  · exact ⟨w, (writer_perform hmine s).trans hw, hlacks⟩

omit [Measured α] in
theorem closesWriter_iff (name : String) (call : Call σ α) :
    call.closesWriter name = true ↔ call = .close name := by
  cases call <;> simp [Call.closesWriter]

/-- Next to a session that looks the same, a run goes as without the closes. -/
theorem LacksAt.run_without {calls : List (Call σ α)} (h : s.LacksAt name fault)
    (hcalls : ∀ call ∈ calls, call.writer? = some name → ∃ c : WriterCall α, call = c.under name)
    (hsame : Indistinct s s') :
    Indistinct (s.run calls) (s'.run (calls.filter (!·.closesWriter name))) ∧
      s'.answered (calls.filter (!·.closesWriter name)) =
        (s.answered calls).filter (!·.1.closesWriter name) := by
  induction calls generalizing s s' with
  | nil => exact ⟨hsame, rfl⟩
  | cons call calls ih =>
    have hnext := h.perform (hcalls call List.mem_cons_self)
    have hrest := fun other hother => hcalls other (List.mem_cons_of_mem call hother)
    by_cases hclose : call.closesWriter name = true
    · -- the one run makes the call, the other one stays where it is
      obtain rfl := (closesWriter_iff name call).mp hclose
      have hstay := h.close.2
      obtain ⟨hleft, hanswers⟩ := ih hnext hrest (hstay.symm.trans hsame)
      rw [List.filter_cons_of_neg (by simp [hclose]), answered,
        List.filter_cons_of_neg (by simp [hclose])]
      exact ⟨hleft, hanswers⟩
    · obtain ⟨hanswer, hafter⟩ := hsame.perform call
      obtain ⟨hleft, hanswers⟩ := ih hnext hrest hafter
      rw [List.filter_cons_of_pos (by simp [hclose]), answered, answered,
        List.filter_cons_of_pos (by simp [hclose]), hanswer, hanswers]
      exact ⟨hleft, rfl⟩

/-- Each of the closes is refused in the same way. -/
theorem LacksAt.answered_close {calls : List (Call σ α)} (h : s.LacksAt name fault)
    (hcalls : ∀ call ∈ calls, call.writer? = some name → ∃ c : WriterCall α, call = c.under name)
    {answer : Except Fault Unit} (hanswer : (.close name, answer) ∈ s.answered calls) :
    answer = .error fault := by
  induction calls generalizing s with
  | nil => cases hanswer
  | cons call calls ih =>
    rw [answered, List.mem_cons] at hanswer
    rcases hanswer with hfirst | hlater
    · obtain ⟨rfl, rfl⟩ := Prod.mk.inj hfirst
      exact h.close.1
    · exact ih (h.perform (hcalls call List.mem_cons_self))
        (fun other hother => hcalls other (.tail _ hother)) hlater

/-- An open writer, on any store, whose edge has no persistence or no pattern, or a pattern that needs
a number of destination tasks where there is none, is written to and closed in any order, and others
do what they like in between. Then all its closes answer the same fault, of what is missing first,
and the run without them comes to the same: every other call answers the same, under each name is the
same writer with the same buffer, and the executor is the same, with its pool, registry, files,
replacements and counts. -/
theorem run_without_refused {w : Writer σ α} {calls : List (Call σ α)}
    (hw : s.writer? name = some w) (hstate : w.state = .writing)
    (hmissing : w.edge.persistence = none ∨ w.edge.pattern = none ∨
      (w.edge.pattern = some .broadcast ∨ w.edge.pattern = some .shuffle) ∧
        (w.destination.parallelism = none ∨ w.destination.parallelism = some 0))
    (hcalls : ∀ call ∈ calls, call.writer? = some name →
      ∃ c : WriterCall α, call = c.under name) :
    let others := calls.filter (!·.closesWriter name)
    ∃ fault, w.edge.deficit w.destination = some fault ∧
      (∀ answer, (.close name, answer) ∈ s.answered calls → answer = .error fault) ∧
      s.answered others = (s.answered calls).filter (!·.1.closesWriter name) ∧
      (s.run others).executor = (s.run calls).executor ∧
      (∀ other, (s.run others).writer? other = (s.run calls).writer? other) ∧
      (s.run others).blocks = (s.run calls).blocks := by
  intro others
  obtain ⟨fault, hdeficit⟩ := Edge.exists_deficit hmissing
  have hlacks : s.LacksAt name fault := ⟨w, hw, hstate, hdeficit⟩
  obtain ⟨hleft, hanswers⟩ := hlacks.run_without hcalls (.refl s)
  exact ⟨fault, hdeficit, fun _ hanswer => hlacks.answered_close hcalls hanswer, hanswers,
    hleft.executor, hleft.writers, hleft.blocks⟩

/-- Two writers on an edge that is shuffled to nobody knows how many tasks, with a buffer and without
one. -/
theorem run_without_refused_pair :
    let edge (store : StoreKind) : Edge := {
      id := ⟨"e"⟩
      store := some store
      pattern := some .shuffle
      persistence := some .keep }
    let start : Session UInt32 UInt64 := {
      executor := {
        registry := { medium := { codec := .json } }
        pool := .ofCapacity 150
        estimator := .ofOptions {} } }
    let s := start.run [.openWriter "a" ⟨"t"⟩ (edge .memoryFile) ⟨⟨"v"⟩, none⟩ .intact]
    let opening : Call UInt32 UInt64 :=
      .openWriter "b" ⟨"u"⟩ (edge .localFile) ⟨⟨"v"⟩, some 2⟩ .intact
    let calls := [opening, .write "a" 7, .close "a", .write "b" 8, .close "b", .write "a" 9,
      .close "a"]
    let others := [opening, .write "a" 7, .write "b" 8, .close "b", .write "a" 9]
    let refused : Fault := .missingProperty .destinationParallelism ⟨"e"⟩
    (s.answered calls).map Prod.snd =
        [.ok (), .ok (), .error refused, .ok (), .ok (), .ok (), .error refused] ∧
      (∀ answer, (.close "a", answer) ∈ s.answered calls → answer = .error refused) ∧
      s.answered others = (s.answered calls).filter (!·.1.closesWriter "a") ∧
      (s.run others).executor = (s.run calls).executor ∧
      ∀ other, (s.run others).writer? other = (s.run calls).writer? other := by
  intro edge start s opening calls others refused
  have hopen : ((s.writer? "a").map fun w => (w.state, w.edge, w.destination)) =
      some (.writing, edge .memoryFile, ⟨⟨"v"⟩, none⟩) := by decide +kernel
  obtain ⟨w, hw, hshown⟩ := Option.map_eq_some_iff.mp hopen
  obtain ⟨hstate, hedge, hdestination⟩ : w.state = .writing ∧ w.edge = edge .memoryFile ∧
      w.destination = ⟨⟨"v"⟩, none⟩ := by simpa using hshown
  have hmissing : (w.edge.pattern = some .broadcast ∨ w.edge.pattern = some .shuffle) ∧
      (w.destination.parallelism = none ∨ w.destination.parallelism = some 0) := by
    simp [hedge, hdestination, edge]
  have hcalls : ∀ call ∈ calls, call.writer? = some "a" →
      ∃ c : WriterCall UInt64, call = c.under "a" := by
    intro call hcall hmine
    simp only [calls, List.mem_cons, List.not_mem_nil, or_false] at hcall
    rcases hcall with rfl | rfl | rfl | rfl | rfl | rfl | rfl
    · simp [opening, Call.writer?] at hmine
    · exact ⟨.write 7, rfl⟩
    · exact ⟨.close, rfl⟩
    · simp [Call.writer?] at hmine
    · simp [Call.writer?] at hmine
    · exact ⟨.write 9, rfl⟩
    · exact ⟨.close, rfl⟩
  obtain ⟨fault, hdeficit, hcloses, hothers, hexecutor, hwriters, -⟩ :=
    run_without_refused hw hstate (.inr (.inr hmissing)) hcalls
  have hfault : fault = refused := by
    rw [hedge, hdestination] at hdeficit
    exact (Option.some.inj hdeficit).symm
  rw [hfault] at hcloses
  exact ⟨by decide +kernel, hcloses, hothers, hexecutor, hwriters⟩

end Session

end ShuffleBuffer
