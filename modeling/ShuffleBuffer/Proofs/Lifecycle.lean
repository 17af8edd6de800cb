import ShuffleBuffer.Proofs.Accounts

/-! # The life of a writer

A writer does nothing from the start, or it is open until a close gets to its block. Then either the
block is committed, in memory or on disk, or the writer is stuck without one. From then on every
call is refused and nothing is touched, so no writer is registered twice. -/

namespace ShuffleBuffer

open Estimate Step

variable {σ α : Type}

/-- The block of the writer has been committed. -/
def WriterState.isCommitted : WriterState → Bool
  | committedMemory | committedDisk => true
  | writing | noOp => false

theorem WriterState.isCommitted_committed (store : StoreKind) :
    (committed store).isCommitted = true := by
  cases store <;> rfl

theorem WriterState.committed_eq_disk {store : StoreKind} :
    committed store = .committedDisk ↔ store = .localFile := by
  cases store <;> simp [committed, StoreKind.isMemoryTier]

namespace Writer

open Executor

/-! ## Stages -/

/-- Which combinations of its fields a writer goes through. -/
inductive Stage : Writer σ α → Prop
  | idle {w : Writer σ α} : w.state = .noOp → w.block = none → w.tracker = none →
      w.writtenBytes = none → w.spilled = false → Stage w
  | opened {w : Writer σ α} {b : Block α} : w.state = .writing → w.block = some b → w.Tends b →
      b.keepsSizes = w.store.tracksSizes →
      (w.store.spillsToDisk = true → b.Blank w.id w.store) →
      w.writtenBytes = none → w.spilled = false → Stage w
  /-- A close has taken the block and failed. -/
  | stuck {w : Writer σ α} : w.state = .writing → w.block = none → w.tracker = none →
      w.writtenBytes = none → w.spilled = false → Stage w
  /-- The block is committed on the store that was declared. -/
  | kept {w : Writer σ α} : w.state = .committed w.store → w.block = none → w.tracker = none →
      w.writtenBytes.isSome = w.store.tracksSizes → w.spilled = false → Stage w
  /-- The block is committed in a file instead. -/
  | spilled {w : Writer σ α} : w.store.spillsToDisk = true → w.state = .committedDisk →
      w.block = none → w.tracker = none → w.writtenBytes.isSome = true → w.spilled = true → Stage w

variable {w w' : Writer σ α} {e : Executor α} {a a' : Account α}

theorem Committed.isCommitted {refused : Bool} (h : Committed w a refused w' a') :
    w'.state.isCommitted = true := by
  cases h with
  | kept => exact WriterState.isCommitted_committed _
  | spilled => rfl

theorem Committed.empties {refused : Bool} (h : Committed w a refused w' a') :
    w'.block = none ∧ w'.tracker = none := by
  cases h <;> exact ⟨rfl, rfl⟩

theorem Committed.expectedReads {refused : Bool} (h : Committed w a refused w' a') :
    w'.expectedReads = w.expectedReads := by
  cases h <;> rfl

theorem Committed.registrations {refused : Bool} (h : Committed w a refused w' a') (id : BlockId) :
    a'.registrations id = a.registrations id + if w.id = id then 1 else 0 := by
  cases h <;> rfl

/-- A refused offer was made from a buffer. -/
theorem spillsToDisk_of_refused {b : Block α} (h : w.Tends b) {p : Pool}
    (hrefused : w.refused p = true) : w.store.spillsToDisk = true := by
  obtain ⟨size, hsize, -⟩ := Option.any_eq_true _ _ |>.mp hrefused
  rw [← h.buffered, ← Option.isSome_map (f := (·.estimateSize))]
  exact Option.isSome_of_eq_some hsize

namespace Stage

theorem of_opened {edge : Edge} {id : BlockId} (h : Opened edge id a w a') : Stage w := by
  cases h with
  | writing _ _ hstate hblock htends hsizes hblank _ hbytes hspilled =>
    exact .opened hstate hblock htends hsizes hblank hbytes hspilled
  | omitted _ _ hstate hblock htracker hbytes hspilled =>
    exact .idle hstate hblock htracker hbytes hspilled

theorem tended (h : Stage w) : w.Tended := by
  intro b hb
  cases h with
  | opened _ hblock htends =>
    cases hb.symm.trans hblock
    exact htends
  | idle _ hblock | stuck _ hblock | kept _ hblock | spilled _ _ hblock =>
    cases hb.symm.trans hblock

theorem sizes (h : Stage w) : ∀ b, w.block = some b → b.keepsSizes = w.store.tracksSizes := by
  intro b hb
  cases h with
  | opened _ hblock _ hsizes =>
    cases hb.symm.trans hblock
    exact hsizes
  | idle _ hblock | stuck _ hblock | kept _ hblock | spilled _ _ hblock =>
    cases hb.symm.trans hblock

theorem of_closable (h : Stage w) (hclosable : w.closable = true) :
    ∃ b, w.state = .writing ∧ w.block = some b ∧ w.Tends b ∧ w.writtenBytes = none ∧
      w.spilled = false := by
  obtain ⟨-, -, block, hstate, -, -, hheld⟩ := Writer.of_closable hclosable
  cases h with
  | opened _ hblock htends _ _ hbytes hspilled => exact ⟨_, hstate, hblock, htends, hbytes, hspilled⟩
  | idle _ hblock | stuck _ hblock | kept _ hblock | spilled _ _ hblock =>
    cases hheld.symm.trans hblock

theorem wrote [Measured α] (h : Stage w) {x : α} (hw : Wrote w x w') : Stage w' := by
  cases hw with
  | idle => exact h
  | buffered _ hstate ht =>
    cases h with
    | opened _ hblock htends hsizes hblank hbytes hspilled =>
      refine .opened hstate hblock ⟨htends.id, ?_⟩ hsizes hblank hbytes hspilled
      rw [← htends.buffered, ht]
      rfl
    | idle _ _ htracker | stuck _ _ htracker | kept _ _ htracker | spilled _ _ _ htracker =>
      cases ht.symm.trans htracker
  | through p hstate ht hb hlike =>
    cases h with
    | opened _ hblock htends hsizes _ hbytes hspilled =>
      cases hb.symm.trans hblock
      refine .opened hstate rfl ⟨hlike.id.trans htends.id, htends.buffered⟩
        (hlike.keepsSizes.trans hsizes) (fun hspills => ?_) hbytes hspilled
      rw [← htends.buffered, ht] at hspills
      cases hspills
    | idle _ hblock | stuck _ hblock | kept _ hblock | spilled _ _ hblock =>
      cases hb.symm.trans hblock

theorem committed (h : Stage w) (hclosable : w.closable = true) {p : Pool}
    (hw : Committed w a (w.refused p) w' a') : Stage w' := by
  obtain ⟨b, -, -, htends, -, hspilled⟩ := h.of_closable hclosable
  have hspills : w.refused p = true → w.store.spillsToDisk = true := spillsToDisk_of_refused htends
  generalize w.refused p = refused at hw hspills
  cases hw with
  | kept _ hbytes => exact .kept rfl rfl rfl hbytes hspilled
  | spilled _ hbytes => exact .spilled (hspills rfl) rfl rfl rfl hbytes rfl

theorem failed (h : Stage w) (hclosable : w.closable = true) :
    Stage { w with block := none, tracker := none } := by
  obtain ⟨b, hstate, -, -, hbytes, hspilled⟩ := h.of_closable hclosable
  exact .stuck hstate rfl rfl hbytes hspilled

theorem spilled_iff (h : Stage w) :
    w.spilled = true ↔ w.state = .committedDisk ∧ w.store ≠ .localFile := by
  cases h with
  | idle hstate _ _ _ hspilled | opened hstate _ _ _ _ _ hspilled | stuck hstate _ _ _ hspilled =>
    simp [hstate, hspilled]
  | kept hstate _ _ _ hspilled => simp [hstate, hspilled, WriterState.committed_eq_disk]
  | spilled hstore hstate _ _ _ hspilled =>
    have hmemory : w.store ≠ .localFile := fun hfile => by
      rw [hfile] at hstore
      cases hstore
    simp [hstate, hspilled, hmemory]

end Stage

end Writer

/-! ## Calls -/

/-- A call on a writer. -/
def WriterCall.step [Measured α] : WriterCall α → Step (Writer σ α × Executor α) Unit
  | .write x => Writer.write x
  | .close => Writer.close

/-- What is wrong with a call on a writer that was closed. -/
def WriterCall.late : WriterCall α → Misuse
  | .write _ => .writeAfterClose
  | .close => .closeAfterClose

namespace Writer

section Calls

variable [Measured α] {w : Writer σ α} {e : Executor α} {s : Writer σ α × Executor α}

theorem step_noOp (h : s.1.state = .noOp) (call : WriterCall α) : call.step s = (.ok (), s) := by
  cases call <;> simp only [WriterCall.step, write, close, bind_apply, Step.read, h] <;> rfl

theorem step_committed (h : s.1.state.isCommitted = true) (call : WriterCall α) :
    call.step s = (.error (.invalid call.late), s) := by
  cases hstate : s.1.state with
  | writing | noOp => simp [hstate, WriterState.isCommitted] at h
  | committedMemory | committedDisk =>
    cases call <;> simp only [WriterCall.step, write, close, bind_apply, Step.read, hstate] <;> rfl

/-- A writer whose block a close has taken. -/
theorem step_taken (hclosable : w.closable = true) (call : WriterCall α) :
    call.step ({ w with block := none, tracker := none }, e) =
      (.error (.invalid .noOpenBlock), ({ w with block := none, tracker := none }, e)) := by
  obtain ⟨persistence, reads, -, hstate, hpersistence, hreads, -⟩ := of_closable hclosable
  have hrequired : w.edge.requiredPersistence = .ok persistence := by
    rw [Edge.requiredPersistence, hpersistence, Edge.require]
  have hasked : w.destination.expectedReads w.edge = .ok reads := hreads
  cases call with
  | write x =>
    simp only [WriterCall.step, write, bind_apply, Step.read, hstate]
    rfl
  | close =>
    simp only [WriterCall.step, close, bind_apply, Step.read, Step.ofExcept, expectedReads, hstate,
      hrequired, hasked]
    rfl

/-- What a close comes to. -/
inductive Ends (w : Writer σ α) (e : Executor α) :
    Except Fault Unit × Writer σ α × Executor α → Prop
  /-- It does not get to the block. -/
  | idle (result : Except Fault Unit) : w.closable = false → Ends w e (result, w, e)
  | committed {w' : Writer σ α} {e' : Executor α} : w.closable = true →
      Committed w { e.account with metrics := e.metrics.offered (w.refused e.pool) w.trackedSize }
        (w.refused e.pool) w' e'.account →
      Ends w e (.ok (), w', e')
  /-- It takes the block from the writer and enters nothing. -/
  | failed {fault : Fault} {m : Metrics} {e' : Executor α} : w.closable = true →
      e'.account = { e.account with metrics := m } →
      (e.estimator.Usable → m = e.metrics.offered (w.refused e.pool) w.trackedSize) →
      Ends w e (.error fault, { w with block := none, tracker := none }, e')

theorem close_ends (h : Stage w) (e : Executor α) : Ends w e (close (w, e)) := by
  cases hclosable : w.closable with
  | false =>
    obtain ⟨result, hclose, -⟩ := close_unclosable hclosable
    rw [show close (w, e) = _ from hclose e w.block Iff.rfl]
    exact .idle result hclosable
  | true =>
    have hclose := close_stands hclosable h.tended h.sizes (w, e) rfl
    generalize close (w, e) = closed at hclose
    obtain ⟨result, w', e'⟩ := closed
    cases result with
    | ok _ => exact .committed hclosable hclose
    | error fault =>
      obtain ⟨m, ⟨hw, ha⟩, hm⟩ := hclose
      obtain rfl : w' = _ := hw
      exact .failed hclosable ha hm

/-- A call takes a writer from one stage to the next, if any. -/
theorem Stage.step (h : Stage s.1) (call : WriterCall α) : Stage (call.step s).2.1 := by
  obtain ⟨w, e⟩ := s
  cases call with
  | write x => exact h.wrote (write_stands x).1
  | close =>
    have hends := close_ends h e
    rw [WriterCall.step]
    generalize close (w, e) = closed at hends
    cases hends with
    | idle => exact h
    | committed hclosable hcommitted => exact h.committed hclosable hcommitted
    | failed hclosable => exact h.failed hclosable

/-- A call commits an open writer, or leaves the writer in its state. -/
theorem Stage.step_state (h : Stage s.1) (call : WriterCall α) :
    (call.step s).2.1.state = s.1.state ∨
      s.1.state = .writing ∧ (call.step s).2.1.state.isCommitted = true := by
  obtain ⟨w, e⟩ := s
  cases call with
  | write x => exact .inl (write_stands (w := w) (e := e) x).1.alike.state
  | close =>
    have hends := close_ends h e
    rw [WriterCall.step]
    generalize close (w, e) = closed at hends
    cases hends with
    | idle => exact .inl rfl
    | committed hclosable hcommitted =>
      exact .inr ⟨closable_state hclosable, hcommitted.isCommitted⟩
    | failed => exact .inl rfl

/-! ## Sequences of calls -/

/-- What the calls make of a writer, one after the other. -/
def run (s : Writer σ α × Executor α) (calls : List (WriterCall α)) : Writer σ α × Executor α :=
  calls.foldl (fun s call => (call.step s).2) s

theorem Stage.run (h : Stage s.1) (calls : List (WriterCall α)) : Stage (run s calls).1 := by
  induction calls generalizing s with
  | nil => exact h
  | cons call calls ih => exact ih (h.step call)

/-- A writer that a failing close has taken the block from refuses everything and touches nothing. -/
theorem run_taken (hclosable : w.closable = true) (calls : List (WriterCall α)) :
    run ({ w with block := none, tracker := none }, e) calls =
      ({ w with block := none, tracker := none }, e) := by
  induction calls with
  | nil => rfl
  | cons call calls ih =>
    rw [run, List.foldl_cons, step_taken hclosable call]
    exact ih

end Calls

/-! ## The whole course -/

/-- What a writer has left on record, since this was on record. -/
structure Course (edge : Edge) (id : BlockId) (a : Account α) (s : Writer σ α × Executor α) :
    Prop where
  named : s.1.id = id
  declared : edge.store = some s.1.store
  uncommitted : s.1.state.isCommitted = false →
    s.2.account.blocks = a.blocks ∧ s.2.account.registrations = a.registrations
  committed : s.1.state.isCommitted = true → ∃ entry : RegisteredBlock α,
    s.2.account.blocks = (id, entry) :: a.blocks.filter (·.1 ≠ id) ∧
    s.2.account.registrations = (fun other => a.registrations other + if id = other then 1 else 0) ∧
    s.1.writtenBytes.isSome = entry.info.store.tracksSizes

variable {edge : Edge} {id : BlockId} {a a' : Account α} {w w' : Writer σ α} {e : Executor α}
  {s : Writer σ α × Executor α}

theorem Course.of_opened (h : Opened edge id a w e.account) : Course edge id a (w, e) := by
  generalize haccount : e.account = a' at h
  cases h with
  | writing hstore hid hstate =>
    exact ⟨hid, hstore, fun _ => by simp [haccount], by simp [hstate, WriterState.isCommitted]⟩
  | omitted hstore hid hstate =>
    exact ⟨hid, hstore, fun _ => by simp [haccount], by simp [hstate, WriterState.isCommitted]⟩

/-- The block is entered in the course of a writer that was open. -/
theorem Course.enter (h : Course edge id a (w, e)) (hstate : w.state = .writing) {m : Metrics}
    {refused : Bool} {e' : Executor α}
    (hcommitted : Committed w { e.account with metrics := m } refused w' e'.account) :
    Course edge id a (w', e') := by
  obtain ⟨hblocks, hregistrations⟩ := h.uncommitted (by simp [hstate, WriterState.isCommitted])
  dsimp only at hblocks hregistrations
  have hid : w.id = id := h.named
  generalize haccount : e'.account = a' at hcommitted
  cases hcommitted with
  | @kept entry total hstore htotal =>
    refine ⟨hid, h.declared, fun hopen => ?_, fun _ => ⟨entry, ?_, ?_, ?_⟩⟩
    · rw [WriterState.isCommitted_committed] at hopen
      cases hopen
    · rw [haccount, Account.entered, hblocks, hid]
    · rw [haccount, Account.entered, hregistrations, hid]
    · rw [htotal, hstore]
  | @spilled entry total hstore htotal =>
    refine ⟨hid, h.declared, fun hopen => ?_, fun _ => ⟨entry, ?_, ?_, ?_⟩⟩
    · cases hopen
    · rw [haccount, Account.replaced, Account.entered, hblocks, hid]
    · rw [haccount, Account.replaced, Account.entered, hregistrations, hid]
    · rw [htotal, hstore]
      rfl

variable [Measured α]

/-- Each call takes a writer on in its course. -/
theorem Course.step (h : Course edge id a s) (hstage : Stage s.1) (call : WriterCall α) :
    Course edge id a (call.step s).2 := by
  obtain ⟨w, e⟩ := s
  cases call with
  | write x =>
    obtain ⟨hwrote, m, ha, -⟩ := write_stands (w := w) (e := e) x
    have halike := hwrote.alike
    rw [WriterCall.step]
    refine ⟨halike.id.trans h.named, ?_, fun hopen => ?_, fun hdone => ?_⟩
    · rw [halike.store]
      exact h.declared
    · rw [ha]
      rw [halike.state] at hopen
      exact h.uncommitted hopen
    · rw [ha, halike.writtenBytes]
      rw [halike.state] at hdone
      exact h.committed hdone
  | close =>
    have hends := close_ends hstage e
    rw [WriterCall.step]
    generalize close (w, e) = closed at hends
    cases hends with
    | idle => exact h
    | committed hclosable hcommitted => exact h.enter (closable_state hclosable) hcommitted
    | failed hclosable ha =>
      refine ⟨h.named, h.declared, fun hopen => ?_, fun hdone => ?_⟩
      · rw [ha]
        exact h.uncommitted hopen
      · have hstate : w.state = .writing := closable_state hclosable
        simp [hstate, WriterState.isCommitted] at hdone

theorem Course.run (h : Course edge id a s) (hstage : Stage s.1) (calls : List (WriterCall α)) :
    Course edge id a (run s calls) := by
  induction calls generalizing s with
  | nil => exact h
  | cons call calls ih => exact ih (h.step hstage call) (hstage.step call)

/-- A writer is opened, and then written to and closed any number of times, with any codec and any
pool. After any of these calls:

* exactly one registration was asked for if its block is committed, under its name, and none
  otherwise; the block is registered, and its bytes were told if the store it is registered for
  tracks sizes;
* it counts as spilled exactly if the block is on disk and the edge was not declared for it;
* the next call may commit an open writer and leaves every other one in its state; one that does
  nothing, or is committed, it leaves alone altogether, with everything else, and a committed one
  refuses it;
* if the next call is a close that gets to the block and fails, every later call is refused and
  leaves the writer and everything else alone. -/
theorem run_commits_once {task : TaskId} {edge : Edge} {destination : Destination}
    {p : Partitioner σ α} {e : Executor α} {w : Writer σ α}
    (hmade : (make task edge destination p e).1 = .ok w) (calls : List (WriterCall α)) :
    let s := run (w, (make task edge destination p e).2) calls
    (∀ id, s.2.registrations id = e.registrations id +
      if s.1.state.isCommitted = true ∧ id = .of edge.id task then 1 else 0) ∧
    (s.1.state.isCommitted = false → s.2.registry.blocks = e.registry.blocks) ∧
    (s.1.state.isCommitted = true → ∃ entry : RegisteredBlock α,
      s.2.registry.blocks = (.of edge.id task, entry) ::
        e.registry.blocks.filter (·.1 ≠ .of edge.id task) ∧
      s.1.writtenBytes.isSome = entry.info.store.tracksSizes) ∧
    (s.1.spilled = true ↔ s.1.state = .committedDisk ∧ edge.store ≠ some .localFile) ∧
    (∀ call : WriterCall α, (call.step s).2.1.state = s.1.state ∨
      s.1.state = .writing ∧ (call.step s).2.1.state.isCommitted = true) ∧
    (s.1.state = .noOp → ∀ call : WriterCall α, call.step s = (.ok (), s)) ∧
    (s.1.state.isCommitted = true → ∀ call : WriterCall α,
      call.step s = (.error (.invalid call.late), s)) ∧
    (s.1.closable = true → ∀ fault, (close s).1 = .error fault →
      ∀ (later : List (WriterCall α)) (call : WriterCall α),
        run (close s).2 later = (close s).2 ∧
        call.step (run (close s).2 later) = (.error (.invalid .noOpenBlock), (close s).2)) := by
  intro s
  have hopened : Opened edge (.of edge.id task) e.account w
      (make task edge destination p e).2.account := by
    have hmake := make_opens task edge destination p e rfl
    generalize make task edge destination p e = made at hmake hmade
    obtain ⟨result, e'⟩ := made
    obtain rfl : result = .ok w := hmade
    exact hmake
  have hstage : Stage s.1 := (Stage.of_opened hopened).run calls
  have hcourse : Course edge (.of edge.id task) e.account s :=
    (Course.of_opened hopened).run (Stage.of_opened hopened) calls
  refine ⟨fun id => ?_, fun hopen => (hcourse.uncommitted hopen).1, fun hdone => ?_, ?_,
    hstage.step_state, step_noOp, step_committed, fun hclosable fault hfails => ?_⟩
  · cases hdone : s.1.state.isCommitted with
    | false =>
      have hsame := congrFun (hcourse.uncommitted hdone).2 id
      simpa only [Executor.account_registrations, Bool.false_eq_true, false_and, if_false,
        Nat.add_zero] using hsame
    | true =>
      obtain ⟨entry, -, hregistrations, -⟩ := hcourse.committed hdone
      have hone := congrFun hregistrations id
      simpa only [Executor.account_registrations, true_and, eq_comm (a := id)] using hone
  · obtain ⟨entry, hblocks, -, hbytes⟩ := hcourse.committed hdone
    exact ⟨entry, hblocks, hbytes⟩
  · rw [hstage.spilled_iff, hcourse.declared, ne_eq, ne_eq, Option.some.injEq]
  · have hends := close_ends hstage s.2
    rw [Prod.mk.eta] at hends
    generalize close s = closed at hends hfails ⊢
    cases hends with
    | idle _ hidle => simp [hclosable] at hidle
    | committed => cases hfails
    | failed =>
      intro later call
      rw [run_taken hclosable later]
      exact ⟨rfl, step_taken hclosable call⟩

/-- A buffer that the pool refuses. -/
theorem run_commits_once_refused :
    let edge : Edge := {
      id := ⟨"e"⟩
      store := some .memoryFile
      pattern := some .oneToOne
      persistence := some .keep }
    let e : Executor UInt64 := {
      registry := { medium := { codec := .json } }
      pool := .ofCapacity 100
      estimator := .ofOptions {} }
    let made := make ⟨"t"⟩ edge ⟨⟨"v"⟩, none⟩ Partitioner.intact e
    ∃ w, made.1 = .ok w ∧ (
      let s := run (w, made.2) [.write 7, .close, .write 8, .close]
      s.1.state = .committedDisk ∧ s.1.spilled = true ∧ s.2.registrations ⟨"e-t"⟩ = 1 ∧
        close s = (.error (.invalid .closeAfterClose), s)) := by
  intro edge e made
  have hrun : (made.1.toOption.map fun w =>
      (run (w, made.2) [.write 7, .close, .write 8, .close]).1.state) = some .committedDisk := by
    decide +kernel
  obtain ⟨w, hw, hstate⟩ := Option.map_eq_some_iff.mp hrun
  have hmade : made.1 = .ok w := by
    generalize made.1 = result at hw
    cases result with
    | ok _ => exact congrArg Except.ok (Option.some.inj hw)
    | error _ => cases hw
  obtain ⟨hregistrations, -, -, hspilled, -, -, hlate, -⟩ :=
    run_commits_once hmade [.write 7, .close, .write 8, .close]
  have hdone : (run (w, made.2) [.write 7, .close, .write 8, .close]).1.state.isCommitted = true := by
    rw [hstate]
    rfl
  refine ⟨w, hmade, hstate, hspilled.mpr ⟨hstate, by decide⟩, ?_, hlate hdone .close⟩
  rw [hregistrations, if_pos ⟨hdone, by decide⟩]
  rfl

end Writer

end ShuffleBuffer
