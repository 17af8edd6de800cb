import ShuffleBuffer.Element
import ShuffleBuffer.Proofs.Frames
import ShuffleBuffer.Session

/-! # Runs of a session

A run is any sequence of calls: writers are opened, written to, closed and let go, registered blocks
are removed, and somebody else may change the spill directory in between. A call on a writer that
is not there changes nothing. In every run from a fresh pool the pool stays in balance. -/

namespace ShuffleBuffer

open Estimate Step

inductive Call (σ α : Type) where
  | openWriter (name : String) (task : TaskId) (edge : Edge) (destination : Destination)
      (partitioner : Partitioner σ α)
  | write (name : String) (x : α)
  | close (name : String)
  /-- A writer is let go. -/
  | drop (name : String)
  | removeBlock (id : BlockId)
  /-- Somebody else leaves the spill directory like this. -/
  | disturb (dir : SpillDir)

/-- What is asked of a writer once it is open. -/
inductive WriterCall (α : Type) where
  | write (x : α)
  | close

def WriterCall.under (name : String) : WriterCall α → Call σ α
  | .write x => .write name x
  | .close => .close name

namespace Session

variable {σ α : Type} [Measured α]

/-- One call. -/
def perform (call : Call σ α) : Step (Session σ α) Unit := fun s =>
  match call with
  | .openWriter name task edge destination partitioner =>
      s.openWriter name task edge destination partitioner
  | .write name x => (s.callWriter name (Writer.write x)).getD (.ok (), s)
  | .close name => (s.callWriter name Writer.close).getD (.ok (), s)
  | .drop name => (.ok (), s.dropWriter name)
  | .removeBlock id => (do let _ ← onExecutor (Executor.removeBlock id)) s
  | .disturb dir =>
      (onMedium do Step.modify fun medium => { medium with dir }) s

/-- What the calls make of a session, one after the other. -/
def run (s : Session σ α) (calls : List (Call σ α)) : Session σ α :=
  calls.foldl (fun s call => (perform call s).2) s

theorem run_nil (s : Session σ α) : s.run [] = s := rfl

theorem run_cons (s : Session σ α) (call : Call σ α) (calls : List (Call σ α)) :
    s.run (call :: calls) = ((perform call s).2).run calls := rfl

theorem run_append (s : Session σ α) (before after : List (Call σ α)) :
    s.run (before ++ after) = (s.run before).run after := List.foldl_append

omit [Measured α] in
/-- Letting a writer go is seen in the spill directory at most. -/
theorem executor_dropWriter (s : Session σ α) (name : String) : ∃ medium,
    (s.dropWriter name).executor =
      { s.executor with registry := { s.executor.registry with medium } } := by
  unfold dropWriter
  split
  · exact ⟨_, rfl⟩
  · next w _ =>
    cases w.block with
    | none => exact ⟨_, rfl⟩
    | some block => exact ⟨_, rfl⟩

omit [Measured α] in
theorem pool_dropWriter (s : Session σ α) (name : String) :
    (s.dropWriter name).executor.pool = s.executor.pool := by
  obtain ⟨medium, hdropped⟩ := executor_dropWriter s name
  rw [hdropped]

theorem perform_removeBlock (s : Session σ α) (id : BlockId) :
    (perform (.removeBlock id) s).2 =
      { s with executor := (Executor.removeBlock id s.executor).2 } := by
  simp only [perform, bind_apply, onExecutor, within]
  cases Executor.removeBlock id s.executor with
  | mk result e =>
    cases result with
    | ok _ => rfl
    | error _ => rfl

theorem perform_close {s : Session σ α} {name : String} {w : Writer σ α}
    (hw : s.writer? name = some w) :
    perform (.close name) s = ((Writer.close (w, s.executor)).1,
      { s with executor := (Writer.close (w, s.executor)).2.2 }.putWriter name
        (Writer.close (w, s.executor)).2.1) := by
  simp only [perform, callWriter, hw, Option.getD_some]

/-- Every call moves the pool in one of the known ways. -/
theorem perform_moves (call : Call σ α) (s : Session σ α) :
    s.executor.pool.Moves (perform call s).2.executor.pool := by
  cases call with
  | openWriter name task edge destination partitioner =>
    have hmake := (Writer.make_along Executor.neutral_samePool.toQuiet task edge trivial destination
      partitioner).rel (s := s.executor) trivial
    simp only [perform, openWriter, bind_apply, onExecutor, within]
    generalize Writer.make task edge destination partitioner s.executor = made at hmake
    obtain ⟨result, e⟩ := made
    have hpool : e.pool = s.executor.pool := hmake
    cases result with
    | error fault => exact hpool ▸ .still
    | ok w =>
      have hdrop := pool_dropWriter { s with executor := e } name
      simp only [Step.modify, putWriter, hdrop, hpool]
      exact .still
  | write name x =>
    cases hw : s.writer? name with
    | none => simpa [perform, callWriter, hw] using .still
    | some w =>
      have hwrite := (Writer.write_along (σ := σ) (h := Executor.neutral_samePool.toQuiet) x).rel
        (s := (w, s.executor)) fun _ _ => ⟨trivial, trivial⟩
      simp only [perform, callWriter, hw, Option.getD_some]
      show s.executor.pool.Moves (Writer.write x (w, s.executor)).2.2.pool
      rw [show _ = s.executor.pool from hwrite.executor]
      exact .still
  | close name =>
    cases hw : s.writer? name with
    | none => simpa [perform, callWriter, hw] using .still
    | some w =>
      simp only [perform, callWriter, hw, Option.getD_some]
      exact Writer.close_moves (w, s.executor)
  | drop name =>
    simp only [perform, pool_dropWriter]
    exact .still
  | removeBlock id =>
    rw [perform_removeBlock]
    exact Executor.removeBlock_moves id s.executor
  | disturb dir => exact .still

/-- What is in balance before a run is in balance after it. -/
theorem run_keeps_balance {capacity : UInt64} (calls : List (Call σ α)) (s : Session σ α)
    (hs : s.executor.pool.Balanced capacity) : (s.run calls).executor.pool.Balanced capacity := by
  induction calls generalizing s with
  | nil => exact hs
  | cons call calls ih =>
    rw [run_cons]
    exact ih _ (hs.moves (perform_moves call s))

/-- After any calls of any number of writers, removals and disturbances, what is left of a pool is
its capacity, as far as a signed word holds it, less all charges. It is never negative, and not
zero if the capacity is not. So no more is charged than there is, and the next call, which moves the
pool in one of the five ways, computes with it exactly. -/
theorem run_pool_balance (e : Executor α) (capacity : UInt64) (calls : List (Call σ α)) :
    let start : Session σ α := { executor := { e with pool := .ofCapacity capacity } }
    let p := (start.run calls).executor.pool
    p.remaining.toInt = min (capacity.toNat : Int) (2 ^ 63 - 1) - p.charged ∧
    0 ≤ p.remaining.toInt ∧ (0 < capacity → 0 < p.remaining.toInt) ∧
    p.charged ≤ capacity.toNat ∧ p.Exact ∧
    (∀ id amount, (p.reserve id amount).1 = true → (p.reserve id amount).2.Exact) ∧
    ∀ call, p.Moves (perform call (start.run calls)).2.executor.pool := by
  intro start p
  have hbalanced : p.Balanced capacity :=
    run_keeps_balance calls start (Pool.balanced_ofCapacity capacity)
  have hcounter := hbalanced.counter
  refine ⟨by omega, hbalanced.nonneg, hbalanced.positive, hbalanced.charged_le,
    hbalanced.exact, fun id amount hgrant => (hbalanced.reserve hgrant).exact, ?_⟩
  exact fun call => perform_moves call (start.run calls)

/-- A file that may not grow refuses what a close gets to it, and nothing is charged for that. -/
example :
    let edge : Edge := {
      id := ⟨"e"⟩
      store := some .memoryFile
      pattern := some .oneToOne
      persistence := some .keep }
    let start : Session UInt32 UInt64 := {
      executor := {
        registry := { medium := { codec := .json } }
        pool := .ofCapacity 100
        estimator := .ofOptions {} } }
    let s := start.run [.openWriter "w" ⟨"t"⟩ edge ⟨⟨"v"⟩, none⟩ .intact, .write "w" 7,
      .disturb { limit := some 0 }]
    let e := (perform (.close "w") s).2.executor
    (perform (.close "w") s).1 = .error .io ∧ e.pool.charged = 0 ∧ e.pool.remaining = 100 ∧
      e.registry.medium.dir.read "e-t.block" = .ok [] := by
  decide +kernel

end Session

end ShuffleBuffer
