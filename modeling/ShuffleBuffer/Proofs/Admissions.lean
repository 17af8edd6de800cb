import ShuffleBuffer.Proofs.Extrapolation
import ShuffleBuffer.Proofs.Ledger
import ShuffleBuffer.Proofs.Writing

/-! # What admitted buffers are charged

Whatever the writers of a session do, they estimate with the options that it began with, so each
open buffer has the samples of its last two checkpoints. When it is closed and admitted, the pool
charges the extrapolation from these two, which covers what was buffered at the older checkpoint. What
came later may be charged less than it takes. -/

namespace ShuffleBuffer

open Estimate Step

variable {σ α : Type} {o : EstimatorOptions} {options : TrackerOptions}

namespace Executor

/-- An executor that estimates and tracks with these options. -/
structure Fits (o : EstimatorOptions) (options : TrackerOptions) (e : Executor α) : Prop where
  usable : e.estimator.Usable
  estimator : e.estimator.options = o
  tracker : e.tracker = options

/-- The options stay as they are. -/
def fitting (o : EstimatorOptions) (options : TrackerOptions) : Change (Executor α) where
  rel e e' := e.Fits o options → e'.Fits o options
  refl _ h := h
  trans h h' hfits := h' (h hfits)

theorem neutral_fitting (o : EstimatorOptions) (options : TrackerOptions) :
    Neutral (fun _ => True) (fun _ => True) (fitting (α := α) o options) fun _ _ => True where
  stable _ := fun _ h => h
  steady := fun _ h => h
  suited h := h
  metrics _ _ h := ⟨h.usable, h.estimator, h.tracker⟩
  estimate _ g root h := ⟨h.usable.estimate g root,
    (SizeEstimator.estimate_sound h.usable.valid h.usable.sound g root).1.trans h.estimator,
    h.tracker⟩
  create _ _ := Along.of_rel fun _ _ h => ⟨h.usable, h.estimator, h.tracker⟩
  write _ _ _ := Along.of_rel fun _ _ h => ⟨h.usable, h.estimator, h.tracker⟩
  commitPartitions _ := Along.of_rel fun _ _ h => ⟨h.usable, h.estimator, h.tracker⟩
  commit _ := Along.of_rel fun _ _ h => ⟨h.usable, h.estimator, h.tracker⟩
  spill _ := Along.of_rel fun _ _ h => ⟨h.usable, h.estimator, h.tracker⟩
  release _ h := ⟨h.usable, h.estimator, h.tracker⟩
  register _ _ _ _ _ := Along.of_rel fun _ _ h => ⟨h.usable, h.estimator, h.tracker⟩
  replace _ _ _ := Along.of_rel fun _ _ h => ⟨h.usable, h.estimator, h.tracker⟩

end Executor

namespace Writer

open Executor

variable [Measured α] {e : Executor α} {w : Writer σ α} {rate : Float}

/-- A close that gets to the block of the writer takes it from the writer. -/
theorem close_empties (hclosable : w.closable = true) (e : Executor α) :
    (close (w, e)).2.1.block = none := by
  obtain ⟨persistence, reads, block, hstate, hfield, hasked, hblock⟩ := of_closable hclosable
  have hneutral := neutral_fitting (α := α) {} {}
  have hempty : ∀ {x : Step (Writer σ α × Executor α) Unit},
      Along (beside hneutral.toQuiet) (fun _ => True) x (fun _ _ => True) →
      (x ({ w with block := none, tracker := none }, e)).2.1.block = none := by
    intro x hx
    have hbeside := hx.rel (s := ({ w with block := none, tracker := none }, e)) trivial
    refine Option.eq_none_iff_forall_ne_some.mpr fun b hb => ?_
    obtain ⟨-, held, hheld, -⟩ := hbeside.block b hb
    cases hheld
  rw [close_eq hstate hblock hfield hasked]
  cases w.tracker with
  | none => exact hempty (commit_along (h := hneutral) block trivial w.store reads persistence)
  | some t =>
    exact hempty (settle_along (h := hneutral)
      (fun _ _ h => ⟨h.usable, h.estimator, h.tracker⟩) w trivial block trivial t reads persistence)

end Writer

namespace Session

open Executor Writer

variable [Measured α] {s : Session σ α} {rate : Float}

/-- Each writer has a property. -/
def Each (P : Writer σ α → Prop) (s : Session σ α) : Prop :=
  ∀ name w, s.writer? name = some w → P w

section Each

omit [Measured α]

variable {P : Writer σ α → Prop}

theorem Each.putWriter (hs : s.Each P) {w : Writer σ α} (hw : P w) (name : String) :
    (s.putWriter name w).Each P := by
  intro other w' hw'
  by_cases hsame : other = name
  · subst hsame
    cases (writer_putWriter s other w).symm.trans hw'
    exact hw
  · exact hs other w' ((writer_putWriter_ne s w hsame).symm.trans hw')

theorem Each.dropWriter (hs : s.Each P) (name : String) : (s.dropWriter name).Each P := by
  intro other w hw
  by_cases hsame : other = name
  · rw [hsame, writer_dropWriter] at hw
    cases hw
  · exact hs other w ((writer_dropWriter_ne s hsame).symm.trans hw)

end Each

omit [Measured α] in
theorem within_fitting (o : EstimatorOptions) (options : TrackerOptions) (call : Call σ α) :
    call.Within (fun _ => True) (fun _ => True) (fun _ => True) (fitting o options) := by
  refine call.within_all (fun id e he => ?_) fun _ _ he => ⟨he.usable, he.estimator, he.tracker⟩
  obtain ⟨-, hsame⟩ | ⟨removed, -, hremoved⟩ := removeBlock_cases id e
  · rw [hsame]
    exact he
  · rw [hremoved]
    exact ⟨he.usable, he.estimator, he.tracker⟩

/-- No call changes the options. -/
theorem perform_fits (hs : s.executor.Fits o options) (call : Call σ α) :
    (perform call s).2.executor.Fits o options :=
  (perform_follows (neutral_fitting o options) (fun _ _ h => ⟨h.usable, h.estimator, h.tracker⟩)
    (.everywhere s) (within_fitting o options call)).executor hs

end Session

end ShuffleBuffer
