import ShuffleBuffer.Proofs.Others
import ShuffleBuffer.Proofs.Sessions

/-! # Calls of others

A writer and its block share a session with others. As long as the calls of those are about other
writers and other blocks, and nobody interferes with the spill directory, the writer, its file and
its registration are as they were. -/

namespace ShuffleBuffer

open Estimate Step

variable {σ α : Type} {name : String} {id : BlockId}

/-- A call that is about neither the writer of this name nor the block of this id, and that leaves
the spill directory to the writers. -/
def Call.Foreign (name : String) (id : BlockId) : Call σ α → Prop
  | .openWriter other task edge _ _ => other ≠ name ∧ BlockId.of edge.id task ≠ id
  | .write other _ => other ≠ name
  | .close other => other ≠ name
  | .drop other => other ≠ name
  | .removeBlock other => other ≠ id
  | .disturb _ => False

open Executor in
theorem Call.Foreign.within {call : Call σ α} (h : call.Foreign name id) :
    call.Within (· ≠ name) (· ≠ id) (Sited (· ≠ id) id ⊤ ⊤) (watched id ⊤ ⊤) := by
  cases call with
  | openWriter | write | close | drop => exact h
  | removeBlock other => exact fun e he => removeBlock_watched (fun _ => h) he.keyed
  | disturb => exact h.elim

namespace Session

open Executor Writer

/-- The other writers of a session are on other blocks. -/
structure Strangers (name : String) (id : BlockId) (s : Session σ α) : Prop where
  formed : s.executor.registry.medium.dir.WellFormed
  keyed : s.executor.registry.Keyed
  writers : ∀ {other w}, other ≠ name → s.writer? other = some w →
    w.id ≠ id ∧ Holding (· ≠ id) (Stranger (· ≠ id) id ⊤ ⊤) (w, s.executor)

/-- What the calls of others make of a session. -/
structure Aside (name : String) (id : BlockId) (s s' : Session σ α) : Prop where
  executor : Watched id ⊤ ⊤ s.executor s'.executor
  writer : s'.writer? name = s.writer? name
  strangers : Strangers name id s'

variable {s s' : Session σ α}

/-- No request of theirs is about this block, however many they note. -/
theorem strangers_iff : Strangers name id s ↔
    Holders (· ≠ name) (· ≠ id) (Sited (· ≠ id) id ⊤ ⊤) (Stranger (· ≠ id) id ⊤ ⊤) s :=
  ⟨fun h => ⟨⟨h.formed, h.keyed, fun hid => absurd rfl hid, fun hid => absurd rfl hid⟩, h.writers⟩,
    fun h => ⟨h.suited.formed, h.suited.keyed, h.writers⟩⟩

variable [Measured α]

/-- However many calls of others there are, they leave the writer and its block alone. -/
theorem run_foreign {calls : List (Call σ α)} (h : Strangers name id s)
    (hcalls : ∀ call ∈ calls, call.Foreign name id) : Aside name id s (s.run calls) := by
  have hwithin := fun call hmem => (hcalls call hmem).within
  have hfollows := run_follows (neutral_watched (· ≠ id) id ⊤ ⊤)
    (fun _ _ => Watched.of_same rfl rfl ⟨rfl, fun h => h⟩) (strangers_iff.mp h) hwithin
  exact ⟨hfollows.executor, hfollows.others fun hne => hne rfl,
    strangers_iff.mpr hfollows.holders⟩

end Session

end ShuffleBuffer
