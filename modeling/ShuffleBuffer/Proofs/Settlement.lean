import Mathlib
import ShuffleBuffer.Element
import ShuffleBuffer.Proofs.Writing

/-! # Settlement

Of a writer with a buffer comes exactly one block. It is in memory if its tracked size just before
the close is smaller than what the pool has left, and then the pool has charged that size to it;
otherwise it is in a file, the pool is as it was, and the replacement is told. -/

namespace ShuffleBuffer

open Estimate Step

variable {σ α : Type}

namespace Pool

variable {p : Pool} {id : BlockId} {amount : UInt64}

/-- An amount was taken off the counter and added to the charge of one block. -/
structure Charged (p : Pool) (id : BlockId) (amount : UInt64) (p' : Pool) : Prop where
  counter : p'.remaining.toInt = p.remaining.toInt - amount.toNat
  own : ∃ total, p'.charged? id = some total ∧
    total.toNat = ((p.charged? id).getD 0).toNat + amount.toNat
  others : ∀ other, other ≠ id → p'.charged? other = p.charged? other

theorem reserve_charged (hnonneg : 0 ≤ p.remaining.toInt)
    (hledger : ((p.charged? id).getD 0).toNat + p.remaining.toInt < 2 ^ 64)
    (hgranted : (p.reserve id amount).1 = true) : p.Charged id amount (p.reserve id amount).2 := by
  have hless := (reserve_iff hnonneg id amount).mp hgranted
  obtain ⟨hcounter, -⟩ := acquire_spec hnonneg amount
  have hamount := toInt_signedAmount amount
  have hlarge : p.remaining.toInt < 2 ^ 63 := p.remaining.toInt_lt
  rw [reserve_granted hgranted]
  refine ⟨?_, ⟨_, List.lookup_cons_self, ?_⟩, fun other hother => ?_⟩
  · show (p.acquire amount).2.remaining.toInt = _
    omega
  · show ((p.charged? id).getD 0 + amount).toNat = _
    rw [UInt64.toNat_add, Nat.mod_eq_of_lt (by omega)]
  · exact (lookup_cons_ne hother).trans (lookup_filter_ne _ hother)

end Pool

namespace Writer

open Executor

variable [Measured α]

/-- A writer that was made on some executor and took these elements since, one after the other,
whatever became of the executor in between and whatever the writes answered. -/
inductive Written (task : TaskId) (edge : Edge) (destination : Destination)
    (p : Partitioner σ α) : List α → Writer σ α → Prop
  | made {w : Writer σ α} {e e' : Executor α} : make task edge destination p e = (.ok w, e') →
      Written task edge destination p [] w
  | wrote {xs : List α} {w : Writer σ α} (x : α) (e : Executor α) :
      Written task edge destination p xs w →
      Written task edge destination p (xs ++ [x]) (write x (w, e)).2.1

/-- The block is in memory, and the pool has charged its size to it. -/
structure OnMemory (size : UInt64) (info : BlockInfo) (w w' : Writer σ α) (e e' : Executor α) :
    Prop where
  store : info.store = w.store
  location : info.location = none
  pool : e.pool.Charged w.id size e'.pool
  state : w'.state = .committedMemory
  spilled : w'.spilled = false
  replacements : e'.registry.replacements = e.registry.replacements

/-- The block is in a file instead, and the pool is as it was. -/
structure OnDisk (info : BlockInfo) (w w' : Writer σ α) (e e' : Executor α) : Prop where
  store : info.store = .localFile
  location : info.location = some (Block.fileName w.id)
  pool : e'.pool = e.pool
  state : w'.state = .committedDisk
  spilled : w'.spilled = true
  replacements : e'.registry.replacements =
    e.registry.replacements ++ [⟨w.id, w.store, .localFile⟩]

variable {task : TaskId} {edge : Edge} {destination : Destination} {p : Partitioner σ α}
  {store : StoreKind} {pattern : CommunicationPattern} {persistence : Persistence}
  {e : Executor α} {xs : List α} {w : Writer σ α}

theorem Written.buffers (h : Written task edge destination p xs w)
    (hedge : edge.Complete destination store pattern persistence)
    (hstore : store.spillsToDisk = true) :
    Buffers (idle task edge destination p store) xs w := by
  induction h with
  | @made w e e' hmake =>
    have hbuffers := make_buffers task p hedge hstore e rfl
    rw [hmake] at hbuffers
    exact hbuffers.1
  | wrote x e _ ih => exact (write_buffers ih x e).1

/-- However a writer on a store that falls back to disk came to its buffer, and whatever the
registry and the pool are then, its close registers one block under its name, in place of whatever
was there, and the tier of it is in line with everything else that the close leaves. -/
theorem close_settles (hw : Written task edge destination p xs w)
    (hedge : edge.Complete destination store pattern persistence)
    (hstore : store.spillsToDisk = true) (hfiles : Spacious w.id e)
    (hestimator : e.estimator.Usable) (hxs : ∀ x ∈ xs, e.registry.medium.codec.Encodes x)
    (hnonneg : 0 ≤ e.pool.remaining.toInt)
    (hledger : ((e.pool.charged? w.id).getD 0).toNat + e.pool.remaining.toInt < 2 ^ 64) :
    ∃ c w' e' block info, w.trackedSize = some c ∧ close (w, e) = (.ok (), w', e') ∧
      e'.registry.blocks = (w.id, ⟨block, info⟩) :: e.registry.blocks.filter (·.1 ≠ w.id) ∧
      w.expectedReads = .ok info.expectedReads ∧ info.expectedReads.toNat =
        min (destination.readers pattern * edge.duplicateMultiplier.toNat) (2 ^ 32 - 1) ∧
      info.persistence = persistence ∧
      if (c.toNat : Int) < e.pool.remaining.toInt then OnMemory c info w w' e e'
      else OnDisk info w w' e e' := by
  have hbuffers := hw.buffers hedge hstore
  have hid : w.id = .of edge.id task := hbuffers.id
  have hdeclared : w.store = store := by cases hbuffers; rfl
  have hasked : w.expectedReads = destination.expectedReads edge := by cases hbuffers; rfl
  obtain ⟨reads, hreads, hexpected⟩ := hedge.expectedReads
  rw [hreads] at hasked
  rw [hid] at hfiles hledger ⊢
  obtain ⟨_, s', hclose, b, c, es, hblank, htracked, -, hsettled⟩ :=
    close_buffers hbuffers hedge hreads hfiles hestimator hxs
  have hgrant := Pool.reserve_iff hnonneg (.of edge.id task) c
  cases hsettled with
  | @admitted e' hgranted hpool hregisters =>
    obtain ⟨-, -, hreplacements, block, -, -, hblocks⟩ := hregisters
    refine ⟨c, _, e', block, _, htracked, hclose, hblocks, hasked, hexpected, rfl, ?_⟩
    rw [if_pos (hgrant.mp hgranted)]
    refine ⟨hdeclared.symm, rfl, ?_, ?_, rfl, ?_⟩
    · rw [hid, hpool]
      exact Pool.reserve_charged hnonneg hledger hgranted
    · cases store with
      | memory | serializedMemory | localFile => cases hstore
      | memoryFile | serializedMemoryFile => rfl
    · rw [hreplacements, List.append_nil]
  | @spilled e' hrefused hpool hregisters =>
    obtain ⟨-, -, hreplacements, block, -, -, hblocks⟩ := hregisters
    refine ⟨c, _, e', block, _, htracked, hclose, hblocks, hasked, hexpected, rfl, ?_⟩
    have hlarge : ¬ (c.toNat : Int) < e.pool.remaining.toInt := by
      rw [← hgrant, hrefused]
      exact Bool.false_ne_true
    rw [if_neg hlarge]
    exact ⟨rfl, by rw [hid], hpool, rfl, rfl, by rw [hid, hdeclared, hreplacements]⟩

/-- One element on an edge between single tasks, with a pool of a hundred bytes. -/
theorem close_settles_seven :
    let edge : Edge := {
      id := ⟨"e"⟩
      store := some .serializedMemoryFile
      pattern := some .oneToOne
      persistence := some .discard }
    let e : Executor UInt64 := {
      registry := { medium := { codec := .json } }
      pool := .ofCapacity 100
      estimator := .ofOptions {} }
    ∃ w : Writer UInt32 UInt64, Written ⟨"t"⟩ edge ⟨⟨"v"⟩, none⟩ .intact [7] w ∧
      (close (w, e)).1 = .ok () := by
  intro edge e
  have hedge : edge.Complete ⟨⟨"v"⟩, none⟩ .serializedMemoryFile .oneToOne .discard :=
    ⟨rfl, rfl, rfl, rfl, by decide⟩
  have hestimator : e.estimator.Usable := SizeEstimator.usable_ofOptions (by decide)
  obtain ⟨w, e', hmake, -, -⟩ :=
    make_buffers_yields ⟨"t"⟩ .intact hedge rfl (by decide) hestimator
  have hw := Written.wrote 7 e (.made hmake)
  have hid : (write 7 (w, e)).2.1.id = ⟨"e-t"⟩ := (hw.buffers hedge rfl).id
  have hfiles : Spacious (write 7 (w, e)).2.1.id e := by
    rw [hid]
    exact ⟨rfl, .of_unnamed rfl, by decide⟩
  have hxs : ∀ x ∈ [7], e.registry.medium.codec.Encodes x := by
    intro x hx earlier
    rw [List.mem_singleton.mp hx]
    exact ⟨_, rfl, by decide⟩
  have hledger : ((e.pool.charged? (write 7 (w, e)).2.1.id).getD 0).toNat +
      e.pool.remaining.toInt < 2 ^ 64 := by
    rw [hid]
    decide
  obtain ⟨c, w', e'', block, info, -, hclose, -⟩ :=
    close_settles hw hedge rfl hfiles hestimator hxs (by decide) hledger
  exact ⟨_, hw, by rw [hclose]⟩

end Writer

end ShuffleBuffer
