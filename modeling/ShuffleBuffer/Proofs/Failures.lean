import ShuffleBuffer.Proofs.Ledger

/-! # Failed closes

A close may fail at the checks, on the way into an admitted block or on the way into a file. What it
offered to the pool is taken back: nothing is charged that was not, and as much is left as before.
Taking back a granted offer gives back everything that is charged under the name, so this holds only
where nothing was, and a task that comes again while its first block is charged and fails then leaves
that block in memory without a charge. -/

namespace ShuffleBuffer

open Estimate Step

variable {σ α : Type}

namespace Pool

variable {p p' : Pool} {id : BlockId} {amount : UInt64}

/-- A first charge that is given back at once leaves no trace, also where the counter wraps. -/
theorem releaseBlock_reserve (hgranted : (p.reserve id amount).1 = true)
    (hfirst : p.charged? id = none) : ((p.reserve id amount).2.releaseBlock id).2 = p := by
  have hcharged : (p.reserve id amount).2.charged? id = some amount := by
    rw [charged_reserve hgranted, if_pos rfl, hfirst, Option.getD_none, UInt64.zero_add]
  rw [releaseBlock_of_charged hcharged, reserve_granted hgranted, withdraw_charge]
  have hkept : (p.acquire amount).2.withdraw id = (p.acquire amount).2 :=
    withdraw_of_uncharged hfirst
  rw [hkept, release_acquire]

/-- Other blocks are charged what they were. -/
theorem Reverts.charged_ne {size : Option UInt64} (h : p.Reverts id size p') {other : BlockId}
    (hother : other ≠ id) : p'.charged? other = p.charged? other := by
  cases h with
  | same => rfl
  | withdrawn _ hgranted =>
    rw [charged_releaseBlock, if_neg hother, charged_reserve hgranted, if_neg hother]

theorem Reverts.eq_of_first {size : Option UInt64} (h : p.Reverts id size p')
    (hfirst : ∀ amount, size = some amount → (p.reserve id amount).1 = true →
      p.charged? id = none) : p' = p := by
  cases h with
  | same => rfl
  | withdrawn hsize hgranted => exact releaseBlock_reserve hgranted (hfirst _ hsize hgranted)

end Pool

namespace Session

variable [Measured α]

/-- A close that fails leaves the pool as it was, unless the name was charged before and the pool
admits the block once more; all other names are charged what they were in any case. -/
theorem close_takes_back {s : Session σ α} {name : String} {w : Writer σ α} {fault : Fault}
    (hw : s.writer? name = some w) (hfails : (perform (.close name) s).1 = .error fault) :
    let p := s.executor.pool
    let p' := (perform (.close name) s).2.executor.pool
    (∀ id, id ≠ w.id → p'.charged? id = p.charged? id) ∧
    ((w.closable = true → (w.admission p).isSome = true → p.charged? w.id = none) → p' = p) := by
  rw [perform_close hw] at hfails ⊢
  intro p p'
  have hreverts : p.Reverts w.id w.trackedSize p' :=
    (Writer.close_reverts w s.executor).fails rfl hfails
  refine ⟨fun id hother => hreverts.charged_ne hother, fun hfirst => ?_⟩
  cases hclosable : w.closable with
  | false =>
    show (Writer.close (w, s.executor)).2.2.pool = _
    rw [Writer.close_idle hclosable]
  | true =>
    refine hreverts.eq_of_first fun size hsize hgranted => hfirst hclosable ?_
    rw [Writer.admission, hsize, Option.filter_some, if_pos hgranted]
    rfl

/-- The second encoding fails: a task whose block is not charged yet gets back what it offered. -/
theorem close_takes_back_second_task :
    let edge : Edge := {
      id := ⟨"e"⟩
      store := some .serializedMemoryFile
      pattern := some .oneToOne
      persistence := some .keep }
    let e : Executor UInt64 := {
      registry := { medium := { codec := Codec.json.failingEncode 2 }, returnsCharges := true }
      pool := .ofCapacity 1000
      estimator := .ofOptions {} }
    let produce (name : String) (task : TaskId) (x : UInt64) : List (Call UInt32 UInt64) :=
      [.openWriter name task edge ⟨⟨"v"⟩, none⟩ .intact, .write name x]
    let s := Session.run { executor := e } (produce "w" ⟨"t"⟩ 7 ++ [.close "w"] ++ produce "x" ⟨"u"⟩ 8)
    let s' := (perform (.close "x") s).2
    s'.executor.pool = s.executor.pool ∧ s'.executor.pool.charged? ⟨"e-t"⟩ = some 112 := by
  intro edge e produce s s'
  have hnamed : (s.writer? "x").map Writer.id = some ⟨"e-u"⟩ := by decide +kernel
  obtain ⟨w, hw, hid⟩ := Option.map_eq_some_iff.mp hnamed
  have hfails : (perform (.close "x") s).1 = .error .codec := by decide +kernel
  have hback := (close_takes_back hw hfails).2 fun _ _ => by
    rw [hid]
    decide +kernel
  exact ⟨hback, by decide +kernel⟩

/-- A task that comes again and fails takes the charge of its committed block along. -/
theorem retried_failure_discharges :
    let edge : Edge := {
      id := ⟨"e"⟩
      store := some .serializedMemoryFile
      pattern := some .oneToOne
      persistence := some .keep }
    let e : Executor UInt64 := {
      registry := { medium := { codec := Codec.json.failingEncode 2 }, returnsCharges := true }
      pool := .ofCapacity 1000
      estimator := .ofOptions {} }
    let produce (name : String) (x : UInt64) : List (Call UInt32 UInt64) :=
      [.openWriter name ⟨"t"⟩ edge ⟨⟨"v"⟩, none⟩ .intact, .write name x]
    let s := Session.run { executor := e } (produce "w" 7 ++ [.close "w"] ++ produce "x" 8)
    let s' := (perform (.close "x") s).2
    (perform (.close "x") s).1 = .error .codec ∧
    s.executor.pool.charged? ⟨"e-t"⟩ = some 112 ∧ s.executor.pool.remaining = 888 ∧
    s'.executor.pool.charged? ⟨"e-t"⟩ = none ∧ s'.executor.pool.remaining = 1000 ∧
    (s'.executor.registry.info? ⟨"e-t"⟩).map (·.store) = some .serializedMemoryFile := by
  decide +kernel

end Session

end ShuffleBuffer
