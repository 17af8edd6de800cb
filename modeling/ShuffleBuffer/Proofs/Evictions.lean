import ShuffleBuffer.Proofs.Ledger

/-! # Evictions

Where removals give charges back, only registered blocks are charged, so when no block is registered
any more the whole budget is there again, whatever was written, refused, retried and removed before.
An executor made from a configuration has a registry that gives nothing back, and keeps the charges
of blocks that are gone. -/

namespace ShuffleBuffer

open Estimate Step

variable {σ α : Type}

namespace Executor

/-- The executor, with a registry that gives charges back to its pool. -/
def givingBack (e : Executor α) : Executor α :=
  { e with registry := { e.registry with returnsCharges := true } }

/-- What is charged is registered. -/
structure Backed (e : Executor α) : Prop where
  returns : e.registry.returnsCharges = true
  registered : ∀ id, e.registry.entry? id = none → e.pool.charged? id = none

variable {e e' : Executor α}

theorem Backed.same (he : e.Backed) (h : sameBooks.rel e e') : e'.Backed := by
  refine ⟨h.returns.trans he.returns, fun id hnone => ?_⟩
  rw [Registry.entry?, h.blocks] at hnone
  rw [h.pool]
  exact he.registered id hnone

theorem removeBlock_backed (id : BlockId) (he : e.Backed) : (removeBlock id e).2.Backed := by
  obtain ⟨-, hsame⟩ | ⟨removed, -, hremoved⟩ := removeBlock_cases id e
  · rw [hsame]
    exact he
  · rw [hremoved, if_pos he.returns]
    refine ⟨he.returns, fun other hnone => ?_⟩
    show (e.pool.releaseBlock id).2.charged? other = none
    rw [Pool.charged_releaseBlock]
    split
    · rfl
    · next hother => exact he.registered other ((lookup_filter_ne _ hother).symm.trans hnone)

/-- The name is not registered any more, and nothing becomes of the others. -/
theorem blocks_removeBlock (id : BlockId) (e : Executor α) :
    (removeBlock id e).2.registry.blocks = e.registry.blocks.filter (·.1 ≠ id) := by
  obtain ⟨hnone, hsame⟩ | ⟨removed, -, hremoved⟩ := removeBlock_cases id e
  · rw [hsame]
    exact (filter_of_lookup_none hnone).symm
  · rw [hremoved]

/-- Whether removals give charges back is as it was. -/
def sameReturns : Change (Executor α) where
  rel e e' := e'.registry.returnsCharges = e.registry.returnsCharges
  refl _ := rfl
  trans h h' := h'.trans h

theorem neutral_sameReturns :
    Neutral (fun _ => True) (fun _ => True) (sameReturns (α := α)) fun _ _ => True where
  stable _ := fun _ h => h
  steady := fun _ h => h
  suited h := h
  metrics _ _ := rfl
  estimate _ _ _ := rfl
  create store hid :=
    Along.mono (R := sameBooks) (fun _ _ h => Books.returns h) (quiet_sameBooks.create store hid)
  write _ _ _ := Along.of_rel fun _ _ => rfl
  commitPartitions _ := Along.of_rel fun _ _ => rfl
  commit _ := Along.of_rel fun _ _ => rfl
  spill _ := Along.of_rel fun _ _ => rfl
  release _ := rfl
  register block _ _ _ _ := Along.of_rel fun e _ => by
    simp only [register, ask, bind_apply, Step.modify, onRegistry, within, Registry.register,
      Step.ofExcept]
    cases block.require .register .committed with
    | ok _ => rfl
    | error _ => rfl
  replace _ _ _ := Along.of_rel fun e _ => by
    simp only [putSpilled, ask, bind_apply, Step.modify, onRegistry, within, Registry.putSpilled]
    split
    · rfl
    · rfl

/-- A valid configuration makes an executor with its pool and nothing registered. -/
theorem ofConfig_of_valid {c : Config} (hvalid : c.validate = .ok ()) (medium : Medium α) :
    ∃ e, ofConfig c medium = .ok e ∧ e.pool = .ofCapacity c.memory.storageBytes ∧
      e.registry.blocks = [] := by
  have hparts := Config.parts_of_valid hvalid
  let e : Executor α := {
    registry := { medium }
    pool := c.pool
    estimator := .ofOptions c.estimator
    tracker := c.tracker }
  refine ⟨e, ?_, rfl, rfl⟩
  simp only [ofConfig, SizeEstimator.make, hparts.1, hparts.2, bind, Except.bind]
  rfl

end Executor

namespace Writer

open Executor

variable [Measured α] {w : Writer σ α} {e : Executor α}

/-- A block is charged only where it is entered into the registry at the same time. -/
theorem close_backed (hstate : w.state = .writing) (htended : w.Tended) (he : e.Backed) :
    Leads (· = (w, e)) close (fun _ s => s.2.Backed) fun s => s.2.Backed := by
  refine Leads.weaken (close_enters hstate htended e) (fun _ h => h) ?_ ?_
  · intro _ s hs
    obtain ⟨store, -, hs⟩ := hs
    have hothers : ∀ id, id ≠ w.id → s.2.registry.entry? id = e.registry.entry? id :=
      fun _ hother => hs.entry_ne hother
    obtain ⟨block, info, -, ⟨hpool, hblocks, hreturns⟩, -⟩ := hs
    refine ⟨hreturns.trans he.returns, fun id hnone => ?_⟩
    have hother : id ≠ w.id := by
      intro hsame
      rw [Registry.entry?, hblocks, hsame, List.lookup_cons_self] at hnone
      cases hnone
    have hbefore := he.registered id ((hothers id hother).symm.trans hnone)
    rw [hpool]
    cases hadmission : w.admission e.pool with
    | none => exact hbefore
    | some size =>
      show (e.pool.reserve w.id size).2.charged? id = none
      rw [Pool.charged_reserve (granted_of_admission hadmission), if_neg hother]
      exact hbefore
  · intro s hs
    obtain ⟨size, hs | ⟨hgranted, hs⟩⟩ := hs
    · exact he.same hs.1
    · obtain ⟨⟨hpool, hblocks, hreturns⟩, -⟩ := hs
      refine ⟨hreturns.trans he.returns, fun id hnone => ?_⟩
      rw [Registry.entry?, hblocks] at hnone
      rw [hpool, Pool.charged_releaseBlock, Pool.charged_reserve hgranted]
      split
      · rfl
      · exact he.registered id hnone

end Writer

namespace Session

open Executor

variable [Measured α] {s : Session σ α}

theorem close_backed {name : String} (hs : s.executor.Backed) (htidy : s.Tidy fun _ => True) :
    (perform (.close name) s).2.executor.Backed := by
  cases hw : s.writer? name with
  | none => simpa [perform, callWriter, hw] using hs
  | some w =>
    simp only [perform, callWriter, hw, Option.getD_some]
    show (Writer.close (w, s.executor)).2.2.Backed
    cases hclosable : w.closable with
    | false =>
      rw [Writer.close_idle hclosable]
      exact hs
    | true =>
      have hclose := Writer.close_backed (Writer.closable_state hclosable) (htidy trivial hw) hs
      exact Leads.apply (E := fun s' : Writer σ α × Executor α => s'.2.Backed) hclose rfl

/-- No call leaves a charge for a block that is not registered. -/
theorem perform_backed (call : Call σ α) (hs : s.executor.Backed) (htidy : s.Tidy fun _ => True) :
    (perform call s).2.executor.Backed := by
  have hall := Holders.everywhere s
  cases call with
  | openWriter name task edge destination p =>
    exact hs.same (openWriter_follows quiet_sameBooks hall trivial task edge trivial destination
      p).executor
  | write name x => exact hs.same (write_follows quiet_sameBooks hall trivial x).executor
  | close name => exact close_backed hs htidy
  | drop name => exact hs.same (dropWriter_follows quiet_sameBooks hall trivial).executor
  | removeBlock id =>
    rw [perform_removeBlock]
    exact removeBlock_backed id hs
  | disturb dir => exact hs.same ⟨rfl, rfl, rfl⟩

theorem run_backed {calls : List (Call σ α)} (hs : s.executor.Backed)
    (htidy : s.Tidy fun _ => True) : (s.run calls).executor.Backed := by
  induction calls generalizing s with
  | nil => exact hs
  | cons call calls ih => exact ih (perform_backed call hs htidy) ((run_traced s [call]).tidy htidy)

/-- The removal of every block that is registered. -/
def evictions (s : Session σ α) : List (Call σ α) :=
  s.executor.registry.blocks.map fun entry => .removeBlock entry.1

theorem blocks_run_removeBlock (ids : List BlockId) (s : Session σ α) :
    (s.run (ids.map .removeBlock)).executor.registry.blocks =
      s.executor.registry.blocks.filter fun entry => entry.1 ∉ ids := by
  induction ids generalizing s with
  | nil => simp [run_nil]
  | cons id ids ih =>
    rw [List.map_cons, run_cons, ih, perform_removeBlock]
    show (removeBlock id s.executor).2.registry.blocks.filter _ = _
    rw [blocks_removeBlock, List.filter_filter]
    refine List.filter_congr fun entry _ => ?_
    simp [not_or, Bool.and_comm]

theorem blocks_evictions (s : Session σ α) :
    (s.run s.evictions).executor.registry.blocks = [] := by
  have hids : s.evictions = (s.executor.registry.blocks.map Prod.fst).map .removeBlock := by
    rw [List.map_map]
    rfl
  rw [hids, blocks_run_removeBlock]
  refine List.filter_eq_nil_iff.mpr fun entry hentry => ?_
  simpa using ⟨_, hentry⟩

/-- Where nothing is registered after a run, everything is left of the pool that it began with. -/
theorem run_frees {capacity : UInt64} (calls : List (Call σ α))
    (hpool : s.executor.pool = .ofCapacity capacity) (hs : s.executor.Backed)
    (htidy : s.Tidy fun _ => True) (hempty : (s.run calls).executor.registry.blocks = []) :
    (s.run calls).executor.pool.remaining = s.executor.pool.remaining ∧
      (s.run calls).executor.pool.charges = [] := by
  have hbacked : (s.run calls).executor.Backed := run_backed hs htidy
  have hcharges : (s.run calls).executor.pool.charges = [] := by
    refine eq_nil_of_lookup_none fun id => hbacked.registered id ?_
    rw [Registry.entry?, hempty]
    rfl
  have hstart : s.executor.pool.Balanced capacity := hpool ▸ Pool.balanced_ofCapacity capacity
  have hbefore := hstart.counter
  have hafter := (run_keeps_balance calls s hstart).counter
  simp only [Pool.charged, hpool, Pool.ofCapacity, hcharges, List.map_nil, List.sum_nil]
    at hbefore hafter
  refine ⟨Int64.toInt_inj.mp ?_, hcharges⟩
  rw [hpool]
  show _ = (signedAmount capacity).toInt
  omega

/-- Once every block is removed that was registered, in an executor of any valid configuration whose
registry gives charges back, as much is left of the storage memory as before the first writer, and no
block is charged. -/
theorem run_evicts_all {c : Config} (hvalid : c.validate = .ok ()) (medium : Medium α) :
    ∃ e : Executor α, Executor.ofConfig c medium = .ok e ∧ ∀ calls : List (Call σ α),
      let start : Session σ α := { executor := e.givingBack }
      let s := start.run calls
      let s' := s.run s.evictions
      (s.executor.registry.blocks = [] →
        s.executor.pool.remaining = e.pool.remaining ∧ s.executor.pool.charges = []) ∧
      s'.executor.registry.blocks = [] ∧
      s'.executor.pool.remaining = e.pool.remaining ∧ s'.executor.pool.charges = [] := by
  obtain ⟨e, he, hpool, hblocks⟩ := Executor.ofConfig_of_valid hvalid medium
  refine ⟨e, he, fun calls => ?_⟩
  intro start s s'
  have hbacked : start.executor.Backed := by
    refine ⟨rfl, fun id _ => ?_⟩
    show e.pool.charged? id = none
    rw [hpool]
    rfl
  have hfrees : ∀ calls : List (Call σ α), (start.run calls).executor.registry.blocks = [] →
      (start.run calls).executor.pool.remaining = e.pool.remaining ∧
        (start.run calls).executor.pool.charges = [] :=
    fun calls => run_frees calls hpool hbacked nofun
  have hempty : s'.executor.registry.blocks = [] := blocks_evictions s
  have hrun : s' = start.run (calls ++ s.evictions) := (run_append _ _ _).symm
  refine ⟨hfrees calls, hempty, ?_⟩
  rw [hrun] at hempty ⊢
  exact hfrees _ hempty

/-- Half of two MiB is for storage; a block of it is charged and removed. -/
theorem run_evicts_all_single :
    let c : Config := { memory := { executorMemory := 2 } }
    let edge : Edge := {
      id := ⟨"e"⟩
      store := some .memoryFile
      pattern := some .oneToOne
      persistence := some .keep }
    let calls : List (Call UInt32 UInt64) :=
      [.openWriter "w" ⟨"t"⟩ edge ⟨⟨"v"⟩, none⟩ .intact, .write "w" 7, .close "w"]
    ∃ e : Executor UInt64, Executor.ofConfig c { codec := .json } = .ok e ∧
      let s := Session.run { executor := e.givingBack } calls
      (s.run s.evictions).executor.pool.remaining = 1048576 := by
  intro c edge calls
  have hvalid : c.validate = .ok () := by
    have hratio : ¬¬((0.0 : Float) < c.memory.storageRatio ∧ c.memory.storageRatio ≤ 1.0) :=
      not_not.mpr (by decide +kernel)
    have hestimator : c.estimator.validate = .ok () := by decide +kernel
    have htracker : c.tracker.validate = .ok () := by decide +kernel
    rw [Config.validate, if_neg (by decide), if_neg hratio, hestimator, htracker]
  let medium : Medium UInt64 := { codec := .json }
  obtain ⟨e, he, hrun⟩ := run_evicts_all (σ := UInt32) hvalid medium
  have hpool : (Executor.ofConfig c medium).map (·.pool.remaining) = .ok 1048576 := by
    decide +kernel
  rw [he] at hpool
  exact ⟨e, he, (hrun calls).2.2.1.trans (Except.ok.inj hpool)⟩

omit [Measured α] in
theorem within_sameReturns (call : Call σ α) :
    call.Within (fun _ => True) (fun _ => True) (fun _ => True) sameReturns := by
  refine call.within_all (fun id e => ?_) fun _ _ => rfl
  obtain ⟨-, hsame⟩ | ⟨removed, -, hremoved⟩ := removeBlock_cases id e
  · rw [hsame]
    exact sameReturns.refl e
  · rw [hremoved]
    exact sameReturns.refl e

/-- Where removals do not give charges back at first, none ever does: they leave the pool alone. -/
theorem run_removeBlock_pool (hs : s.executor.registry.returnsCharges = false)
    (calls : List (Call σ α)) (id : BlockId) :
    (perform (.removeBlock id) (s.run calls)).2.executor.pool = (s.run calls).executor.pool := by
  have hfollows : Follows _ _ _ sameReturns _ s (s.run calls) :=
    run_follows neutral_sameReturns (fun _ _ => rfl) (.everywhere s)
      fun call _ => within_sameReturns call
  have hreturns : (s.run calls).executor.registry.returnsCharges = false :=
    hfollows.executor.trans hs
  rw [perform_removeBlock]
  obtain ⟨-, hsame⟩ | ⟨removed, -, hremoved⟩ := removeBlock_cases id (s.run calls).executor
  · exact congrArg Executor.pool hsame
  · rw [hremoved, hreturns]
    rfl

/-- As configured, the charge of a removed block stays. -/
theorem configured_keeps_charge :
    let c : Config := { memory := { executorMemory := 2 } }
    let edge : Edge := {
      id := ⟨"e"⟩
      store := some .memoryFile
      pattern := some .oneToOne
      persistence := some .keep }
    let calls : List (Call UInt32 UInt64) :=
      [.openWriter "w" ⟨"t"⟩ edge ⟨⟨"v"⟩, none⟩ .intact, .write "w" 7, .close "w"]
    (Executor.ofConfig c { codec := .json }).toOption.map (fun e : Executor UInt64 =>
      let s := Session.run { executor := e } calls
      let s' := s.run s.evictions
      (e.pool.remaining, s'.executor.registry.blocks.length, s'.executor.pool.remaining,
        s'.executor.pool.charged? ⟨"e-t"⟩)) = some (1048576, 0, 1048464, some 112) := by
  decide +kernel

end Session

end ShuffleBuffer
