import ShuffleBuffer.Element
import ShuffleBuffer.Proofs.Sessions

/-! # The ledger and the registry

The ledger of the pool charges by name and adds up, while the registry replaces by name. They agree
as long as no writer is closed while an admitted block is registered under its name: then each name
is charged what its registered block was admitted with, and nothing if it has none or one that was
never offered or never admitted. -/

namespace ShuffleBuffer

open Estimate Step

variable {σ α : Type}

namespace Pool

variable {p : Pool} {id : BlockId} {amount : UInt64}

theorem charged_reserve (hgranted : (p.reserve id amount).1 = true) (other : BlockId) :
    (p.reserve id amount).2.charged? other =
      if other = id then some ((p.charged? id).getD 0 + amount) else p.charged? other := by
  rw [reserve_granted hgranted]
  split
  · next hsame =>
    rw [hsame]
    exact charged_charge_self p id amount
  · next hother => exact charged_charge_ne hother

theorem charged_releaseBlock (p : Pool) (id other : BlockId) :
    (p.releaseBlock id).2.charged? other = if other = id then none else p.charged? other := by
  unfold releaseBlock
  split
  · split
    · next hsame =>
      rw [hsame]
      exact lookup_filter_self _ _
    · next hother => exact lookup_filter_ne _ hother
  · next hnone =>
    split
    · next hsame => rw [hsame, hnone]
    · rfl

end Pool

namespace Executor

/-- What is charged, what is registered, and whether removals give charges back. -/
structure Books (p : Pool) (blocks : List (BlockId × RegisteredBlock α)) (returns : Bool)
    (e : Executor α) : Prop where
  pool : e.pool = p
  blocks : e.registry.blocks = blocks
  returns : e.registry.returnsCharges = returns

/-- Nothing is charged, given back or registered. -/
def sameBooks : Change (Executor α) where
  rel e e' := Books e.pool e.registry.blocks e.registry.returnsCharges e'
  refl _ := ⟨rfl, rfl, rfl⟩
  trans h h' := ⟨h'.pool.trans h.pool, h'.blocks.trans h.blocks, h'.returns.trans h.returns⟩

theorem quiet_sameBooks :
    Quiet (fun _ => True) (fun _ => True) (sameBooks (α := α)) fun _ _ => True where
  stable _ := fun _ h => h
  steady := fun _ h => h
  suited h := h
  metrics _ _ := ⟨rfl, rfl, rfl⟩
  estimate _ _ _ := ⟨rfl, rfl, rfl⟩
  create {id} store _ := by
    refine Along.of_rel fun e _ => ?_
    cases store with
    | memory | memoryFile | serializedMemory | serializedMemoryFile => exact ⟨rfl, rfl, rfl⟩
    | localFile =>
      simp only [createBlock, ask, bind_apply, Step.modify, onRegistry, Registry.createBlock,
        Registry.onMedium, within]
      cases Block.ofFile (α := α) id .localFile e.registry.medium with
      | mk result medium =>
        cases result with
        | ok b => exact ⟨rfl, rfl, rfl⟩
        | error fault => exact ⟨rfl, rfl, rfl⟩
  write _ _ _ := Along.of_rel fun _ _ => ⟨rfl, rfl, rfl⟩
  commitPartitions _ := Along.of_rel fun _ _ => ⟨rfl, rfl, rfl⟩
  commit _ := Along.of_rel fun _ _ => ⟨rfl, rfl, rfl⟩
  spill _ := Along.of_rel fun _ _ => ⟨rfl, rfl, rfl⟩
  release _ := ⟨rfl, rfl, rfl⟩

end Executor

namespace Writer

open Executor

variable {p : Pool} {blocks : List (BlockId × RegisteredBlock α)} {returns : Bool} {id : BlockId}
  {β : Type}

/-- The size with which a pool admits the block of a writer, if it is offered and not refused. -/
def admission (w : Writer σ α) (p : Pool) : Option UInt64 :=
  w.trackedSize.filter fun size => (p.reserve w.id size).1

/-- Whether a close gets to the block of the writer. -/
def closable (w : Writer σ α) : Bool :=
  w.state = .writing ∧ w.edge.requiredPersistence.isOk ∧ w.expectedReads.isOk ∧ w.block.isSome

/-- What a close asks before it gets to the block, and the block. -/
theorem of_closable {w : Writer σ α} (h : w.closable = true) :
    ∃ persistence reads block, w.state = .writing ∧ w.edge.persistence = some persistence ∧
      w.expectedReads = .ok reads ∧ w.block = some block := by
  obtain ⟨hstate, hpersistence, hreads, hblock⟩ := of_decide_eq_true h
  obtain ⟨block, hblock⟩ := Option.isSome_iff_exists.mp hblock
  cases hfield : w.edge.persistence with
  | none =>
    simp [Edge.requiredPersistence, Edge.require, hfield, Except.isOk, Except.toBool] at hpersistence
  | some persistence =>
    cases hasked : w.expectedReads with
    | error fault => simp [hasked, Except.isOk, Except.toBool] at hreads
    | ok reads => exact ⟨persistence, reads, block, hstate, rfl, rfl, hblock⟩

theorem closable_state {w : Writer σ α} (h : w.closable = true) : w.state = .writing :=
  (of_decide_eq_true h).1

/-- The books, next to a writer of a block with this name. -/
def Keeps (p : Pool) (blocks : List (BlockId × RegisteredBlock α)) (returns : Bool) (id : BlockId)
    (s : Writer σ α × Executor α) : Prop :=
  Books p blocks returns s.2 ∧ s.1.id = id

/-- A block of a store is registered under a name. -/
def Enters (p : Pool) (blocks : List (BlockId × RegisteredBlock α)) (returns : Bool)
    (id entered : BlockId) (store : StoreKind) (s : Writer σ α × Executor α) : Prop :=
  ∃ (block : Block α) (info : BlockInfo), info.store = store ∧
    Keeps p ((entered, ⟨block, info⟩) :: blocks.filter (·.1 ≠ entered)) returns id s

theorem keeps_along {x : Step (Writer σ α × Executor α) β} {C : β → Prop}
    (hx : Along (beside quiet_sameBooks) (fun _ => True) x fun a _ => C a) :
    Leads (Keeps p blocks returns id) x (fun a s => C a ∧ Keeps p blocks returns id s)
      (Keeps p blocks returns id) := by
  intro s hs
  have hafter : ∀ s', (beside quiet_sameBooks).rel s s' → Keeps p blocks returns id s' :=
    fun s' h => ⟨⟨h.executor.pool.trans hs.1.pool, h.executor.blocks.trans hs.1.blocks,
      h.executor.returns.trans hs.1.returns⟩, h.id.trans hs.2⟩
  exact Leads.weaken (hx s trivial) (fun _ h => h) (fun _ s' h => ⟨h.2, hafter s' h.1⟩)
    (fun s' h => hafter s' h) s rfl

theorem count_keeps (f : Metrics → Metrics) {E : Writer σ α × Executor α → Prop} :
    Leads (Keeps p blocks returns id) (onExecutor (count f)) (fun _ => Keeps p blocks returns id)
      E :=
  fun _ hs => ⟨⟨hs.1.pool, hs.1.blocks, hs.1.returns⟩, hs.2⟩

theorem register_enters (block : Block α) (store : StoreKind) (reads : UInt32)
    (persistence : Persistence) :
    Leads (Keeps p blocks returns id)
      (onExecutor (σ := σ) (register block store reads persistence))
      (fun _ => Enters p blocks returns id block.id store) (Keeps p blocks returns id) := by
  intro s hs
  simp only [onExecutor, within, register, ask, bind_apply, Step.modify, onRegistry,
    Registry.register, Step.ofExcept]
  cases block.require .register .committed with
  | error fault => exact ⟨⟨hs.1.pool, hs.1.blocks, hs.1.returns⟩, hs.2⟩
  | ok _ =>
    refine ⟨block, ⟨store, reads, persistence, block.location⟩, rfl,
      ⟨hs.1.pool, ?_, hs.1.returns⟩, hs.2⟩
    show _ :: s.2.registry.blocks.filter (·.1 ≠ block.id) = _
    rw [hs.1.blocks]

theorem commit_enters (block : Block α) (store : StoreKind) (reads : UInt32)
    (persistence : Persistence) :
    Leads (Keeps p blocks returns id) (commit (σ := σ) block store reads persistence)
      (fun _ => Enters p blocks returns id block.id store) (Keeps p blocks returns id) := by
  refine Leads.bind (keeps_along (C := fun r => block.Like r.2.block) ?_) fun r => ?_
  · exact onExecutor_along (Along.weaken ((quiet_sameBooks.commit block).both
      (commit_becomes block)) (fun _ h => h) fun _ _ h => h.1.like)
  refine Leads.given fun hlike => ?_
  refine Leads.bind (Q := fun _ => Keeps p blocks returns id)
    (Leads.ofExcept (fun _ _ _ hs => hs) fun _ hs => hs) fun _ => ?_
  refine Leads.bind (Q := fun _ => Keeps p blocks returns id) (Leads.modify fun _ hs => hs) ?_
  intro _
  refine Leads.bind (count_keeps _) fun _ => ?_
  refine Leads.bind (register_enters r.2.block store reads persistence) fun _ => Leads.modify ?_
  intro s hs
  rw [hlike.id] at hs
  exact hs

theorem fill_enters (w : Writer σ α) (block : Block α) (elements : List α) (reads : UInt32)
    (persistence : Persistence) :
    Leads (Keeps p blocks returns id) (fill w block elements reads persistence)
      (fun _ => Enters p blocks returns id block.id w.store) (Keeps p blocks returns id) := by
  refine Leads.bind (keeps_along (C := fun b => block.Like b) ?_) fun b => Leads.given fun hb => ?_
  · exact onExecutor_along (Along.weaken (putAll_along quiet_sameBooks.toFilling _ _ _) (fun _ h => h)
      fun _ _ h => h.1)
  · rw [← hb.id]
    exact commit_enters b w.store reads persistence

theorem spill_enters (w : Writer σ α) (block : Block α) (elements : List α) (reads : UInt32)
    (persistence : Persistence) :
    Leads (Keeps p blocks returns id) (spill w block elements reads persistence)
      (fun _ => Enters p blocks returns id w.id .localFile) (Keeps p blocks returns id) := by
  refine Leads.bind (keeps_along (C := fun _ => True) ?_) fun _ => Leads.given fun _ => ?_
  · exact onExecutor_along (Along.weaken (quiet_sameBooks.spill block) (fun _ h => h)
      fun _ _ h => h)
  refine Leads.bind (keeps_along (C := fun b => b.id = w.id) ?_) fun fallback =>
    Leads.given fun hfallback => ?_
  · exact onExecutor_along (Along.weaken ((quiet_sameBooks.create .localFile trivial).both
      (createBlock_named w.id .localFile)) (fun _ h => h) fun _ _ h => h.1)
  refine Leads.bind (keeps_along (C := fun b => fallback.Like b) ?_) fun b =>
    Leads.given fun hb => ?_
  · exact onExecutor_along (Along.weaken (putAll_along quiet_sameBooks.toFilling _ _ _) (fun _ h => h)
      fun _ _ h => h.1)
  refine Leads.bind (commit_enters b .localFile reads persistence) fun _ => ?_
  rw [hb.id, hfallback]
  -- the twin was just registered, so its replacement can be told
  intro s hs
  obtain ⟨entered, info, hinfo, hbooks, hid⟩ := hs
  have htold : (s.2.registry.info? w.id).map (·.store) = some .localFile := by
    rw [Registry.info?, Registry.entry?, hbooks.blocks, List.lookup_cons_self]
    exact congrArg some hinfo
  simp only [bind_apply, onExecutor, within, putSpilled, ask, Step.modify, onRegistry,
    Registry.putSpilled]
  rw [if_pos htold]
  exact ⟨entered, info, hinfo, ⟨hbooks.pool, hbooks.blocks, hbooks.returns⟩, hid⟩

/-- What a buffer comes to: an admitted block that is charged, or a file that is not. -/
def Settles (p : Pool) (blocks : List (BlockId × RegisteredBlock α)) (returns : Bool)
    (w : Writer σ α) (candidate : UInt64) (s : Writer σ α × Executor α) : Prop :=
  (p.reserve w.id candidate).1 = true ∧
    Enters (p.reserve w.id candidate).2 blocks returns w.id w.id w.store s ∨
  (p.reserve w.id candidate).1 = false ∧ Enters p blocks returns w.id w.id .localFile s

/-- Nothing comes of a buffer, but a granted offer that is taken back takes all charges of the name
with it. -/
def Fails (p : Pool) (blocks : List (BlockId × RegisteredBlock α)) (returns : Bool)
    (w : Writer σ α) (candidate : UInt64) (s : Writer σ α × Executor α) : Prop :=
  Keeps p blocks returns w.id s ∨ (p.reserve w.id candidate).1 = true ∧
    Keeps ((p.reserve w.id candidate).2.releaseBlock w.id).2 blocks returns w.id s

theorem pooled_keeps : Pooled fun p (s : Writer σ α × Executor α) => Keeps p blocks returns id s :=
  ⟨fun hs => hs.1.pool, fun _ hs => ⟨⟨rfl, hs.1.blocks, hs.1.returns⟩, hs.2⟩,
    fun _ hs => ⟨⟨hs.1.pool, hs.1.blocks, hs.1.returns⟩, hs.2⟩⟩

-- Or else its body is opened over and over, here as for any change.
attribute [local irreducible] takeElements

theorem settle_enters [Measured α] (w : Writer σ α) (block : Block α) (hblock : block.id = w.id)
    (tracker : Tracker α) (reads : UInt32) (persistence : Persistence) :
    Leads (Keeps p blocks returns w.id) (settle w block tracker reads persistence)
      (fun _ => Settles p blocks returns w tracker.estimateSize)
      (Fails p blocks returns w tracker.estimateSize) := by
  refine pooled_keeps.settle ?_ (fun hgranted elements => ?_) fun hrefused elements => ?_
  · exact Leads.weaken (keeps_along (C := fun _ => True)
      (onExecutor_along (takeElements_along quiet_sameBooks tracker))) (fun _ h => h)
      (fun _ _ h => h.2) fun _ => .inl
  · refine Leads.weaken (fill_enters w block elements reads persistence) (fun _ h => h) ?_ ?_
    · intro _ s hs
      rw [hblock] at hs
      exact .inl ⟨hgranted, hs⟩
    · intro s hs
      obtain ⟨⟨hpool, hblocks, hreturns⟩, hid⟩ := hs
      refine .inr ⟨hgranted, ⟨?_, hblocks, hreturns⟩, hid⟩
      show (s.2.pool.releaseBlock s.1.id).2 = _
      rw [hpool, hid]
  · have hback : ∀ pool : Pool, pool = (p.reserve w.id tracker.estimateSize).2 →
        pool.release tracker.estimateSize = p := by
      rintro _ rfl
      rw [Pool.reserve_refused hrefused, Pool.release_acquire]
    refine Leads.weaken (spill_enters w block elements reads persistence) (fun _ h => h) ?_ ?_
    · intro _ s hs
      obtain ⟨entered, info, hinfo, ⟨hpool, hblocks, hreturns⟩, hid⟩ := hs
      exact .inr ⟨hrefused, entered, info, hinfo, ⟨hback _ hpool, hblocks, hreturns⟩, hid⟩
    · intro s hs
      obtain ⟨⟨hpool, hblocks, hreturns⟩, hid⟩ := hs
      exact .inl ⟨⟨hback _ hpool, hblocks, hreturns⟩, hid⟩

/-- A writer that is closed either enters its block into the books, or fails. -/
theorem close_enters [Measured α] {w : Writer σ α} (hstate : w.state = .writing)
    (htended : w.Tended) (e : Executor α) :
    Leads (· = (w, e)) close
      (fun _ s => ∃ store : StoreKind, store.spillsToDisk = (w.admission e.pool).isSome ∧
        Enters ((w.admission e.pool).elim e.pool fun size => (e.pool.reserve w.id size).2)
          e.registry.blocks e.registry.returnsCharges w.id w.id store s)
      (fun s => ∃ size, Fails e.pool e.registry.blocks e.registry.returnsCharges w size s) := by
  have hkeeps : ∀ s : Writer σ α × Executor α,
      Keeps e.pool e.registry.blocks e.registry.returnsCharges w.id s →
      ∃ size, Fails e.pool e.registry.blocks e.registry.returnsCharges w size s :=
    fun _ hs => ⟨0, .inl hs⟩
  refine Leads.bind (Q := fun w' s =>
    w' = w ∧ Keeps e.pool e.registry.blocks e.registry.returnsCharges w.id s) (Leads.read ?_)
    fun w' => Leads.given fun hsame => ?_
  · intro s hs
    subst hs
    exact ⟨rfl, ⟨rfl, rfl, rfl⟩, rfl⟩
  subst hsame
  rw [hstate]
  refine Leads.bind (Q := fun _ => Keeps e.pool e.registry.blocks e.registry.returnsCharges w'.id)
    (Leads.ofExcept (fun _ _ _ hs => hs) hkeeps) fun persistence => ?_
  refine Leads.bind (Q := fun _ => Keeps e.pool e.registry.blocks e.registry.returnsCharges w'.id)
    (Leads.ofExcept (fun _ _ _ hs => hs) hkeeps) fun reads => ?_
  cases hblock : w'.block with
  | none => exact Leads.fail hkeeps
  | some block =>
    obtain ⟨hid, hbuffered⟩ := htended block hblock
    refine Leads.bind
      (Q := fun _ => Keeps e.pool e.registry.blocks e.registry.returnsCharges w'.id)
      (Leads.modify fun _ hs => hs) fun _ => ?_
    cases htracker : w'.tracker with
    | none =>
      rw [htracker] at hbuffered
      have hadmission : w'.admission e.pool = none := by
        rw [admission, trackedSize, htracker]
        rfl
      rw [hadmission, ← hid]
      rw [← hid] at hkeeps
      exact Leads.weaken (commit_enters block w'.store reads persistence) (fun _ h => h)
        (fun _ s hs => ⟨w'.store, hbuffered.symm, hs⟩) hkeeps
    | some tracker =>
      rw [htracker] at hbuffered
      have hadmission : w'.admission e.pool =
          if (e.pool.reserve w'.id tracker.estimateSize).1 = true then
            some tracker.estimateSize else none := by
        rw [admission, trackedSize, htracker]
        rfl
      refine Leads.weaken (settle_enters w' block hid tracker reads persistence) (fun _ h => h) ?_
        fun s hs => ⟨_, hs⟩
      intro _ s hs
      obtain ⟨hgranted, hs⟩ | ⟨hrefused, hs⟩ := hs
      · rw [hadmission, if_pos hgranted]
        exact ⟨w'.store, hbuffered.symm, hs⟩
      · rw [hadmission, if_neg (Bool.eq_false_iff.mp hrefused)]
        exact ⟨.localFile, rfl, hs⟩

end Writer

/-- Whether the block that is registered under a name is in memory that is to be offered to the
pool. A block that was refused is registered for the disk. -/
def Registry.holdsOffered (r : Registry α) (id : BlockId) : Bool :=
  (r.info? id).any fun info => info.store.spillsToDisk

namespace Executor

/-- A name is charged what its registered block was admitted with, if it was. -/
structure Squared (id : BlockId) (admitted : Option UInt64) (e : Executor α) : Prop where
  returns : e.registry.returnsCharges = true
  charged : e.pool.charged? id = admitted
  registered : admitted.isSome = e.registry.holdsOffered id

variable {id : BlockId} {admitted : Option UInt64} {e e' : Executor α}

/-- Nothing has become of this name. -/
theorem Squared.unchanged (hs : Squared id admitted e)
    (hreturns : e'.registry.returnsCharges = e.registry.returnsCharges)
    (hcharged : e'.pool.charged? id = e.pool.charged? id)
    (hentry : e'.registry.entry? id = e.registry.entry? id) : Squared id admitted e' := by
  refine ⟨hreturns.trans hs.returns, hcharged.trans hs.charged, hs.registered.trans ?_⟩
  rw [Registry.holdsOffered, Registry.holdsOffered, Registry.info?, Registry.info?, hentry]

/-- Where no admitted block is registered nothing is charged. -/
theorem Squared.free (hs : Squared id admitted e) (h : e.registry.holdsOffered id = false) :
    admitted = none := by
  have hnone := hs.registered.trans h
  cases admitted with
  | none => rfl
  | some _ => cases hnone

theorem Squared.same (hs : Squared id admitted e) (h : sameBooks.rel e e') :
    Squared id admitted e' := by
  refine hs.unchanged h.returns ?_ ?_
  · rw [h.pool]
  · rw [Registry.entry?, Registry.entry?, h.blocks]

/-- The charge goes with the registration. -/
theorem removeBlock_squared (removed : BlockId) (hs : Squared id admitted e) :
    Squared id (if removed = id then none else admitted) (removeBlock removed e).2 := by
  obtain ⟨hnone, hsame⟩ | ⟨entry, -, hremoved⟩ := removeBlock_cases removed e
  · rw [hsame]
    split
    · next hown =>
      subst hown
      have hnothing : e.registry.holdsOffered removed = false := by
        rw [Registry.holdsOffered, Registry.info?, hnone]
        rfl
      rw [← hs.free hnothing]
      exact hs
    · exact hs
  · rw [hremoved, if_pos hs.returns]
    split
    · next hown =>
      subst hown
      refine ⟨hs.returns, (Pool.charged_releaseBlock _ _ _).trans (if_pos rfl), ?_⟩
      rw [Registry.holdsOffered, Registry.info?, Registry.entry?, lookup_filter_self]
      rfl
    · next hother =>
      refine hs.unchanged rfl ?_ (lookup_filter_ne _ (Ne.symm hother))
      exact (Pool.charged_releaseBlock _ _ _).trans (if_neg (Ne.symm hother))

end Executor

namespace Writer

variable {p : Pool} {blocks : List (BlockId × RegisteredBlock α)} {returns : Bool} {id : BlockId}
  {admitted : Option UInt64} {e : Executor α} {w : Writer σ α}

theorem granted_of_admission {size : UInt64} (h : w.admission p = some size) :
    (p.reserve w.id size).1 = true := (Option.filter_eq_some_iff.mp h).2

theorem Enters.holdsOffered {store : StoreKind} {s : Writer σ α × Executor α}
    (h : Enters p blocks returns id id store s) :
    s.2.registry.holdsOffered id = store.spillsToDisk := by
  obtain ⟨block, info, hinfo, hbooks, -⟩ := h
  rw [Registry.holdsOffered, Registry.info?, Registry.entry?, hbooks.blocks, List.lookup_cons_self,
    ← hinfo]
  rfl

theorem Enters.entry_ne {store : StoreKind} {entered other : BlockId}
    {s : Writer σ α × Executor α} (h : Enters p blocks returns id entered store s)
    (hother : other ≠ entered) : s.2.registry.entry? other = blocks.lookup other := by
  obtain ⟨block, info, -, hbooks, -⟩ := h
  rw [Registry.entry?, hbooks.blocks, lookup_cons_ne hother, lookup_filter_ne _ hother]

section Closing

variable [Measured α]

/-- A name that is not charged is charged exactly what is admitted, if anything. -/
theorem close_squared (hstate : w.state = .writing) (htended : w.Tended)
    (hs : e.Squared w.id none) :
    Leads (· = (w, e)) close (fun _ s => s.2.Squared w.id (w.admission e.pool))
      (fun s => s.2.Squared w.id none) := by
  refine Leads.weaken (close_enters hstate htended e) (fun _ h => h) ?_ ?_
  · intro _ s h
    obtain ⟨store, hstore, h⟩ := h
    have hoffered := h.holdsOffered
    obtain ⟨-, -, -, ⟨hpool, -, hreturns⟩, -⟩ := h
    refine ⟨hreturns.trans hs.returns, ?_, hstore.symm.trans hoffered.symm⟩
    rw [hpool]
    cases hadmission : w.admission e.pool with
    | none => exact hs.charged
    | some size =>
      show (e.pool.reserve w.id size).2.charged? w.id = some size
      rw [Pool.charged_reserve (granted_of_admission hadmission), if_pos rfl, hs.charged,
        Option.getD_none, UInt64.zero_add]
  · intro s h
    obtain ⟨size, ⟨⟨hpool, hblocks, hreturns⟩, -⟩ | ⟨-, ⟨hpool, hblocks, hreturns⟩, -⟩⟩ := h
    · exact hs.same ⟨hpool, hblocks, hreturns⟩
    · refine hs.unchanged hreturns ?_ ?_
      · rw [hpool, Pool.charged_releaseBlock, if_pos rfl, hs.charged]
      · rw [Registry.entry?, Registry.entry?, hblocks]

/-- Nothing becomes of any other name. -/
theorem close_squared_ne (hstate : w.state = .writing) (htended : w.Tended) (hother : id ≠ w.id)
    (hs : e.Squared id admitted) :
    Leads (· = (w, e)) close (fun _ s => s.2.Squared id admitted)
      (fun s => s.2.Squared id admitted) := by
  refine Leads.weaken (close_enters hstate htended e) (fun _ h => h) ?_ ?_
  · intro _ s h
    obtain ⟨store, -, h⟩ := h
    have hentry := h.entry_ne hother
    obtain ⟨-, -, -, ⟨hpool, -, hreturns⟩, -⟩ := h
    refine hs.unchanged hreturns ?_ hentry
    rw [hpool]
    cases hadmission : w.admission e.pool with
    | none => rfl
    | some size =>
      exact (Pool.charged_reserve (granted_of_admission hadmission) id).trans (if_neg hother)
  · intro s h
    obtain ⟨size, ⟨⟨hpool, hblocks, hreturns⟩, -⟩ | ⟨hgranted, ⟨hpool, hblocks, hreturns⟩, -⟩⟩ := h
    · exact hs.same ⟨hpool, hblocks, hreturns⟩
    · refine hs.unchanged hreturns ?_ ?_
      · rw [hpool, Pool.charged_releaseBlock, if_neg hother, Pool.charged_reserve hgranted,
          if_neg hother]
      · rw [Registry.entry?, Registry.entry?, hblocks]

/-- A close that does not get to a block does nothing, whatever it is that the writer holds and
whatever the executor, and fails if the writer is open. -/
theorem close_unclosable (hidle : w.closable = false) : ∃ result,
    (∀ (e : Executor α) block', (block' = none ↔ w.block = none) →
      close ({ w with block := block' }, e) = (result, { w with block := block' }, e)) ∧
    (w.state = .writing → result ≠ .ok ()) := by
  have hfault : ∀ fault : Fault, (.error fault : Except Fault Unit) ≠ .ok () := by
    intro fault hok
    cases hok
  obtain ⟨edge, destination, p, id, store, block, tracker, state, written, spilled⟩ := w
  cases state with
  | noOp => exact ⟨.ok (), fun _ _ _ => rfl, nofun⟩
  | committedMemory | committedDisk => exact ⟨.error _, fun _ _ _ => rfl, nofun⟩
  | writing =>
    unfold close
    cases hpersistence : edge.requiredPersistence with
    | error fault =>
      refine ⟨.error fault, fun e _ _ => ?_, fun _ => hfault fault⟩
      simp only [bind_apply, Step.read, Step.ofExcept, hpersistence]
    | ok persistence =>
      cases hreads : destination.expectedReads edge with
      | error fault =>
        refine ⟨.error fault, fun e _ _ => ?_, fun _ => hfault fault⟩
        simp only [bind_apply, Step.read, Step.ofExcept, expectedReads, hpersistence, hreads]
      | ok reads =>
        refine ⟨.error (.invalid .noOpenBlock), fun e block' hblock => ?_, fun _ => hfault _⟩
        have hnone : block = none := by
          simpa [closable, expectedReads, hpersistence, hreads, Except.isOk, Except.toBool]
            using hidle
        obtain rfl : block' = none := hblock.mpr hnone
        simp only [bind_apply, Step.read, Step.ofExcept, Step.fail, expectedReads, hpersistence,
          hreads]

theorem close_idle (hidle : w.closable = false) (e : Executor α) : (close (w, e)).2 = (w, e) := by
  obtain ⟨result, hclose, -⟩ := close_unclosable hidle
  rw [show close (w, e) = _ from hclose e w.block Iff.rfl]

end Closing

end Writer

namespace Session

open Executor

variable [Measured α]

/-- Whether a call closes an open block of this name. -/
def closes (id : BlockId) (call : Call σ α) (s : Session σ α) : Bool :=
  match call with
  | .close name => (s.writer? name).any fun w => w.id = id ∧ w.closable = true
  | _ => false

/-- No block of a name is closed while an admitted one is registered under it. -/
def Orderly (id : BlockId) : Session σ α → List (Call σ α) → Prop
  | _, [] => True
  | s, call :: calls =>
      (closes id call s = true → s.executor.registry.holdsOffered id = false) ∧
        Orderly id (perform call s).2 calls

instance decidableOrderly (id : BlockId) :
    (s : Session σ α) → (calls : List (Call σ α)) → Decidable (Orderly id s calls)
  | _, [] => isTrue trivial
  | s, call :: calls =>
      have := decidableOrderly id (perform call s).2 calls
      inferInstanceAs (Decidable (_ ∧ _))

/-- The size with which the block that is registered under a name was admitted, from what it was
before a call. -/
def admissionAfter (id : BlockId) (call : Call σ α) (s : Session σ α) (before : Option UInt64) :
    Option UInt64 :=
  match call with
  | .close name =>
      if closes id call s = true ∧ (perform call s).1 = .ok () then
        (s.writer? name).bind fun w => w.admission s.executor.pool
      else before
  | .removeBlock removed => if removed = id then none else before
  | _ => before

/-- The size with which the block that is registered under a name after a run was admitted, if it
was. -/
def admission (id : BlockId) : Session σ α → Option UInt64 → List (Call σ α) → Option UInt64
  | _, before, [] => before
  | s, before, call :: calls =>
      admission id (perform call s).2 (admissionAfter id call s before) calls

variable {id : BlockId} {admitted : Option UInt64} {s : Session σ α}

theorem close_squares {name : String} (hs : s.executor.Squared id admitted)
    (htidy : s.Tidy fun _ => True)
    (horderly : closes id (.close name) s = true → s.executor.registry.holdsOffered id = false) :
    (perform (.close name) s).2.executor.Squared id
      (admissionAfter id (.close name) s admitted) := by
  cases hw : s.writer? name with
  | none => simpa [admissionAfter, closes, perform, callWriter, hw] using hs
  | some w =>
    simp only [admissionAfter, closes, perform, callWriter, hw, Option.any_some, Option.getD_some,
      Option.bind_some, decide_eq_true_eq] at horderly ⊢
    show (Writer.close (w, s.executor)).2.2.Squared id _
    cases hclosable : w.closable with
    | false =>
      rw [if_neg fun h => Bool.false_ne_true h.1.2, Writer.close_idle hclosable]
      exact hs
    | true =>
      have hstate := Writer.closable_state hclosable
      by_cases hsame : w.id = id
      · subst hsame
        have hnone := hs.free (horderly ⟨rfl, hclosable⟩)
        subst hnone
        have hclose := Writer.close_squared hstate (htidy trivial hw) hs _ rfl
        cases hresult : Writer.close (w, s.executor) with
        | mk result s' =>
          rw [hresult] at hclose
          cases result with
          | ok _ => simpa using hclose
          | error _ => simpa using hclose
      · rw [if_neg fun h => hsame h.1.1]
        have hother := Writer.close_squared_ne hstate (htidy trivial hw) (Ne.symm hsame) hs
        exact Leads.apply (E := fun s' : Writer σ α × Executor α => s'.2.Squared id admitted) hother
          rfl

/-- One call keeps the ledger and the registry in line. -/
theorem perform_squared (call : Call σ α) (hs : s.executor.Squared id admitted)
    (htidy : s.Tidy fun _ => True)
    (horderly : closes id call s = true → s.executor.registry.holdsOffered id = false) :
    (perform call s).2.executor.Squared id (admissionAfter id call s admitted) := by
  have hall := Holders.everywhere s
  cases call with
  | openWriter name task edge destination p =>
    exact hs.same (openWriter_follows quiet_sameBooks hall trivial task edge trivial destination
      p).executor
  | write name x => exact hs.same (write_follows quiet_sameBooks hall trivial x).executor
  | close name => exact close_squares hs htidy horderly
  | drop name => exact hs.same (dropWriter_follows quiet_sameBooks hall trivial).executor
  | removeBlock removed =>
    rw [perform_removeBlock]
    exact removeBlock_squared removed hs
  | disturb dir => exact hs.same ⟨rfl, rfl, rfl⟩

theorem run_squared {calls : List (Call σ α)} (hs : s.executor.Squared id admitted)
    (htidy : s.Tidy fun _ => True) (horderly : s.Orderly id calls) :
    (s.run calls).executor.Squared id (s.admission id admitted calls) := by
  induction calls generalizing s admitted with
  | nil => exact hs
  | cons call calls ih =>
    have hfirst := perform_squared call hs htidy horderly.1
    exact ih hfirst ((run_traced s [call]).tidy htidy) horderly.2

/-- After any calls of any number of writers and any removals, a block is charged exactly what its
registered block was admitted with, as long as its registration is given up before another one is
entered: nothing if none is registered, or one in a file, or in memory that is not offered. -/
theorem run_charges {e : Executor α} (hcharges : e.pool.charges = [])
    (hblocks : e.registry.blocks = []) (hreturns : e.registry.returnsCharges = true)
    (calls : List (Call σ α)) (id : BlockId)
    (horderly : Orderly id { executor := e } calls) :
    let start : Session σ α := { executor := e }
    let e' := (start.run calls).executor
    e'.pool.charged? id = start.admission id none calls ∧
      ((e'.pool.charged? id).isSome = true ↔
        ∃ info, e'.registry.info? id = some info ∧ info.store.spillsToDisk = true) := by
  intro start e'
  have hstart : e.Squared id none := by
    refine ⟨hreturns, ?_, ?_⟩
    · rw [Pool.charged?, hcharges]
      rfl
    · rw [Registry.holdsOffered, Registry.info?, Registry.entry?, hblocks]
      rfl
  have htidy : start.Tidy fun _ => True := by
    intro name w _ hw
    cases hw
  have hrun : e'.Squared id (start.admission id none calls) :=
    run_squared hstart htidy horderly
  refine ⟨hrun.charged, ?_⟩
  rw [hrun.charged, hrun.registered, Registry.holdsOffered, Option.any_eq_true]

/-- A task that comes again after its block was removed. -/
theorem run_charges_retried :
    let edge : Edge := {
      id := ⟨"e"⟩
      store := some .memoryFile
      pattern := some .oneToOne
      persistence := some .keep }
    let e : Executor UInt64 := {
      registry := { medium := { codec := .json }, returnsCharges := true }
      pool := .ofCapacity 1000
      estimator := .ofOptions {} }
    let attempt (name : String) : List (Call UInt32 UInt64) :=
      [.openWriter name ⟨"t"⟩ edge ⟨⟨"v"⟩, none⟩ .intact, .close name]
    let s := Session.run { executor := e } (attempt "w" ++ [.removeBlock ⟨"e-t"⟩] ++ attempt "x")
    s.executor.pool.charged? ⟨"e-t"⟩ = some 112 := by
  intro edge e attempt s
  have hcharges := run_charges (e := e) rfl rfl rfl
    (attempt "w" ++ [.removeBlock ⟨"e-t"⟩] ++ attempt "x") ⟨"e-t"⟩ (by decide +kernel)
  exact hcharges.1.trans (by decide +kernel)

/-- Where the registration is replaced, the name stays charged for the block that is gone. -/
theorem replacing_adds_up :
    let edge : Edge := {
      id := ⟨"e"⟩
      store := some .memoryFile
      pattern := some .oneToOne
      persistence := some .keep }
    let e : Executor UInt64 := {
      registry := { medium := { codec := .json }, returnsCharges := true }
      pool := .ofCapacity 1000
      estimator := .ofOptions {} }
    let attempt (name : String) : List (Call UInt32 UInt64) :=
      [.openWriter name ⟨"t"⟩ edge ⟨⟨"v"⟩, none⟩ .intact, .close name]
    let start : Session UInt32 UInt64 := { executor := e }
    let calls := attempt "w" ++ attempt "x"
    start.admission ⟨"e-t"⟩ none calls = some 112 ∧
      (start.run calls).executor.pool.charged? ⟨"e-t"⟩ = some 224 := by
  decide +kernel

end Session

end ShuffleBuffer
