import ShuffleBuffer.Proofs.Checkpoints
import ShuffleBuffer.Proofs.Ledger
import ShuffleBuffer.Proofs.Others
import ShuffleBuffer.Proofs.Writing

/-! # What writers leave on record

The counters, the registrations and the replacements change at few points of a writer's calls. So it
can be said of each call what it leaves of the writer and of these records: a call that does not get
to an open block leaves both alone, a write counts at most one sample, and a close that gets to the
block counts its offer and then either enters the committed block, all at once, or takes the block
from the writer and enters nothing. -/

namespace ShuffleBuffer

open Estimate Step

variable {σ α : Type}

namespace Estimate.Tracker

variable {t : Tracker α}

theorem append_samplesTaken [Measured α] (t : Tracker α) (e : SizeEstimator) (x : α) :
    (t.append e x).2.1.samplesTaken =
      if t.due = true ∧ (t.append e x).1 = .ok () then t.samplesTaken + 1 else t.samplesTaken := by
  by_cases hdue : t.due = true
  · rw [append_of_due t e x hdue]
    rcases takeSample_cases (t.pushed x) e with ⟨fault, hfailed, htaken⟩ | ⟨bytes, hok, htaken⟩
    · rw [htaken, hfailed, if_neg (by simp)]
      rfl
    · rw [htaken, hok, if_pos ⟨hdue, rfl⟩]
      rfl
  · rw [append_of_not_due t e x hdue, if_neg fun h => hdue h.1]
    rfl

/-- A sample is taken of the empty tracker, and at most one with each element. -/
def Sparse (t : Tracker α) : Prop := t.samplesTaken.toNat ≤ t.elements.size + 1

theorem Sparse.append [Measured α] (h : t.Sparse) (e : SizeEstimator) (x : α) :
    (t.append e x).2.1.Sparse := by
  have hstep : (t.samplesTaken + 1).toNat ≤ t.samplesTaken.toNat + 1 := by
    rw [UInt64.toNat_add, UInt64.toNat_one]
    exact Nat.mod_le _ _
  unfold Sparse at h ⊢
  rw [append_samplesTaken, append_elements, Array.size_push]
  split <;> omega

theorem make_sparse [Measured α] {o : TrackerOptions} {e e' : SizeEstimator}
    (h : Tracker.make o e = (.ok t, e')) : t.Sparse := by
  have helements := make_elements h
  unfold make at h
  split at h
  · cases h
  · rcases takeSample_cases (blank (α := α) o.growthRate []) e with
      ⟨fault, hfailed, -⟩ | ⟨bytes, -, htaken⟩
    · generalize takeSample (α := α) _ e = sample at h hfailed
      obtain ⟨result, rest⟩ := sample
      dsimp only at hfailed
      subst hfailed
      cases h
    · generalize takeSample (α := α) _ e = sample at h htaken
      obtain ⟨result, t', e''⟩ := sample
      dsimp only at htaken
      subst htaken
      cases result with
      | error fault => cases h
      | ok _ =>
        cases h
        simp [Sparse, sampled, scheduled, blank]

end Estimate.Tracker

/-- What an executor has counted and registered. -/
structure Account (α : Type) where
  metrics : Metrics
  blocks : List (BlockId × RegisteredBlock α)
  replacements : List Replacement
  /-- How many registrations were asked for under each name. -/
  registrations : BlockId → Nat

/-- A committed block is counted and registered. -/
def Account.entered (a : Account α) (id : BlockId) (entry : RegisteredBlock α)
    (total : Option UInt64) : Account α where
  metrics := a.metrics.blockCommitted entry.info.store total
  blocks := (id, entry) :: a.blocks.filter (·.1 ≠ id)
  replacements := a.replacements
  registrations other := a.registrations other + if id = other then 1 else 0

/-- A replacement is told. -/
def Account.replaced (a : Account α) (replacement : Replacement) : Account α :=
  { a with replacements := a.replacements ++ [replacement] }

/-- Commits that are not refused answer sizes for the kinds of block that keep them. -/
theorem Block.commit_tells (b : Block α) :
    Leads (fun _ => True) b.commit (fun r _ => r.2.result = .ok () →
      r.2.block.state = .committed ∧ r.1.isSome = b.keepsSizes) fun _ => True := by
  obtain ⟨id, store, state, body⟩ := b
  cases body with
  | values | encoded =>
    intro m _
    cases state <;> simp [commit, commitPartitions, bind_apply, Step.ofExcept, require, keepsSizes]
  | file handle sizes checksum =>
    refine Leads.bind (Q := fun _ _ => True)
      (Leads.ofExcept (fun _ _ _ h => h) fun _ h => h) fun _ => ?_
    refine Leads.bind (Q := fun _ _ => True) (Leads.of_apply fun _ _ => trivial) fun result => ?_
    cases result with
    | ok _ => exact Leads.pure fun _ _ _ => ⟨rfl, rfl⟩
    | error fault =>
      refine Leads.pure fun _ _ hok => ?_
      cases hok

/-- A buffer of this size, if there is one, is offered to the pool. -/
def Metrics.offered (m : Metrics) (refused : Bool) : Option UInt64 → Metrics
  | none => m
  | some size => if refused then m.admissionDenied size else m.admissionGranted size

namespace Executor

def account (e : Executor α) : Account α where
  metrics := e.metrics
  blocks := e.registry.blocks
  replacements := e.registry.replacements
  registrations id := e.registrations id

@[simp] theorem account_metrics (e : Executor α) : e.account.metrics = e.metrics := rfl

@[simp] theorem account_blocks (e : Executor α) : e.account.blocks = e.registry.blocks := rfl

@[simp] theorem account_replacements (e : Executor α) :
    e.account.replacements = e.registry.replacements := rfl

@[simp] theorem account_registrations (e : Executor α) (id : BlockId) :
    e.account.registrations id = e.registrations id := rfl

/-- Nothing is counted, registered or told. -/
def sameAccount : Change (Executor α) where
  rel e e' := e'.account = e.account
  refl _ := rfl
  trans h h' := h'.trans h

theorem filling_sameAccount : Filling (sameAccount (α := α)) fun _ _ => True where
  stable _ := fun _ h => h
  write _ _ _ := Along.of_rel fun _ _ => rfl
  commitPartitions _ := Along.of_rel fun _ _ => rfl
  release _ := rfl

variable {id : BlockId} {e : Executor α}

theorem createBlock_account (id : BlockId) (store : StoreKind) :
    Along (sameAccount (α := α)) (fun _ => True) (createBlock id store) fun _ _ => True := by
  refine Along.of_rel fun e _ => ?_
  cases store with
  | memory | memoryFile | serializedMemory | serializedMemoryFile => rfl
  | localFile =>
    simp only [createBlock, ask, bind_apply, Step.modify, onRegistry, Registry.createBlock,
      Registry.onMedium, within]
    cases Block.ofFile (α := α) id .localFile e.registry.medium with
    | mk result medium =>
      cases result with
      | ok b => rfl
      | error fault => rfl

/-- A new block keeps sizes if the store tracks them; one in memory is blank. -/
theorem createBlock_suits (id : BlockId) (store : StoreKind) :
    Leads (fun _ => True) (createBlock (α := α) id store)
      (fun b _ => b.id = id ∧ b.keepsSizes = store.tracksSizes ∧
        (store.spillsToDisk = true → b.Blank id store)) fun _ => True := by
  intro e _
  have hmemory : store.isMemoryTier = true → (createBlock (α := α) id store).Yields e fun b _ =>
      b.id = id ∧ b.keepsSizes = store.tracksSizes ∧
        (store.spillsToDisk = true → b.Blank id store) := by
    intro hmemory
    refine Yields.weaken (createBlock_yields store fun hdisk => ?_) fun b _ h => ?_
    · rw [hmemory] at hdisk
      cases hdisk
    · obtain ⟨hid, -, hlocation, hsizes, -, -, hholds⟩ := h
      rw [if_pos hmemory] at hlocation
      refine ⟨hid, hsizes, fun _ => ⟨hid, hlocation, hsizes, fun _ => hholds.apart ?_⟩⟩
      intro name hname
      cases hlocation.symm.trans hname
  cases store with
  | memory | serializedMemory | memoryFile | serializedMemoryFile =>
    obtain ⟨b, e', hmade, hb⟩ := hmemory rfl
    rw [hmade]
    exact hb
  | localFile =>
    simp only [createBlock, ask, bind_apply, Step.modify, onRegistry, Registry.createBlock,
      Registry.onMedium, within, Block.ofFile, Medium.onDir]
    cases SpillDir.create (Block.fileName id) e.registry.medium.dir with
    | mk result dir =>
      cases result with
      | ok file =>
        refine ⟨rfl, rfl, fun hspills => ?_⟩
        cases hspills
      | error fault => trivial

theorem commit_tells (b : Block α) :
    Leads (fun _ => True) (commit b)
      (fun r _ => r.2.result = .ok () →
        r.2.block.state = .committed ∧ r.1.isSome = b.keepsSizes) fun _ => True :=
  asked_answers _ b.commit_tells

end Executor

namespace Writer

open Executor

variable {w : Writer σ α} {a : Account α} {β : Type}

/-! ## A writer and the records -/

/-- This is the writer, and this is on record. -/
def Stands (w : Writer σ α) (a : Account α) (s : Writer σ α × Executor α) : Prop :=
  s.1 = w ∧ s.2.account = a

theorem stands_along {x : Step (Executor α) β} {C : β → Prop}
    (hx : Along sameAccount (fun _ => True) x fun r _ => C r) :
    Leads (Stands w a) (onExecutor x) (fun r s => C r ∧ Stands w a s) (Stands w a) := by
  intro s hs
  obtain ⟨rfl, rfl⟩ := hs
  have hstep := hx s.2 trivial _ rfl
  simp only [onExecutor, within]
  cases hrun : x s.2 with
  | mk result e =>
    rw [hrun] at hstep
    cases result with
    | ok r => exact ⟨hstep.2, rfl, hstep.1⟩
    | error fault => exact ⟨rfl, hstep⟩

theorem stands_update (f : Writer σ α → Writer σ α) {E : Writer σ α × Executor α → Prop} :
    Leads (Stands w a) (update f) (fun _ => Stands (f w) a) E :=
  Leads.modify fun _ hs => ⟨congrArg f hs.1, hs.2⟩

theorem stands_count (f : Metrics → Metrics) {E : Writer σ α × Executor α → Prop} :
    Leads (Stands w a) (onExecutor (count f)) (fun _ => Stands w { a with metrics := f a.metrics })
      E := by
  intro s hs
  obtain ⟨rfl, rfl⟩ := hs
  exact ⟨rfl, rfl⟩

/-- A committed block is not refused. -/
theorem stands_register {b : Block α} (hb : b.state = .committed) (store : StoreKind)
    (reads : UInt32) (persistence : Persistence) {E : Writer σ α × Executor α → Prop} :
    Leads (Stands w a) (onExecutor (register b store reads persistence))
      (fun _ => Stands w { a.entered b.id ⟨b, ⟨store, reads, persistence, b.location⟩⟩ none with
        metrics := a.metrics }) E := by
  intro s hs
  obtain ⟨rfl, rfl⟩ := hs
  simp only [onExecutor, within, register, ask, bind_apply, Step.modify, onRegistry,
    Registry.register, Block.require, if_pos hb, Step.ofExcept]
  refine ⟨rfl, ?_⟩
  simp only [account, Account.entered, Account.mk.injEq, true_and]
  funext other
  simp only [registrations, List.countP_cons, Request.isRegistration, decide_eq_true_eq]

/-! ## Closing -/

/-- A commit that succeeds enters the block; one that fails does nothing. -/
theorem commit_stands (block : Block α) (store : StoreKind) (reads : UInt32)
    (persistence : Persistence) :
    Leads (Stands w a) (commit block store reads persistence)
      (fun _ s => ∃ entry total, entry.info.store = store ∧ total.isSome = block.keepsSizes ∧
        Stands { w with writtenBytes := total, state := .committed store }
          (a.entered block.id entry total) s)
      (Stands w a) := by
  refine Leads.bind (stands_along (C := fun r => block.Like r.2.block ∧ (r.2.result = .ok () →
    r.2.block.state = .committed ∧ r.1.isSome = block.keepsSizes)) ?_) fun r =>
      Leads.given fun hr => ?_
  · refine Along.weaken (((Along.of_rel fun _ _ => rfl).both (commit_tells block)).both
      (commit_becomes block)) (fun _ h => h) fun _ _ h => ?_
    exact ⟨h.1.like, h.2.1⟩
  obtain ⟨hlike, htells⟩ := hr
  refine Leads.bind (Q := fun _ s => r.2.result = .ok () ∧ Stands w a s)
    (Leads.ofExcept (fun _ _ hok hs => ⟨hok, hs⟩) fun _ hs => hs) fun _ => Leads.given fun hok => ?_
  obtain ⟨hcommitted, hsizes⟩ := htells hok
  refine Leads.bind (stands_update _) fun _ => ?_
  refine Leads.bind (stands_count _) fun _ => ?_
  refine Leads.bind (stands_register hcommitted store reads persistence) fun _ => ?_
  refine Leads.weaken (stands_update _) (fun _ h => h) (fun _ s hs => ?_) fun _ h => h
  refine ⟨⟨r.2.block, ⟨store, reads, persistence, r.2.block.location⟩⟩,
    r.1.map PartitionSizes.total, rfl, ?_, ?_⟩
  · rw [Option.isSome_map, hsizes]
  · rw [← hlike.id]
    exact hs

theorem fill_stands (v : Writer σ α) (block : Block α) (elements : List α) (reads : UInt32)
    (persistence : Persistence) :
    Leads (Stands w a) (fill v block elements reads persistence)
      (fun _ s => ∃ entry total, entry.info.store = v.store ∧ total.isSome = block.keepsSizes ∧
        Stands { w with writtenBytes := total, state := .committed v.store }
          (a.entered block.id entry total) s)
      (Stands w a) := by
  refine Leads.bind (stands_along (putAll_along filling_sameAccount _ _ _)) fun b => ?_
  refine Leads.given fun hb => ?_
  rw [← hb.1.id, ← hb.1.keepsSizes]
  exact commit_stands b v.store reads persistence

/-- The file block is entered as the memory block would have been, and then this is told. -/
theorem spill_stands (v : Writer σ α) (block : Block α) (elements : List α) (reads : UInt32)
    (persistence : Persistence) :
    Leads (Stands w a) (spill v block elements reads persistence)
      (fun _ s => ∃ entry total, entry.info.store = .localFile ∧ total.isSome = true ∧
        Stands { w with writtenBytes := total, state := .committedDisk, spilled := true }
          ((a.entered v.id entry total).replaced ⟨v.id, v.store, .localFile⟩) s)
      (Stands w a) := by
  refine Leads.bind (stands_along (C := fun _ => True) (Along.of_rel fun _ _ => rfl)) fun _ =>
    Leads.given fun _ => ?_
  refine Leads.bind (stands_along (Along.weaken ((createBlock_account v.id .localFile).both
    (createBlock_suits v.id .localFile)) (fun _ h => h) fun _ _ h => h.1)) fun fallback =>
      Leads.given fun hfallback => ?_
  obtain ⟨hid, hsizes, -⟩ := hfallback
  refine Leads.bind (stands_along (putAll_along filling_sameAccount _ _ _)) fun b =>
    Leads.given fun hb => ?_
  refine Leads.bind (commit_stands b .localFile reads persistence) fun _ s hs => ?_
  rw [hb.1.id, hid, hb.1.keepsSizes, hsizes] at hs
  obtain ⟨entry, total, hstore, htotal, hw, ha⟩ := hs
  -- the file block was just registered, so its replacement can be told
  have hblocks : s.2.registry.blocks = (v.id, entry) :: a.blocks.filter (·.1 ≠ v.id) :=
    congrArg Account.blocks ha
  have htold : (s.2.registry.info? v.id).map (·.store) = some .localFile := by
    rw [Registry.info?, Registry.entry?, hblocks, List.lookup_cons_self]
    exact congrArg some hstore
  simp only [bind_apply, onExecutor, within, putSpilled, ask, Step.modify, onRegistry,
    Registry.putSpilled, if_pos htold, update]
  refine ⟨entry, total, hstore, htotal, ?_, ?_⟩
  · show { s.1 with spilled := true } = _
    rw [hw]
    rfl
  · rw [← ha]
    rfl

section Closing

variable [Measured α] {e : Executor α}

/-- The pool refuses what the writer has buffered. -/
def refused (w : Writer σ α) (p : Pool) : Bool :=
  w.trackedSize.any fun size => !(p.reserve w.id size).1

/-- What a close that succeeds makes of the writer and of the records. -/
inductive Committed (w : Writer σ α) (a : Account α) : Bool → Writer σ α → Account α → Prop
  | kept {entry : RegisteredBlock α} {total : Option UInt64} : entry.info.store = w.store →
      total.isSome = w.store.tracksSizes →
      Committed w a false
        { w with
          block := none, tracker := none, writtenBytes := total, state := .committed w.store }
        (a.entered w.id entry total)
  | spilled {entry : RegisteredBlock α} {total : Option UInt64} : entry.info.store = .localFile →
      total.isSome = true →
      Committed w a true
        { w with
          block := none, tracker := none, writtenBytes := total, state := .committedDisk
          spilled := true }
        ((a.entered w.id entry total).replaced ⟨w.id, w.store, .localFile⟩)

theorem take_stands (t : Tracker α) :
    Leads (· = (w, e)) (onExecutor (takeElements t))
      (fun _ s => Stands w e.account s ∧ s.2.pool = e.pool)
      (fun s => Stands w e.account s ∧ ¬ e.estimator.Usable) := by
  rintro _ rfl
  simp only [onExecutor, within, takeElements]
  cases htaken : t.takeElements e.estimator with
  | mk result rest =>
    cases result with
    | ok xs => exact ⟨⟨rfl, rfl⟩, rfl⟩
    | error fault =>
      refine ⟨⟨rfl, rfl⟩, fun husable => ?_⟩
      have hok := Tracker.takeElements_ok husable t
      rw [htaken] at hok
      cases hok

-- Or else its body is opened over and over, here as for any change.
attribute [local irreducible] takeElements

theorem settle_stands (block : Block α) (hid : block.id = w.id)
    (hsizes : block.keepsSizes = w.store.tracksSizes) {t : Tracker α} (ht : w.tracker = some t)
    (reads : UInt32) (persistence : Persistence) :
    Leads (· = ({ w with block := none, tracker := none }, e))
      (settle w block t reads persistence)
      (fun _ s => Committed w
        { e.account with metrics := e.metrics.offered (w.refused e.pool) w.trackedSize }
        (w.refused e.pool) s.1 s.2.account)
      (fun s => ∃ m, Stands { w with block := none, tracker := none }
        { e.account with metrics := m } s ∧
          (e.estimator.Usable → m = e.metrics.offered (w.refused e.pool) w.trackedSize)) := by
  have hoffer : w.trackedSize = some t.estimateSize := by rw [trackedSize, ht]; rfl
  have hrefused : w.refused e.pool = !(e.pool.reserve w.id t.estimateSize).1 := by
    rw [refused, hoffer]
    rfl
  rw [hrefused, hoffer]
  refine Leads.bind (Leads.weaken (take_stands t) (fun _ h => h) (fun _ _ h => h) ?_)
    fun elements => ?_
  · rintro s ⟨hs, hunusable⟩
    exact ⟨_, hs, fun husable => absurd husable hunusable⟩
  refine Leads.bind (Q := fun granted s =>
    granted = (e.pool.reserve w.id t.estimateSize).1 ∧
      Stands { w with block := none, tracker := none } e.account s) ?_ fun granted =>
        Leads.given fun hgranted => ?_
  · rintro s ⟨⟨hw, ha⟩, hpool⟩
    exact ⟨by rw [← hpool]; rfl, hw, ha⟩
  rw [← hgranted]
  cases granted with
  | true =>
    refine Leads.bind (stands_count _) fun _ => ?_
    refine Leads.onFault (Leads.weaken (fill_stands w block elements reads persistence)
      (fun _ h => h) ?_ ?_)
    · rintro _ ⟨w', e'⟩ ⟨entry, total, hstore, htotal, hw, ha⟩
      rw [hid] at ha
      obtain rfl : w' = _ := hw
      exact ha ▸ .kept hstore (htotal.trans hsizes)
    · rintro s ⟨hw, ha⟩
      exact ⟨_, ⟨hw, ha⟩, fun _ => rfl⟩
  | false =>
    refine Leads.bind (stands_count _) fun _ => ?_
    refine Leads.always (Leads.weaken (spill_stands w block elements reads persistence)
      (fun _ h => h) ?_ ?_)
    · rintro _ ⟨w', e'⟩ ⟨entry, total, hstore, htotal, hw, ha⟩
      obtain rfl : w' = _ := hw
      exact (show _ = _ from ha) ▸ .spilled hstore htotal
    · rintro s ⟨hw, ha⟩
      exact ⟨_, ⟨hw, ha⟩, fun _ => rfl⟩

/-- A close that gets to the block counts its offer. Then it commits the block and enters it, or it
fails, and the writer has no block any more. -/
theorem close_stands (hclosable : w.closable = true) (htended : w.Tended)
    (hsizes : ∀ b, w.block = some b → b.keepsSizes = w.store.tracksSizes) :
    Leads (· = (w, e)) close
      (fun _ s => Committed w
        { e.account with metrics := e.metrics.offered (w.refused e.pool) w.trackedSize }
        (w.refused e.pool) s.1 s.2.account)
      (fun s => ∃ m, Stands { w with block := none, tracker := none }
        { e.account with metrics := m } s ∧
          (e.estimator.Usable → m = e.metrics.offered (w.refused e.pool) w.trackedSize)) := by
  obtain ⟨persistence, reads, block, hstate, hpersistence, hreads, hblock⟩ := of_closable hclosable
  obtain ⟨hid, -⟩ := htended block hblock
  rintro _ rfl
  rw [close_eq hstate hblock hpersistence hreads]
  cases htracker : w.tracker with
  | some t => exact settle_stands block hid (hsizes block hblock) htracker reads persistence _ rfl
  | none =>
    have hnone : w.trackedSize = none := by rw [trackedSize, htracker]; rfl
    have hkept : w.refused e.pool = false := by rw [refused, hnone]; rfl
    rw [hkept, hnone]
    refine Leads.weaken (commit_stands (w := { w with block := none, tracker := none })
      (a := e.account) block w.store reads persistence)
      (P := (· = ({ w with block := none, tracker := none }, e))) ?_ ?_ ?_ _ rfl
    · rintro _ rfl
      exact ⟨rfl, rfl⟩
    · rintro _ ⟨w', e'⟩ ⟨entry, total, hstore, htotal, hw, ha⟩
      rw [hid] at ha
      obtain rfl : w' = _ := hw
      exact (show _ = _ from ha) ▸ .kept hstore (htotal.trans (hsizes block hblock))
    · rintro s ⟨hw, ha⟩
      exact ⟨_, ⟨hw, ha⟩, fun _ => rfl⟩

/-! ## Opening and writing -/

/-- What a new writer is like: it has a block, and a buffer on a store that falls back to disk; or it
does nothing, and this is counted. -/
inductive Opened (edge : Edge) (id : BlockId) (a : Account α) : Writer σ α → Account α → Prop
  | writing {w : Writer σ α} {b : Block α} : edge.store = some w.store → w.id = id →
      w.state = .writing → w.block = some b → w.Tends b → b.keepsSizes = w.store.tracksSizes →
      (w.store.spillsToDisk = true → b.Blank w.id w.store) →
      (∀ t, w.tracker = some t → t.elements = #[] ∧ t.Sparse) →
      w.writtenBytes = none → w.spilled = false → Opened edge id a w a
  | omitted {w : Writer σ α} : edge.store = some w.store → w.id = id → w.state = .noOp →
      w.block = none → w.tracker = none → w.writtenBytes = none → w.spilled = false →
      Opened edge id a w { a with metrics := a.metrics.duplicateOmitted }

theorem makeTracker_sparse :
    Leads (· = e) (makeTracker (α := α)) (fun t e' => (t.elements = #[] ∧ t.Sparse) ∧
      e'.account = e.account) fun e' => e'.account = e.account := by
  intro e' hsame
  subst hsame
  simp only [makeTracker]
  cases hmake : Tracker.make (α := α) e'.tracker e'.estimator with
  | mk result estimator =>
    cases result with
    | ok t => exact ⟨⟨Tracker.make_elements hmake, Tracker.make_sparse hmake⟩, rfl⟩
    | error fault => rfl

theorem make_opens (task : TaskId) (edge : Edge) (destination : Destination)
    (p : Partitioner σ α) :
    Leads (· = e) (make task edge destination p)
      (fun w e' => Opened edge (.of edge.id task) e.account w e'.account)
      fun e' => e'.account = e.account := by
  refine Leads.bind (Q := fun store e' => edge.store = some store ∧ e' = e)
    (Leads.ofExcept ?_ fun _ h => h ▸ rfl) fun store => Leads.given fun hstore => ?_
  · rintro store _ hrequired rfl
    cases hfield : edge.store with
    | none => simp [Edge.requiredStore, Edge.require, hfield] at hrequired
    | some _ => simp_all [Edge.requiredStore, Edge.require]
  split
  · refine Leads.bind (Q := fun _ e' =>
      e'.account = { e.account with metrics := e.metrics.duplicateOmitted })
      (Leads.modify fun _ h => h ▸ rfl) fun _ => Leads.pure fun e' h => ?_
    rw [h]
    exact .omitted hstore rfl rfl rfl rfl rfl rfl
  · refine Leads.bind (Q := fun b e' => (b.id = .of edge.id task ∧
      b.keepsSizes = store.tracksSizes ∧
      (store.spillsToDisk = true → b.Blank (.of edge.id task) store)) ∧
      e'.account = e.account) ?_ fun b => Leads.given fun hb => ?_
    · exact Leads.weaken (((createBlock_account _ store).both (createBlock_suits _ store)) e trivial)
        (fun _ h => h) (fun _ _ h => ⟨h.2.1, h.1⟩) fun _ h => h
    obtain ⟨hid, hsizes, hblank⟩ := hb
    have hopened : ∀ w : Writer σ α, w.store = store → w.id = .of edge.id task →
        w.state = .writing → w.block = some b → w.tracker.isSome = store.spillsToDisk →
        (∀ t, w.tracker = some t → t.elements = #[] ∧ t.Sparse) → w.writtenBytes = none →
        w.spilled = false → ∀ e' : Executor α, e'.account = e.account →
        Opened edge (.of edge.id task) e.account w e'.account := by
      rintro w rfl hw hstate hblock hbuffered hempty hbytes hspilled e' ha
      rw [ha]
      exact .writing hstore hw hstate hblock ⟨hid.trans hw.symm, hbuffered⟩ hsizes
        (fun hspills => hw ▸ hblank hspills) hempty hbytes hspilled
    by_cases hspills : store.spillsToDisk = true
    · simp only [if_pos hspills]
      refine Leads.bind (Q := fun tracker e' => (tracker.isSome = store.spillsToDisk ∧
        ∀ t, tracker = some t → t.elements = #[] ∧ t.Sparse) ∧ e'.account = e.account) ?_
        fun tracker => Leads.given fun htracker => Leads.pure (hopened _ rfl rfl rfl rfl
          htracker.1 htracker.2 rfl rfl)
      intro e' he'
      rw [← he']
      refine Leads.bind (makeTracker_sparse (e := e')) (fun t => Leads.pure fun _ h => ?_) e' rfl
      refine ⟨⟨hspills.symm, fun _ hsame => ?_⟩, h.2⟩
      cases hsame
      exact h.1
    · simp only [if_neg hspills]
      exact Leads.bind (Q := fun tracker e' => tracker = none ∧ e'.account = e.account)
        (Leads.pure fun _ h => ⟨rfl, h⟩) fun tracker => Leads.given fun hnone =>
          Leads.pure (hopened _ rfl rfl rfl rfl (by simp [hnone, hspills]) (by simp [hnone]) rfl rfl)

/-- The writer is the same, but for its block, its buffer and the keys that it gives. -/
structure Alike (w w' : Writer σ α) : Prop where
  edge : w'.edge = w.edge
  destination : w'.destination = w.destination
  id : w'.id = w.id
  store : w'.store = w.store
  state : w'.state = w.state
  writtenBytes : w'.writtenBytes = w.writtenBytes
  spilled : w'.spilled = w.spilled

/-- The next write takes an element into the buffer and reaches a checkpoint. -/
def due (w : Writer σ α) : Bool := w.state = .writing ∧ w.tracker.any (·.due) = true

/-- What writing this element comes to: nothing, one more element in the buffer, or one in the
block. -/
inductive Wrote (w : Writer σ α) (x : α) : Writer σ α → Prop
  | idle : w.state ≠ .writing ∨ w.block = none ∧ w.tracker = none → Wrote w x w
  | buffered {t : Tracker α} (e : SizeEstimator) : w.state = .writing → w.tracker = some t →
      Wrote w x { w with tracker := some (t.append e x).2.1 }
  | through {b b' : Block α} (p : Partitioner σ α) : w.state = .writing → w.tracker = none →
      w.block = some b → b.Like b' → Wrote w x { w with partitioner := p, block := some b' }

theorem Wrote.alike {x : α} {w' : Writer σ α} (h : Wrote w x w') : Alike w w' := by
  cases h <;> constructor <;> rfl

/-- At most one sample is counted. It is counted when it was taken, if the tracker has not used up
its own count. -/
theorem buffer_stands {t : Tracker α} (hstate : w.state = .writing) (ht : w.tracker = some t)
    (x : α) :
    ∃ m, (buffer t x (w, e)).2.2.account = { e.account with metrics := m } ∧
      (m = e.metrics ∨ m = e.metrics.trackerSampled) ∧
      (t.samplesTaken.toNat + 1 < 2 ^ 64 →
        m = if w.due = true ∧ (buffer t x (w, e)).1 = .ok () then e.metrics.trackerSampled
          else e.metrics) := by
  refine ⟨if t.samplesTaken < (t.append e.estimator x).2.1.samplesTaken then
    e.metrics.trackerSampled else e.metrics, rfl, (ite_eq_or_eq _ _ _).symm,
    fun hroom => if_congr ?_ rfl rfl⟩
  rw [Tracker.append_samplesTaken, UInt64.lt_iff_toNat_lt]
  show _ ↔ w.due = true ∧ (t.append e.estimator x).1 = .ok ()
  simp only [due, hstate, ht, Option.any_some, true_and, decide_eq_true_eq]
  split
  · next hsampled =>
    rw [UInt64.toNat_add, UInt64.toNat_one, Nat.mod_eq_of_lt hroom]
    exact iff_of_true (Nat.lt_succ_self _) hsampled
  · next hsampled => exact iff_of_false (Nat.lt_irrefl _) hsampled

theorem write_idle (hstate : w.state ≠ .writing ∨ w.block = none ∧ w.tracker = none) (x : α) :
    (write x (w, e)).2 = (w, e) := by
  cases hsame : w.state with
  | noOp | committedMemory | committedDisk =>
    simp only [write, bind_apply, Step.read, hsame]
    rfl
  | writing =>
    obtain ⟨hblock, htracker⟩ := hstate.resolve_left fun hne => hne hsame
    simp only [write, bind_apply, Step.read, hsame, htracker, hblock]
    rfl

/-- A write leaves the records alone, but for a sample that it may count. -/
theorem write_stands (x : α) :
    Wrote w x (write x (w, e)).2.1 ∧
      ∃ m, (write x (w, e)).2.2.account = { e.account with metrics := m } ∧
        (m = e.metrics ∨ m = e.metrics.trackerSampled) ∧
        ((∀ t, w.tracker = some t → t.samplesTaken.toNat + 1 < 2 ^ 64) →
          m = if w.due = true ∧ (write x (w, e)).1 = .ok () then e.metrics.trackerSampled
            else e.metrics) := by
  by_cases hidle : w.state ≠ .writing ∨ w.block = none ∧ w.tracker = none
  · have hundue : w.due = false := by
      rcases hidle with hstate | ⟨-, htracker⟩
      · simp [due, hstate]
      · simp [due, htracker]
    rw [write_idle hidle, hundue]
    exact ⟨.idle hidle, e.metrics, rfl, .inl rfl, fun _ => by simp⟩
  obtain ⟨hstate, hheld⟩ := not_or.mp hidle
  have hstate := not_not.mp hstate
  cases htracker : w.tracker with
  | some t =>
    have hbuffer : write x (w, e) = buffer t x (w, e) := by
      simp only [write, bind_apply, Step.read, hstate, htracker]
    rw [hbuffer]
    obtain ⟨m, ha, heither, hm⟩ := buffer_stands (e := e) hstate htracker x
    exact ⟨.buffered e.estimator hstate htracker, m, ha, heither, fun hroom => hm (hroom t rfl)⟩
  | none =>
    have hundue : w.due = false := by simp [due, htracker]
    obtain ⟨b, hblock⟩ := Option.ne_none_iff_exists'.mp fun hnone => hheld ⟨hnone, htracker⟩
    have hput := put_along filling_sameAccount b (w.partitioner.next x).1 x
      (w.partitioner.next x).2.dedicated e trivial _ rfl
    have hwrite : ∀ result e', put b (w.partitioner.next x).1 x
        (w.partitioner.next x).2.dedicated e = (result, e') → (write x (w, e)).2 =
          ({ w with
            partitioner := (w.partitioner.next x).2
            block := some (result.toOption.elim b (·.block)) }, e') := by
      intro result e' hrun
      simp only [write, bind_apply, Step.read, hstate, htracker, hblock, update, Step.modify,
        onExecutor, within, hrun]
      cases result <;> rfl
    cases hrun : put b (w.partitioner.next x).1 x (w.partitioner.next x).2.dedicated e with
    | mk result e' =>
      rw [hrun] at hput
      rw [hwrite result e' hrun, hundue]
      cases result with
      | ok c =>
        exact ⟨.through _ hstate htracker hblock hput.2.1, e.metrics, hput.1, .inl rfl,
          fun _ => by simp⟩
      | error fault =>
        exact ⟨.through _ hstate htracker hblock (Block.Like.refl b), e.metrics, hput, .inl rfl,
          fun _ => by simp⟩

end Closing

end Writer

end ShuffleBuffer
