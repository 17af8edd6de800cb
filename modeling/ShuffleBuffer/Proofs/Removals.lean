import ShuffleBuffer.Proofs.Evictions
import ShuffleBuffer.Proofs.Others

/-! # Removals

The removal of a registered block is in order: the registration goes, then the charge is given back,
then the file is deleted. Only the last can fail: where the file is gone already, for instance since
another block of the same name was given up, and where it may not be deleted. What was done before
stays done, so no charge is kept for a block that has lost its file, and none for a file that is
left behind; the removal of a name that is not registered does nothing at all. This holds of all
states that writers, whoever uses blocks without a writer, and whoever shares the pool and the spill
directory can bring about. -/

namespace ShuffleBuffer

open Estimate Step

variable {σ α : Type}

/-! ## One removal -/

/-- How the removal of a registered block ends, and how it leaves the spill directory. -/
inductive Deletes (removed : RegisteredBlock α) (d : SpillDir) :
    Except Fault BlockInfo → SpillDir → Prop
  | unfiled : removed.block.location = none → Deletes removed d (.ok removed.info) d
  | deleted {file : String} : removed.block.location = some file →
      (d.names.lookup file).isSome = true → d.locked = false →
      Deletes removed d (.ok removed.info) { d with names := d.names.filter (·.1 ≠ file) }
  /-- Somebody else took the file away. -/
  | missing {file : String} : removed.block.location = some file →
      d.names.lookup file = none → Deletes removed d (.error .io) d
  /-- The file is there and stays there. -/
  | refused {file : String} : removed.block.location = some file →
      (d.names.lookup file).isSome = true → d.locked = true → Deletes removed d (.error .io) d

namespace Deletes

variable {removed : RegisteredBlock α} {d d' : SpillDir} {result : Except Fault BlockInfo}

/-- Files of other names are as they were, also where somebody has them open. -/
theorem others (h : Deletes removed d result d') {name : String}
    (hname : removed.block.location ≠ some name) : d'.read name = d.read name := by
  cases h with
  | unfiled | missing | refused => rfl
  | @deleted file hfile _ _ =>
    have hother : name ≠ file := fun heq => hname (heq ▸ hfile)
    simp only [SpillDir.read, lookup_filter_ne _ hother, SpillDir.content]

/-- Where nothing failed, the block has no file any more. -/
theorem file_gone {info : BlockInfo} (h : Deletes removed d (.ok info) d') {name : String}
    (hname : removed.block.location = some name) : d'.names.lookup name = none := by
  cases h with
  | unfiled hnone => exact nomatch hnone.symm.trans hname
  | deleted hfile _ _ =>
    cases hfile.symm.trans hname
    exact lookup_filter_self _ _

/-- Whoever deletes nothing changes nothing. -/
theorem files_kept {fault : Fault} (h : Deletes removed d (.error fault) d') : d' = d := by
  cases h with
  | missing | refused => rfl

theorem fails_iff (h : Deletes removed d result d') :
    result = .error .io ↔ ∃ file, removed.block.location = some file ∧
      (d.names.lookup file = none ∨ d.locked = true) := by
  cases h with
  | unfiled hnone =>
    refine ⟨nofun, fun ⟨file, hfile, _⟩ => ?_⟩
    exact nomatch hnone.symm.trans hfile
  | @deleted file hfile hthere hfree =>
    refine ⟨nofun, fun ⟨other, hother, hfails⟩ => ?_⟩
    cases hfile.symm.trans hother
    rcases hfails with hnone | hlocked
    · rw [hnone] at hthere
      cases hthere
    · exact nomatch hfree.symm.trans hlocked
  | missing hfile hnone => exact ⟨fun _ => ⟨_, hfile, .inl hnone⟩, fun _ => rfl⟩
  | refused hfile _ hlocked => exact ⟨fun _ => ⟨_, hfile, .inr hlocked⟩, fun _ => rfl⟩

end Deletes

/-- What becomes of an executor when this block is removed, however the removal ends. -/
structure Removed (id : BlockId) (removed : RegisteredBlock α) (result : Except Fault BlockInfo)
    (e e' : Executor α) : Prop where
  files : Deletes removed e.registry.medium.dir result e'.registry.medium.dir
  fails : result = .error .io ↔ ∃ file, removed.block.location = some file ∧
    (e.registry.medium.dir.names.lookup file = none ∨ e.registry.medium.dir.locked = true)
  deleted : ∀ info, result = .ok info → ∀ file, removed.block.location = some file →
    e'.registry.medium.dir.names.lookup file = none
  kept : ∀ fault, result = .error fault → e'.registry.medium.dir = e.registry.medium.dir
  entry : e'.registry.entry? id = none
  entries : ∀ other, other ≠ id → e'.registry.entry? other = e.registry.entry? other
  contents : ∀ other key, other ≠ id →
    e'.registry.readPartition other key = e.registry.readPartition other key
  charge : e'.pool.charged? id = none
  charges : ∀ other, other ≠ id → e'.pool.charged? other = e.pool.charged? other
  counter : e'.pool.remaining =
    e.pool.remaining + (e.pool.charged? id).elim 0 signedAmount
  /-- The rest: the capacity, other registrations and what is known of earlier blocks. -/
  rest : e' = { e with
    pool := { e.pool with remaining := e'.pool.remaining, charges := e'.pool.charges }
    registry := { e.registry with
      blocks := e'.registry.blocks
      medium := { e.registry.medium with dir := e'.registry.medium.dir } } }

namespace Pool

theorem remaining_releaseBlock (p : Pool) (id : BlockId) :
    (p.releaseBlock id).2.remaining = p.remaining + (p.charged? id).elim 0 signedAmount := by
  unfold releaseBlock
  cases p.charged? id with
  | some amount => rfl
  | none => exact (Int64.add_zero _).symm

theorem capacity_releaseBlock (p : Pool) (id : BlockId) :
    (p.releaseBlock id).2.capacity = p.capacity := by
  unfold releaseBlock
  split
  · rfl
  · rfl

end Pool

namespace Block

variable {b b' : Block α} {m m' : Medium α}

/-- Blocks share a file only where they share their name. -/
theorem id_of_location {name : String} (h : b.location = some name)
    (h' : b'.location = some name) : b.id = b'.id := by
  by_contra hne
  obtain ⟨id', store, state, body⟩ := b'
  cases body with
  | values | encoded => cases h'
  | file => exact location_ne hne (h.trans h'.symm)

/-- Of what lies in the spill directory, a block reads its own file at most. -/
theorem readPartition_of_read (key : PartitionKey) (hcodec : m'.codec = m.codec)
    (hread : ∀ name, b.location = some name → m'.dir.read name = m.dir.read name) :
    b.readPartition key m' = b.readPartition key m := by
  obtain ⟨id, store, state, body⟩ := b
  cases body with
  | values => rfl
  | encoded => simp only [readPartition, Medium.decode, hcodec]
  | file => simp only [readPartition, Medium.decode, hcodec, hread _ rfl]

end Block

namespace Executor

variable {e : Executor α} {id : BlockId} {removed : RegisteredBlock α}

theorem deleteFile_deletes (removed : RegisteredBlock α) (m : Medium α) :
    ∃ dir, (removed.block.deleteFile m).2 = { m with dir } ∧
      Deletes removed m.dir ((removed.block.deleteFile m).1.map fun _ => removed.info) dir := by
  unfold Block.deleteFile
  cases hlocation : removed.block.location with
  | none => exact ⟨m.dir, rfl, .unfiled hlocation⟩
  | some file =>
    simp only [Medium.onDir, within, SpillDir.remove]
    cases hfile : m.dir.names.lookup file with
    | none => exact ⟨_, rfl, .missing hlocation hfile⟩
    | some _ =>
      have hthere : (m.dir.names.lookup file).isSome = true := Option.isSome_of_eq_some hfile
      dsimp only
      split
      · next hlocked => exact ⟨_, rfl, .refused hlocation hthere hlocked⟩
      · next hfree => exact ⟨_, rfl, .deleted hlocation hthere (Bool.eq_false_iff.mpr hfree)⟩

/-- A name that is not registered is refused, and nothing is done. -/
theorem removeBlock_unknown (hentry : e.registry.entry? id = none) :
    removeBlock id e = (.error (.notFound (.block id)), e) := by
  simp only [removeBlock, bind_apply, Step.read, Step.ofExcept, Registry.entry, hentry]

/-- A removal answers what the deletion of the file makes of it. -/
theorem removeBlock_answers (hentry : e.registry.entry? id = some removed) :
    (removeBlock id e).1 =
      (removed.block.deleteFile e.registry.medium).1.map fun _ => removed.info := by
  simp only [removeBlock, bind_apply, Step.read, Step.ofExcept, Registry.entry, hentry,
    Step.modify, onMedium, onRegistry, Registry.onMedium, within]
  cases removed.block.deleteFile e.registry.medium with
  | mk result medium =>
    cases result with
    | ok _ => rfl
    | error _ => rfl

theorem removeBlock_removed (hreturns : e.registry.returnsCharges = true)
    (hkeyed : e.registry.Keyed) (hentry : e.registry.entry? id = some removed) :
    Removed id removed (removeBlock id e).1 e (removeBlock id e).2 := by
  obtain ⟨hnone, -⟩ | ⟨_, hentry', hremoved⟩ := removeBlock_cases id e
  · cases hnone.symm.trans hentry
  cases hentry.symm.trans hentry'
  obtain ⟨dir, hmedium, hdeletes⟩ := deleteFile_deletes removed e.registry.medium
  rw [← removeBlock_answers hentry] at hdeletes
  rw [hmedium, if_pos hreturns] at hremoved
  have hentries : ∀ other, other ≠ id →
      (removeBlock id e).2.registry.entry? other = e.registry.entry? other := by
    intro other hother
    rw [hremoved]
    exact lookup_filter_ne _ hother
  refine ⟨?_, hdeletes.fails_iff, fun info hok file hfile => ?_, fun fault hfails => ?_, ?_,
    hentries, fun other key hother => ?_, ?_, fun other hother => ?_, ?_, ?_⟩
  · rw [hremoved]
    exact hdeletes
  · rw [hok] at hdeletes
    rw [hremoved]
    exact hdeletes.file_gone hfile
  · rw [hfails] at hdeletes
    rw [hremoved]
    exact hdeletes.files_kept
  · rw [hremoved]
    exact lookup_filter_self _ _
  · simp only [Registry.readPartition, Registry.entry, hentries other hother]
    cases hfound : e.registry.entry? other with
    | none => rfl
    | some entry =>
      -- the removed block has the file of its name, and this one is of another name
      have hnamed : removed.block.id = id := hkeyed _ (mem_of_lookup hentry)
      have hnamed' : entry.block.id = other := hkeyed _ (mem_of_lookup hfound)
      rw [hremoved]
      refine Block.readPartition_of_read key rfl fun name hname => hdeletes.others fun hsame => ?_
      exact hother ((hnamed'.symm.trans (Block.id_of_location hname hsame)).trans hnamed)
  · rw [hremoved]
    exact (Pool.charged_releaseBlock _ _ _).trans (if_pos rfl)
  · rw [hremoved]
    exact (Pool.charged_releaseBlock _ _ _).trans (if_neg hother)
  · rw [hremoved]
    exact Pool.remaining_releaseBlock _ _
  · rw [hremoved]
    simp only [Executor.mk.injEq, true_and, and_true]
    rw [← Pool.capacity_releaseBlock e.pool id]

/-- Blocks stay registered under their own names, and removals go on to give charges back. -/
structure Regular (e : Executor α) : Prop where
  returns : e.registry.returnsCharges = true
  keyed : e.registry.Keyed

/-- What is regular stays so. -/
def regular : Change (Executor α) where
  rel e e' := e.Regular → e'.Regular
  refl _ := fun h => h
  trans h h' := fun he => h' (h he)

theorem regular_of_books {e e' : Executor α} (h : sameBooks.rel e e') : regular.rel e e' := by
  intro he
  refine ⟨h.returns.trans he.returns, ?_⟩
  rw [Registry.Keyed, h.blocks]
  exact he.keyed

theorem register_regular (b : Block α) (store : StoreKind) (reads : UInt32)
    (persistence : Persistence) (e : Executor α) :
    regular.rel e (onRegistry (Registry.register b store reads persistence) e).2 := by
  intro he
  simp only [onRegistry, within, Registry.register, bind_apply, Step.ofExcept]
  cases b.require .register .committed with
  | error fault => exact he
  | ok _ =>
    refine ⟨he.returns, fun entry hentry => ?_⟩
    obtain rfl | hold := List.mem_cons.mp hentry
    · rfl
    · exact he.keyed entry (List.mem_filter.mp hold).1

theorem putSpilled_books (id : BlockId) (source target : StoreKind) (e : Executor α) :
    sameBooks.rel e (onRegistry (Registry.putSpilled id source target) e).2 := by
  simp only [onRegistry, within, Registry.putSpilled]
  split
  · exact ⟨rfl, rfl, rfl⟩
  · exact ⟨rfl, rfl, rfl⟩

/-- Whatever a writer does is such a change. -/
theorem neutral_regular :
    Neutral (fun _ => True) (fun _ => True) (regular (α := α)) fun _ _ => True where
  stable _ := fun _ h => h
  steady := fun _ h => h
  suited h := h
  metrics _ _ := fun he => ⟨he.returns, he.keyed⟩
  estimate _ _ _ := fun he => ⟨he.returns, he.keyed⟩
  create store hid := (quiet_sameBooks.create store hid).mono fun _ _ => regular_of_books
  write b key x := (quiet_sameBooks.write b key x).mono fun _ _ => regular_of_books
  commitPartitions b := (quiet_sameBooks.commitPartitions b).mono fun _ _ => regular_of_books
  commit b := (quiet_sameBooks.commit b).mono fun _ _ => regular_of_books
  spill b := (quiet_sameBooks.spill b).mono fun _ _ => regular_of_books
  release _ := fun he => ⟨he.returns, he.keyed⟩
  register b store reads persistence _ :=
    ask_along (fun _ h => h) (fun _ _ he => ⟨he.returns, he.keyed⟩)
      (Along.of_rel fun e _ => register_regular b store reads persistence e)
  replace {id} source target _ :=
    ask_along (fun _ h => h) (fun _ _ he => ⟨he.returns, he.keyed⟩)
      (Along.of_rel fun e _ => regular_of_books (putSpilled_books id source target e))

theorem removeBlock_regular (id : BlockId) (e : Executor α) :
    regular.rel e (removeBlock id e).2 := by
  intro he
  obtain ⟨-, hsame⟩ | ⟨removed, -, hremoved⟩ := removeBlock_cases id e
  · rw [hsame]
    exact he
  · rw [hremoved]
    exact ⟨he.returns, fun entry hentry => he.keyed entry (List.mem_filter.mp hentry).1⟩

end Executor

/-! ## What can come before -/

/-- What can happen to a session: the calls of writers, removals and disturbances; what is done with
a block that no writer holds; what the registry is told; and what others make of the pool. -/
inductive Deed (σ α : Type) where
  | call (call : Call σ α)
  | create (name : String) (id : BlockId) (store : StoreKind)
  | write (name : String) (key : PartitionKey) (x : α)
  | commitPartitions (name : String)
  | commit (name : String)
  | spill (name : String)
  | register (name : String) (store : StoreKind) (reads : UInt32) (persistence : Persistence)
  | drop (name : String)
  | putSpilled (id : BlockId) (source target : StoreKind)
  /-- Whoever else uses the pool leaves it like this. -/
  | leavePool (p : Pool)

namespace Session

open Executor

variable {β : Type}

/-- A step with the block of this name; none if there is no such block. -/
def onBlock (name : String) (x : Block α → Step (Session σ α) β) (s : Session σ α) :
    Session σ α :=
  match s.block? name with
  | none => s
  | some b => (x b s).2

theorem changeBlock_books (name : String) (x : Step (Medium α) (β × Changed α))
    (s : Session σ α) : sameBooks.rel s.executor (changeBlock name x s).2.executor := by
  simp only [changeBlock, bind_apply, Session.onMedium, Session.onExecutor, Executor.onMedium,
    onRegistry, Registry.onMedium, within]
  cases x s.executor.registry.medium with
  | mk result medium =>
    cases result with
    | ok answer =>
      obtain ⟨_, block, result⟩ := answer
      cases result with
      | ok _ => exact ⟨rfl, rfl, rfl⟩
      | error _ => exact ⟨rfl, rfl, rfl⟩
    | error _ => exact ⟨rfl, rfl, rfl⟩

theorem spillBlock_books (name : String) (b : Block α) (s : Session σ α) :
    sameBooks.rel s.executor (spillBlock name b s).2.executor := by
  have hchange := changeBlock_books name (do return ((), { block := ← b.spill })) s
  simp only [spillBlock, bind_apply]
  cases hresult : changeBlock name (do return ((), { block := ← b.spill })) s with
  | mk result s' =>
    rw [hresult] at hchange
    cases result with
    | ok _ => exact sameBooks.trans hchange ⟨rfl, rfl, rfl⟩
    | error _ => exact hchange

theorem dropBlock_books (name : String) (s : Session σ α) :
    sameBooks.rel s.executor (s.dropBlock name).executor := by
  unfold dropBlock
  split
  · exact ⟨rfl, rfl, rfl⟩
  · exact ⟨rfl, rfl, rfl⟩

theorem createBlock_books (name : String) (id : BlockId) (store : StoreKind) (s : Session σ α) :
    sameBooks.rel s.executor (createBlock name id store s).2.executor := by
  have hmade : sameBooks.rel s.executor
      (onRegistry (Registry.createBlock id store) s.executor).2 := by
    have hcreate : Along (sameBooks (α := α)) (fun _ => True) (Executor.createBlock id store)
        fun _ _ => True := quiet_sameBooks.create store trivial
    have hasked := hcreate.rel (s := s.executor) trivial
    exact ⟨hasked.pool, hasked.blocks, hasked.returns⟩
  simp only [createBlock, bind_apply, Session.onExecutor, within]
  cases hresult : onRegistry (Registry.createBlock id store) s.executor with
  | mk result e =>
    rw [hresult] at hmade
    cases result with
    | error _ => exact hmade
    | ok b => exact sameBooks.trans hmade (dropBlock_books name { s with executor := e })

theorem registerBlock_regular (name : String) (b : Block α) (store : StoreKind) (reads : UInt32)
    (persistence : Persistence) (s : Session σ α) :
    regular.rel s.executor (registerBlock name b store reads persistence s).2.executor ∧
      (registerBlock name b store reads persistence s).2.executor.pool = s.executor.pool := by
  have hregister := register_regular b store reads persistence s.executor
  simp only [registerBlock, bind_apply, Step.modify, onFault, Session.onExecutor, forgetBlock,
    within]
  cases hresult : onRegistry (Registry.register b store reads persistence) s.executor with
  | mk result e =>
    have hpool : e.pool = s.executor.pool := congrArg (·.2.pool) hresult.symm
    rw [hresult] at hregister
    cases result with
    | ok _ => exact ⟨hregister, hpool⟩
    | error _ =>
      exact ⟨fun he => ⟨(hregister he).returns, (hregister he).keyed⟩, hpool⟩

theorem onBlock_keeps {P : Executor α → Prop} (name : String)
    {x : Block α → Step (Session σ α) β} {s : Session σ α} (hs : P s.executor)
    (hx : ∀ b, P (x b s).2.executor) : P (s.onBlock name x).executor := by
  unfold onBlock
  split
  · exact hs
  · exact hx _

variable [Measured α]

/-- What a deed makes of a session. -/
def act (s : Session σ α) : Deed σ α → Session σ α
  | .call call => (perform call s).2
  | .create name id store => (createBlock name id store s).2
  | .write name key x =>
      s.onBlock name fun b => changeBlock name do return ((), ← b.write key x)
  | .commitPartitions name =>
      s.onBlock name fun b => changeBlock name do return ((), ← b.commitPartitions)
  | .commit name => s.onBlock name fun b => changeBlock name b.commit
  | .spill name => s.onBlock name (spillBlock name)
  | .register name store reads persistence =>
      s.onBlock name fun b => registerBlock name b store reads persistence
  | .drop name => s.dropBlock name
  | .putSpilled id source target =>
      (onExecutor (onRegistry (Registry.putSpilled id source target)) s).2
  | .leavePool p => { s with executor := { s.executor with pool := p } }

def actAll (s : Session σ α) (deeds : List (Deed σ α)) : Session σ α := deeds.foldl act s

/-- Whoever else uses the pool undoes what it was denied, and gives back what blocks are charged. -/
def Fair : Session σ α → List (Deed σ α) → Prop
  | _, [] => True
  | s, deed :: deeds =>
      (∀ p, deed = .leavePool p → s.executor.pool.Moves p) ∧ Fair (s.act deed) deeds

theorem perform_regular (call : Call σ α) (s : Session σ α) :
    regular.rel s.executor (perform call s).2.executor := by
  have hfollows := perform_follows neutral_regular (fun _ _ he => ⟨he.returns, he.keyed⟩)
    (.everywhere s) (call.within_all removeBlock_regular fun _ _ he => ⟨he.returns, he.keyed⟩)
  exact hfollows.executor

theorem act_regular (deed : Deed σ α) {s : Session σ α} (hs : s.executor.Regular) :
    (s.act deed).executor.Regular := by
  have hbooks : ∀ {s' : Session σ α}, sameBooks.rel s.executor s'.executor →
      s'.executor.Regular := fun h => regular_of_books h hs
  cases deed with
  | call call => exact perform_regular call s hs
  | create name id store => exact hbooks (createBlock_books name id store s)
  | write name | commitPartitions name | commit name =>
    exact onBlock_keeps name hs fun b => hbooks (changeBlock_books name _ s)
  | spill name => exact onBlock_keeps name hs fun b => hbooks (spillBlock_books name b s)
  | register name store reads persistence =>
    exact onBlock_keeps name hs fun b =>
      (registerBlock_regular name b store reads persistence s).1 hs
  | drop name => exact hbooks (dropBlock_books name s)
  | putSpilled id source target => exact hbooks (putSpilled_books id source target s.executor)
  | leavePool p => exact ⟨hs.returns, hs.keyed⟩

/-- Only calls and others move the pool, the former in the known ways. -/
theorem act_moves (deed : Deed σ α) (s : Session σ α)
    (hfair : ∀ p, deed = .leavePool p → s.executor.pool.Moves p) :
    s.executor.pool.Moves (s.act deed).executor.pool := by
  have hbooks : ∀ {s' : Session σ α}, sameBooks.rel s.executor s'.executor →
      s.executor.pool.Moves s'.executor.pool := fun h => h.pool ▸ .still
  cases deed with
  | call call => exact perform_moves call s
  | create name id store => exact hbooks (createBlock_books name id store s)
  | write name | commitPartitions name | commit name =>
    exact onBlock_keeps (P := fun e => s.executor.pool.Moves e.pool) name .still fun b =>
      hbooks (changeBlock_books name _ s)
  | spill name =>
    exact onBlock_keeps (P := fun e => s.executor.pool.Moves e.pool) name .still fun b =>
      hbooks (spillBlock_books name b s)
  | register name store reads persistence =>
    refine onBlock_keeps (P := fun e => s.executor.pool.Moves e.pool) name .still fun b => ?_
    rw [(registerBlock_regular name b store reads persistence s).2]
    exact .still
  | drop name => exact hbooks (dropBlock_books name s)
  | putSpilled id source target => exact hbooks (putSpilled_books id source target s.executor)
  | leavePool p => exact hfair p rfl

theorem actAll_regular (deeds : List (Deed σ α)) {s : Session σ α} (hs : s.executor.Regular) :
    (s.actAll deeds).executor.Regular := by
  induction deeds generalizing s with
  | nil => exact hs
  | cons deed deeds ih => exact ih (act_regular deed hs)

theorem actAll_balanced {capacity : UInt64} {deeds : List (Deed σ α)} {s : Session σ α}
    (hs : s.executor.pool.Balanced capacity) (hfair : s.Fair deeds) :
    (s.actAll deeds).executor.pool.Balanced capacity := by
  induction deeds generalizing s with
  | nil => exact hs
  | cons deed deeds ih => exact ih (hs.moves (act_moves deed s hfair.1)) hfair.2

/-- A removal after any deeds, where removals give charges back. The name of no registered block is
refused and nothing is done. A registered block is gone afterwards, and its charge with it, whether
the removal succeeds or fails, and nothing becomes of other blocks. It fails exactly where the block
should have a file and nobody finds it or may delete it; no file is touched then, and otherwise the
block has none any more. Where all keep to the rules of the pool, the counter grows by exactly the
charge. -/
theorem removeBlock_after_deeds {s : Session σ α}
    (hreturns : s.executor.registry.returnsCharges = true)
    (hblocks : s.executor.registry.blocks = []) (deeds : List (Deed σ α)) (id : BlockId) :
    let e := (s.actAll deeds).executor
    let e' := (removeBlock id e).2
    (e.registry.entry? id = none → removeBlock id e = (.error (.notFound (.block id)), e)) ∧
    ∀ removed, e.registry.entry? id = some removed →
      Removed id removed (removeBlock id e).1 e e' ∧
      ∀ capacity, s.executor.pool = .ofCapacity capacity → s.Fair deeds →
        e'.pool.remaining.toInt =
          e.pool.remaining.toInt + ((e.pool.charged? id).getD 0).toNat := by
  intro e e'
  have hregular : e.Regular := by
    refine actAll_regular deeds ⟨hreturns, fun entry hentry => ?_⟩
    rw [hblocks] at hentry
    cases hentry
  refine ⟨removeBlock_unknown, fun removed hentry => ?_⟩
  have hremoved := removeBlock_removed hregular.returns hregular.keyed hentry
  refine ⟨hremoved, fun capacity hpool hfair => ?_⟩
  have hbalanced : e.pool.Balanced capacity :=
    actAll_balanced (hpool ▸ Pool.balanced_ofCapacity capacity) hfair
  have hcounter : e'.pool.remaining = (e.pool.releaseBlock id).2.remaining :=
    hremoved.counter.trans (Pool.remaining_releaseBlock e.pool id).symm
  rw [hcounter]
  cases hcharge : e.pool.charged? id with
  | none =>
    rw [Pool.remaining_releaseBlock, hcharge]
    simp
  | some amount => exact hbalanced.returned_eq hcharge

/-- A block in a file is charged and registered, and a second one of its name is given up. -/
def twoOfOneName : List (Deed UInt32 UInt64) :=
  [.leavePool ((Pool.ofCapacity 1000).reserve ⟨"e-t"⟩ 100).2,
    .create "b" ⟨"e-t"⟩ .localFile, .write "b" 0 7, .commit "b", .register "b" .localFile 1 .keep,
    .create "c" ⟨"e-t"⟩ .localFile, .spill "c"]

/-- The second block took the file with it, so the first is removed without one. -/
theorem removeBlock_after_deeds_stolen :
    let start : Session UInt32 UInt64 := {
      executor := {
        registry := { medium := { codec := .json }, returnsCharges := true }
        pool := .ofCapacity 1000
        estimator := .ofOptions {} } }
    let e := (start.actAll twoOfOneName).executor
    (removeBlock ⟨"e-t"⟩ e).2.registry.entry? ⟨"e-t"⟩ = none ∧
      (removeBlock ⟨"e-t"⟩ e).2.pool.remaining.toInt = e.pool.remaining.toInt + 100 := by
  intro start
  have hspec := (removeBlock_after_deeds (s := start) rfl rfl twoOfOneName ⟨"e-t"⟩).2
  dsimp only at hspec ⊢
  generalize he : (start.actAll twoOfOneName).executor = e at hspec ⊢
  have hregistered : (e.registry.entry? ⟨"e-t"⟩).isSome = true := by
    rw [← he]
    decide +kernel
  have hcharge : e.pool.charged? ⟨"e-t"⟩ = some 100 := by
    rw [← he]
    decide +kernel
  have hfair : start.Fair twoOfOneName := by
    refine ⟨fun p hp => ?_, nofun, nofun, nofun, nofun, nofun, nofun, trivial⟩
    cases hp
    exact .granted (p := .ofCapacity 1000) (by decide)
  obtain ⟨removed, hentry⟩ := Option.isSome_iff_exists.mp hregistered
  obtain ⟨hremoved, hcounter⟩ := hspec removed hentry
  have hgrown := hcounter 1000 rfl hfair
  rw [hcharge] at hgrown
  exact ⟨hremoved.entry, hgrown⟩

/-- A removal that fails is not undone. -/
theorem failed_removal_takes :
    let start : Session UInt32 UInt64 := {
      executor := {
        registry := { medium := { codec := .json }, returnsCharges := true }
        pool := .ofCapacity 1000
        estimator := .ofOptions {} } }
    let e := (start.actAll twoOfOneName).executor
    let e' := (removeBlock ⟨"e-t"⟩ e).2
    (removeBlock ⟨"e-t"⟩ e).1 = .error .io ∧
      e.registry.info? ⟨"e-t"⟩ = some ⟨.localFile, 1, .keep, some "e-t.block"⟩ ∧
      e'.registry.info? ⟨"e-t"⟩ = none ∧
      e.pool.charged? ⟨"e-t"⟩ = some 100 ∧ e'.pool.charged? ⟨"e-t"⟩ = none ∧
      e.pool.remaining = 900 ∧ e'.pool.remaining = 1000 := by
  decide +kernel

/-- Nor is one that leaves the file behind. -/
example :
    let start : Session UInt32 UInt64 := {
      executor := {
        registry := { medium := { codec := .json }, returnsCharges := true }
        pool := .ofCapacity 1000
        estimator := .ofOptions {} } }
    let sealed : SpillDir := { locked := true, names := [("e-t.block", 0)], contents := [{}] }
    let e := (start.actAll (twoOfOneName.take 5 ++ [.call (.disturb sealed)])).executor
    let e' := (removeBlock ⟨"e-t"⟩ e).2
    (removeBlock ⟨"e-t"⟩ e).1 = .error .io ∧ e'.registry.info? ⟨"e-t"⟩ = none ∧
      e'.pool.charged? ⟨"e-t"⟩ = none ∧ e'.pool.remaining = 1000 ∧
      e'.registry.medium.dir.names.lookup "e-t.block" = some 0 := by
  decide +kernel

end Session

end ShuffleBuffer
