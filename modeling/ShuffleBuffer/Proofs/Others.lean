import Mathlib.Data.ENat.Basic
import ShuffleBuffer.Proofs.Closing
import ShuffleBuffer.Proofs.Frames

/-! # What others do to a block

Writers leave a registered block as it is, and the file of its name, unless they ask for a file or
a registration under this name. So the trace of requests tells how long the block stays: as long as
not too many of these were noted. Writers of blocks of other names never ask for them, and so never
touch it. -/

namespace ShuffleBuffer

open Estimate Step

variable {α : Type} {id : BlockId}

theorem fileName_ne {id id' : BlockId} (h : id' ≠ id) :
    Block.fileName id' ≠ Block.fileName id := by
  intro heq
  apply h
  cases id
  cases id'
  exact congrArg BlockId.mk (String.append_left_inj _ |>.mp heq)

/-- A block of another name has no file of this name. -/
theorem Block.location_ne {b : Block α} (h : b.id ≠ id) : b.location ≠ some (fileName id) := by
  obtain ⟨id', store, state, body⟩ := b
  cases body with
  | values | encoded => nofun
  | file => exact fun heq => fileName_ne h (Option.some.inj heq)

/-! ## Files -/

namespace Medium

/-- Files are used as they should be; and while this is `live`, the file of this name is left as it
is. -/
structure Watched (id : BlockId) (live : Prop) (m m' : Medium α) : Prop where
  kept : Kept m m'
  file : live → SpillDir.Apart (Block.fileName id) m.dir m'.dir

def watched (id : BlockId) (live : Prop) : Change (Medium α) where
  rel := Watched id live
  refl m := ⟨Kept.refl m, fun _ => SpillDir.Apart.refl _ _⟩
  trans h h' := ⟨h.kept.trans h'.kept, fun hlive => (h.file hlive).trans (h'.file hlive)⟩

/-- A block that has a file of its own open, if any; not the file of this name, while it is
`live`. -/
structure Stranger (id : BlockId) (live : Prop) (b : Block α) (m : Medium α) : Prop where
  sound : b.Sound m.dir
  other : live → b.location ≠ some (Block.fileName id)

variable {live : Prop} {b b' : Block α} {m m' : Medium α} {β : Type} {C : β → Prop}

theorem Stranger.saved (b : Block α) : (watched (α := α) id live).Saves (Stranger id live b) :=
  fun hrel h => ⟨h.sound.kept hrel.kept.dir, h.other⟩

theorem Stranger.becomes (h : Stranger id live b m) (hb : b.Becomes b') : Stranger id live b' m :=
  ⟨h.sound.becomes hb, fun hlive => hb.like.location ▸ h.other hlive⟩

theorem watched_of_writing (hrel : (writing b.held).rel m m') (h : Stranger id live b m) :
    Watched id live m m' :=
  ⟨kept_of_writing hrel, fun hlive => apart_of_writing hrel h.sound (h.other hlive)⟩

/-- Who only writes to the file that such a block has open makes such a change. -/
theorem watched_along {x : Step (Medium α) β}
    (hx : Along (writing b.held) (fun _ => True) x fun a _ => C a) :
    Along (watched id live) (Stranger id live b) x fun a m => C a ∧ Stranger id live b m := by
  intro m hm
  refine Leads.weaken (hx m trivial) (fun _ h => h) (fun a m' h => ?_) fun m' h => ?_
  · have hrel := watched_of_writing h.1 hm
    exact ⟨hrel, h.2, Stranger.saved b hrel hm⟩
  · exact watched_of_writing h hm

end Medium

namespace Block

open Medium

variable {live : Prop}

theorem write_watched (b : Block α) (key : PartitionKey) (x : α) :
    Along (watched id live) (Stranger id live b) (b.write key x) fun c =>
      Stranger id live c.block :=
  Along.weaken (watched_along (write_writing b key x)) (fun _ h => h) fun _ _ h => h.2.becomes h.1

theorem commitPartitions_watched (b : Block α) :
    Along (watched id live) (Stranger id live b) b.commitPartitions fun c =>
      Stranger id live c.block :=
  Along.weaken (watched_along (commitPartitions_writing b)) (fun _ h => h)
    fun _ _ h => h.2.becomes h.1

theorem commit_watched (b : Block α) :
    Along (watched id live) (Stranger id live b) b.commit fun r => Stranger id live r.2.block :=
  Along.weaken (watched_along (commit_writing b)) (fun _ h => h) fun _ _ h => h.2.becomes h.1

theorem deleteFile_watched {b : Block α} (h : live → b.location ≠ some (fileName id)) :
    Along (watched id live) (fun _ => True) b.deleteFile fun _ _ => True :=
  Along.of_rel fun m _ => ⟨deleteFile_kept b m, fun hlive => deleteFile_apart (h hlive) m⟩

/-- Giving up a block deletes the file of its name and no other. -/
theorem spill_watched (b : Block α) :
    Along (watched id live) (Stranger id live b) (do (← b.spill).deleteFile)
      fun _ => Stranger id live b := by
  refine Along.bind (watched_along (spill_writing b)) fun b' => Along.given fun hb => ?_
  intro m hm
  have hother : live → b'.location ≠ some (fileName id) := hb.like.location ▸ hm.other
  exact (deleteFile_watched hother).saves (Stranger.saved b) m hm

theorem ofFile_watched {id' : BlockId} (h : live → id' ≠ id) (store : StoreKind) :
    Along (watched id live) (fun m => m.dir.WellFormed) (ofFile (α := α) id' store)
      (Stranger id live) := by
  intro m hm m' hsame
  subst hsame
  have hkept := SpillDir.create_kept (fileName id') m'.dir
  have hrel : Medium.Watched id live m'
      { m' with dir := (SpillDir.create (fileName id') m'.dir).2 } :=
    ⟨⟨rfl, hkept⟩, fun hlive => SpillDir.create_apart (fileName_ne (h hlive)) hm⟩
  simp only [ofFile, bind_apply, onDir, within]
  cases hcreate : SpillDir.create (fileName id') m'.dir with
  | mk result dir =>
    have hown := fun file => @SpillDir.create_own m'.dir (fileName id') file hm
    rw [hcreate] at hrel hown
    cases result with
    | error fault => exact hrel
    | ok file =>
      refine ⟨hrel, fun file' hfile => ?_, fun hlive heq => ?_⟩
      · cases hfile
        exact hown file rfl
      · exact fileName_ne (h hlive) (Option.some.inj heq)

end Block

/-! ## Executors -/

/-- Blocks are registered under their own names. -/
def Registry.Keyed (r : Registry α) : Prop := ∀ entry ∈ r.blocks, entry.2.block.id = entry.1

/-- A request for a file under this name. -/
def Request.isFiling (id : BlockId) (request : Request) : Bool := request = .create id .localFile

/-- A request to register a block of this name. -/
def Request.isRegistration (id : BlockId) : Request → Bool
  | .register other .. => other = id
  | _ => false

namespace Executor

/-- How many files were asked for under a name. -/
def filings (id : BlockId) (e : Executor α) : Nat := e.requests.countP (Request.isFiling id)

/-- How many registrations were asked for under a name. -/
def registrations (id : BlockId) (e : Executor α) : Nat :=
  e.requests.countP (Request.isRegistration id)

/-- The file of this name is as it was if fewer than `n` files were asked for under the name, and
so is the registration if fewer than `r` were asked for. -/
structure Spares (id : BlockId) (n r : ℕ∞) (e e' : Executor α) : Prop where
  filings : e.filings id ≤ e'.filings id
  registrations : e.registrations id ≤ e'.registrations id
  file : e'.filings id < n →
    SpillDir.Apart (Block.fileName id) e.registry.medium.dir e'.registry.medium.dir
  entry : e'.registrations id < r → e'.registry.entry? id = e.registry.entry? id

/-- What others do while a file and a registration are watched. -/
structure Watched (id : BlockId) (n r : ℕ∞) (e e' : Executor α) : Prop where
  medium : Medium.Kept e.registry.medium e'.registry.medium
  keyed : e.registry.Keyed → e'.registry.Keyed
  spares : Spares id n r e e'
  able : Able e e'

theorem Spares.refl (id : BlockId) (n r : ℕ∞) (e : Executor α) : Spares id n r e e :=
  ⟨Nat.le_refl _, Nat.le_refl _, fun _ => SpillDir.Apart.refl _ _, fun _ => rfl⟩

theorem Spares.trans {n r : ℕ∞} {e e' e'' : Executor α} (h : Spares id n r e e')
    (h' : Spares id n r e' e'') : Spares id n r e e'' := by
  refine ⟨Nat.le_trans h.filings h'.filings, Nat.le_trans h.registrations h'.registrations,
    fun hlive => ?_, fun hlive => ?_⟩
  · have hlive' := lt_of_le_of_lt (Nat.cast_le.mpr h'.filings) hlive
    exact (h.file hlive').trans (h'.file hlive)
  · have hlive' := lt_of_le_of_lt (Nat.cast_le.mpr h'.registrations) hlive
    exact (h'.entry hlive).trans (h.entry hlive')

def watched (id : BlockId) (n r : ℕ∞) : Change (Executor α) where
  rel := Watched id n r
  refl e := ⟨Medium.Kept.refl _, fun h => h, Spares.refl id n r e, Able.refl e⟩
  trans h h' := ⟨h.medium.trans h'.medium, fun he => h'.keyed (h.keyed he),
    h.spares.trans h'.spares, h.able.trans h'.able⟩

/-- Names lead to files and registrations as they should. If writers may use the name, one more file
and one more registration under it are already too many. -/
structure Sited (ids : BlockId → Prop) (id : BlockId) (n r : ℕ∞) (e : Executor α) : Prop where
  formed : e.registry.medium.dir.WellFormed
  keyed : e.registry.Keyed
  filings : ids id → n ≤ (e.filings id + 1 : Nat)
  registrations : ids id → r ≤ (e.registrations id + 1 : Nat)

/-- A block that does not share the file of this name, as long as it matters. -/
structure Stranger (ids : BlockId → Prop) (id : BlockId) (n r : ℕ∞) (b : Block α)
    (e : Executor α) : Prop where
  sited : Sited ids id n r e
  block : Medium.Stranger id (e.filings id < n) b e.registry.medium

variable {ids : BlockId → Prop} {n r : ℕ∞} {b : Block α} {e e' : Executor α} {β : Type}

theorem Sited.later {n' r' : ℕ∞} (h : Sited ids id n r e) (hrel : Watched id n' r' e e') :
    Sited ids id n r e' := by
  refine ⟨hrel.medium.dir.formed h.formed, hrel.keyed h.keyed, fun hid => ?_, fun hid => ?_⟩
  · exact (h.filings hid).trans (Nat.cast_le.mpr (Nat.succ_le_succ hrel.spares.filings))
  · exact (h.registrations hid).trans
      (Nat.cast_le.mpr (Nat.succ_le_succ hrel.spares.registrations))

theorem Stranger.later {n' r' : ℕ∞} (h : Stranger ids id n r b e) (hrel : Watched id n' r' e e') :
    Stranger ids id n r b e' := by
  refine ⟨h.sited.later hrel, h.block.sound.kept hrel.medium.dir, fun hlive => ?_⟩
  exact h.block.other (lt_of_le_of_lt (Nat.cast_le.mpr hrel.spares.filings) hlive)

theorem Sited.saved : (watched (α := α) id n r).Saves (Sited ids id n r) := fun hrel h =>
  h.later hrel

theorem Stranger.saved (b : Block α) : (watched (α := α) id n r).Saves (Stranger ids id n r b) :=
  fun hrel h => h.later hrel

/-- Where the registry and the trace stay, nothing is touched. -/
theorem Watched.of_same (hregistry : e'.registry = e.registry)
    (hrequests : e'.requests = e.requests) (hable : Able e e') : Watched id n r e e' := by
  have hfilings : e'.filings id = e.filings id := by
    rw [Executor.filings, Executor.filings, hrequests]
  have hregistrations : e'.registrations id = e.registrations id := by
    rw [Executor.registrations, Executor.registrations, hrequests]
  refine ⟨?_, fun h => hregistry ▸ h, ⟨hfilings.ge, hregistrations.ge, fun _ => ?_, fun _ => ?_⟩,
    hable⟩
  · rw [hregistry]
    exact Medium.Kept.refl _
  · rw [hregistry]
    exact SpillDir.Apart.refl _ _
  · rw [hregistry]

/-- To note a request touches nothing. -/
theorem Watched.note (request : Request) :
    Watched id n r e { e with requests := request :: e.requests } := by
  refine ⟨Medium.Kept.refl _, fun h => h, ⟨?_, ?_, fun _ => SpillDir.Apart.refl _ _, fun _ => rfl⟩,
    ⟨rfl, fun h => h⟩⟩
  · exact List.Sublist.countP_le (List.sublist_cons_self _ _)
  · exact List.Sublist.countP_le (List.sublist_cons_self _ _)

/-- Where registrations and the trace stay, only files are touched. -/
theorem Watched.of_medium {registry : Registry α}
    (h : Medium.Watched id (e.filings id < n) e.registry.medium registry.medium)
    (hblocks : registry.blocks = e.registry.blocks) : Watched id n r e { e with registry } := by
  refine ⟨h.kept, fun he => ?_, ⟨Nat.le_refl _, Nat.le_refl _, h.file, fun _ => ?_⟩,
    ⟨rfl, fun h => h⟩⟩
  · rw [Registry.Keyed, hblocks]
    exact he
  · rw [Registry.entry?, hblocks]
    rfl

/-- What is asked of a block touches as much as the block does. -/
theorem asked_watched {x : Step (Medium α) β} {f : β → Block α} (request : Request)
    (hx : ∀ live, Along (Medium.watched id live) (Medium.Stranger id live b) x
      fun a => Medium.Stranger id live (f a)) :
    Along (watched id n r) (Stranger ids id n r b) (ask request (onMedium x))
      fun a => Stranger ids id n r (f a) := by
  refine ask_along (Stranger.saved b) (fun e _ => Watched.note request) fun e he => ?_
  unfold onMedium onRegistry Registry.onMedium
  refine Leads.within fun e' hsame => ?_
  subst hsame
  refine Leads.within fun _ hsame => ?_
  subst hsame
  refine Leads.weaken (hx _ _ he.block) (fun _ h => h) (fun a m h => ?_) fun _ h => .of_medium h rfl
  have hrel : Watched id n r e' { e' with registry := { e'.registry with medium := m } } :=
    .of_medium h.1 rfl
  exact ⟨hrel, Sited.saved hrel he.sited, h.2⟩

theorem createBlock_watched {id' : BlockId} (hid : ids id') (store : StoreKind) :
    Along (watched (α := α) id n r) (Sited ids id n r) (createBlock id' store)
      (Stranger ids id n r) := by
  refine Along.bind (M := fun _ e => Sited ids id n r e ∧
    (store = .localFile → e.filings id < n → id' ≠ id)) (Along.modify fun e he => ?_) fun _ => ?_
  · refine ⟨Watched.note _, Sited.saved (Watched.note _) he, ?_⟩
    intro hstore hlive hsame
    subst hstore hsame
    refine absurd hlive (not_lt.mpr ((he.filings hid).trans (Nat.cast_le.mpr ?_)))
    simp [Executor.filings, Request.isFiling]
  intro e he e' hsame
  subst hsame
  obtain ⟨hsited, hfile⟩ := he
  have hcounted : ∀ medium, Medium.Watched id (e'.filings id < n) e'.registry.medium medium →
      Watched id n r e' { e' with registry := { e'.registry with
        medium, created := e'.registry.created + 1 } } := fun medium h => .of_medium h rfl
  have hstill := hcounted _ ((Medium.watched id _).refl _)
  cases store with
  | memory | memoryFile => exact ⟨hstill, Sited.saved hstill hsited, nofun, nofun⟩
  | serializedMemory | serializedMemoryFile =>
    exact ⟨hstill, Sited.saved hstill hsited, nofun, nofun⟩
  | localFile =>
    have hmade := Block.ofFile_watched (α := α) (hfile rfl) .localFile e'.registry.medium
      hsited.formed _ rfl
    simp only [onRegistry, Registry.createBlock, Registry.onMedium, within, bind_apply]
    cases hcreate : Block.ofFile id' .localFile e'.registry.medium with
    | mk result medium =>
      rw [hcreate] at hmade
      cases result with
      | error fault => exact .of_medium hmade rfl
      | ok b =>
        have hrel := hcounted medium hmade.1
        exact ⟨hrel, Sited.saved hrel hsited, hmade.2⟩

theorem register_watched (b : Block α) (hid : ids b.id) (store : StoreKind) (reads : UInt32)
    (persistence : Persistence) :
    Along (watched id n r) (Stranger ids id n r b) (register b store reads persistence)
      fun _ _ => True := by
  refine Along.bind (M := fun _ e => e.registrations id < r → b.id ≠ id)
    (Along.modify fun e he => ⟨Watched.note _, ?_⟩) fun _ => Along.of_rel fun e hother => ?_
  · intro hlive hsame
    subst hsame
    refine absurd hlive (not_lt.mpr ((he.sited.registrations hid).trans (Nat.cast_le.mpr ?_)))
    simp [Executor.registrations, Request.isRegistration]
  · simp only [onRegistry, within, Registry.register, bind_apply, Step.ofExcept]
    cases b.require .register .committed with
    | error fault => exact (watched id n r).refl e
    | ok _ =>
      refine ⟨Medium.Kept.refl _, fun he entry hentry => ?_, ⟨Nat.le_refl _, Nat.le_refl _,
        fun _ => SpillDir.Apart.refl _ _, fun hlive => ?_⟩, ⟨rfl, fun h => h⟩⟩
      · obtain rfl | hold := List.mem_cons.mp hentry
        · rfl
        · exact he entry (List.mem_filter.mp hold).1
      · have hne := hother hlive
        exact (lookup_cons_ne (Ne.symm hne)).trans (lookup_filter_ne _ (Ne.symm hne))

/-- Whatever a writer of such a block does is such a change. -/
theorem neutral_watched (ids : BlockId → Prop) (id : BlockId) (n r : ℕ∞) :
    Neutral ids (Sited (α := α) ids id n r) (watched id n r) (Stranger ids id n r) where
  stable := Stranger.saved
  steady := Sited.saved
  suited h := h.sited
  metrics _ _ := Watched.of_same rfl rfl ⟨rfl, fun h => h⟩
  estimate _ g root := Watched.of_same rfl rfl ⟨rfl, fun h => h.estimate g root⟩
  create store hid := createBlock_watched hid store
  write b key x := asked_watched _ fun _ => Block.write_watched b key x
  commitPartitions b := asked_watched _ fun _ => Block.commitPartitions_watched b
  commit b := asked_watched _ fun _ => Block.commit_watched b
  spill b := asked_watched _ fun _ => Block.spill_watched b
  release h := .of_medium (Medium.watched_of_writing (Block.release_writing _ _) h.block) rfl
  register b store reads persistence hid := register_watched b hid store reads persistence
  replace source target _ := by
    refine ask_along (fun _ h => h) (fun e _ => Watched.note _) (Along.of_rel fun e _ => ?_)
    simp only [onRegistry, within, Registry.putSpilled]
    split
    · exact .of_medium ((Medium.watched id _).refl _) rfl
    · exact (watched id n r).refl e

/-- Removing another block leaves this one alone. -/
theorem removeBlock_watched {id' : BlockId} (h : 0 < n ∨ 0 < r → id' ≠ id) {e : Executor α}
    (he : e.registry.Keyed) : (watched id n r).rel e (removeBlock id' e).2 := by
  obtain ⟨-, hsame⟩ | ⟨removed, hentry, hremoved⟩ := removeBlock_cases id' e
  · rw [hsame]
    exact (watched id n r).refl e
  · rw [hremoved]
    have hnamed : removed.block.id = id' := he _ (mem_of_lookup hentry)
    have hother : (e.filings id : ℕ∞) < n → removed.block.location ≠ some (Block.fileName id) :=
      fun hlive => Block.location_ne (hnamed ▸ h (.inl (pos_of_gt hlive)))
    have hdeleted := (Block.deleteFile_watched hother).rel (s := e.registry.medium) trivial
    refine ⟨hdeleted.kept, fun hkeyed entry hentry => ?_,
      ⟨Nat.le_refl _, Nat.le_refl _, hdeleted.file, fun hlive => ?_⟩, ⟨rfl, fun h => h⟩⟩
    · exact hkeyed entry (List.mem_filter.mp hentry).1
    · exact lookup_filter_ne _ (Ne.symm (h (.inr (pos_of_gt hlive))))

end Executor

end ShuffleBuffer
