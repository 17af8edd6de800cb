import ShuffleBuffer.Proofs.Balance
import ShuffleBuffer.Proofs.Handles
import ShuffleBuffer.Proofs.Trackers
import ShuffleBuffer.Writer

/-! # What the calls of a writer leave alone

A sort of change of executors is quiet towards writers on blocks of certain names if each single
thing that they ask for, but the registration of a block, is such a change, and if the blocks they
hold keep a property that makes it so. It is neutral towards them if registering is such a change,
too. Then whole calls are such changes, also when they fail. Only a close touches the pool, and it
does so in one of the ways that `Pool.Moves` lists. -/

namespace ShuffleBuffer

open Estimate Step

variable {σ α : Type}

namespace Executor

variable {α β : Type}

/-! ## What is asked -/

/-- `R` is a change that is made of what goes into a block with the property `B`, also if it does not
get there. No such change takes the property away. -/
structure Filling (R : Change (Executor α)) (B : Block α → Executor α → Prop) : Prop where
  stable : ∀ b, R.Saves (B b)
  write : ∀ (b : Block α) (key : PartitionKey) (x : α), Along R (B b) (write b key x) fun c =>
    B c.block
  commitPartitions : ∀ b : Block α, Along R (B b) (commitPartitions b) fun c => B c.block
  release : ∀ {b e}, B b e → R.rel e (e.release b)

/-- `R` is a change that each step of a writer makes short of registering its block, if the block
has a name in `ids` and the property `B`, which no such change takes away. Blocks are created where
`S` holds. -/
structure Quiet (ids : BlockId → Prop) (S : Executor α → Prop) (R : Change (Executor α))
    (B : Block α → Executor α → Prop) : Prop extends Filling R B where
  steady : R.Saves S
  suited : ∀ {b e}, B b e → S e
  metrics : ∀ (e : Executor α) (m : Metrics), R.rel e { e with metrics := m }
  estimate : ∀ (e : Executor α) (g : Graph) (root : NodeId),
    R.rel e { e with estimator := (e.estimator.estimate g root).2 }
  create : ∀ {id} (store : StoreKind), ids id → Along R S (createBlock id store) B
  commit : ∀ b : Block α, Along R (B b) (commit b) fun r => B r.2.block
  spill : ∀ b : Block α, Along R (B b) (spill b) fun _ => B b

structure Neutral (ids : BlockId → Prop) (S : Executor α → Prop) (R : Change (Executor α))
    (B : Block α → Executor α → Prop) : Prop extends Quiet ids S R B where
  register : ∀ (b : Block α) (store : StoreKind) (reads : UInt32) (persistence : Persistence),
    ids b.id → Along R (B b) (register b store reads persistence) fun _ _ => True
  replace : ∀ {id} (source target : StoreKind), ids id →
    Along R (fun _ => True) (putSpilled id source target) fun _ _ => True

variable {ids : BlockId → Prop} {S : Executor α → Prop} {R : Change (Executor α)}
  {B : Block α → Executor α → Prop} {P : Executor α → Prop} {Q : β → Executor α → Prop}

theorem count_along (h : Quiet ids S R B) (f : Metrics → Metrics) :
    Along R (fun _ => True) (count f) fun _ _ => True :=
  Along.of_rel fun e _ => h.metrics e _

/-- Where noting a request is such a change, asking is what it asks for. -/
theorem ask_along {request : Request} {x : Step (Executor α) β} (hP : R.Saves P)
    (hnote : ∀ e, P e → R.rel e { e with requests := request :: e.requests })
    (hx : Along R P x Q) : Along R P (ask request x) Q := by
  refine Along.bind (M := fun _ => P) (Along.modify fun e he => ?_) fun _ => hx
  exact ⟨hnote e he, hP (hnote e he) he⟩

/-- What a block answers does not depend on who asks. -/
theorem asked_answers {x : Step (Medium α) β} {C : β → Prop} (request : Request)
    (h : Leads (fun _ => True) x (fun a _ => C a) fun _ => True) :
    Leads (fun _ => True) (ask request (onMedium x)) (fun a _ => C a) fun _ => True := by
  refine Leads.bind (Q := fun _ _ => True) (Leads.modify fun _ _ => trivial) fun _ => ?_
  unfold onMedium onRegistry Registry.onMedium
  refine Leads.within fun _ _ => Leads.within fun _ _ => ?_
  exact Leads.weaken h (fun _ _ => trivial) (fun _ _ h => h) fun _ h => h

theorem write_becomes (b : Block α) (key : PartitionKey) (x : α) :
    Leads (fun _ => True) (write b key x) (fun c _ => b.Becomes c.block) fun _ => True :=
  asked_answers _ (Block.write_writing b key x).answers

theorem commitPartitions_becomes (b : Block α) :
    Leads (fun _ => True) (commitPartitions b) (fun c _ => b.Becomes c.block) fun _ => True :=
  asked_answers _ (Block.commitPartitions_writing b).answers

theorem commit_becomes (b : Block α) :
    Leads (fun _ => True) (commit b) (fun r _ => b.Becomes r.2.block) fun _ => True :=
  asked_answers _ (Block.commit_writing b).answers

/-- A new block has the name that was asked for. -/
theorem createBlock_named (id : BlockId) (store : StoreKind) :
    Leads (fun _ => True) (createBlock (α := α) id store) (fun b _ => b.id = id)
      fun _ => True := by
  refine Leads.bind (Q := fun _ _ => True) (Leads.modify fun _ _ => trivial) fun _ => ?_
  have hmade : ∀ x : Step (Registry α) (Block α),
      Leads (fun _ => True) x (fun b _ => b.id = id) (fun _ => True) →
      Leads (fun _ => True) (do
        let b ← x
        Step.modify fun r => { r with created := r.created + 1 }
        return b) (fun b _ => b.id = id) fun _ => True := by
    intro x hx
    refine Leads.bind hx fun b => ?_
    exact Leads.bind (Q := fun _ _ => b.id = id) (Leads.modify fun _ h => h) fun _ =>
      Leads.pure fun _ h => h
  suffices h : Leads (fun _ => True) (Registry.createBlock (α := α) id store) (fun b _ => b.id = id)
      fun _ => True from Leads.within fun _ _ => Leads.weaken h (fun _ _ => trivial)
        (fun _ _ h => h) fun _ h => h
  cases store with
  | memory | memoryFile => exact hmade (pure (Block.ofValues id _)) (Leads.pure fun _ _ => rfl)
  | serializedMemory | serializedMemoryFile =>
    exact hmade (pure (Block.ofEncoded id _)) (Leads.pure fun _ _ => rfl)
  | localFile =>
    refine hmade (Registry.onMedium (Block.ofFile id _)) (Leads.within fun _ _ => ?_)
    refine Leads.bind (Q := fun _ _ => True) (Leads.of_apply fun _ _ => trivial) fun file => ?_
    exact Leads.pure fun _ _ => rfl

end Executor

namespace Writer

open Executor

variable {ids : BlockId → Prop} {S : Executor α → Prop} {R : Change (Executor α)}
  {B : Block α → Executor α → Prop} {β : Type} {P : Executor α → Prop} {Q : β → Executor α → Prop}

/-! ## A writer and its block -/

/-- The block that the writer holds, if any, has one of these names and the property. -/
def Holding (ids : BlockId → Prop) (B : Block α → Executor α → Prop)
    (s : Writer σ α × Executor α) : Prop :=
  ∀ b, s.1.block = some b → ids b.id ∧ B b s.2

/-- What a writer and the block that it holds have to do with each other: the name, and that there
is a buffer exactly on a store that falls back to disk. -/
structure Tends (w : Writer σ α) (b : Block α) : Prop where
  id : b.id = w.id
  buffered : w.tracker.isSome = w.store.spillsToDisk

def Tended (w : Writer σ α) : Prop := ∀ b, w.block = some b → w.Tends b

/-- A change of the executor, next to a writer that keeps its name and its store. If it still holds
a block, it is the one that it held, and has the property if it was changed. -/
structure Beside (R : Change (Executor α)) (B : Block α → Executor α → Prop)
    (s s' : Writer σ α × Executor α) : Prop where
  executor : R.rel s.2 s'.2
  id : s'.1.id = s.1.id
  store : s'.1.store = s.1.store
  block : ∀ b', s'.1.block = some b' → s'.1.tracker.isSome = s.1.tracker.isSome ∧
    ∃ b, s.1.block = some b ∧ b.Like b' ∧ (b' = b ∨ B b' s'.2)

/-- The writer is the same. -/
theorem Beside.of_rel {w : Writer σ α} {e e' : Executor α} (h : R.rel e e') :
    Beside R B (w, e) (w, e') :=
  ⟨h, rfl, rfl, fun b hb => ⟨rfl, b, hb, Block.Like.refl b, .inl rfl⟩⟩

def beside (h : Quiet ids S R B) : Change (Writer σ α × Executor α) where
  rel := Beside R B
  refl s := Beside.of_rel (R.refl s.2)
  trans := by
    intro s s' s'' hrel hrel'
    refine ⟨R.trans hrel.executor hrel'.executor, hrel'.id.trans hrel.id,
      hrel'.store.trans hrel.store, fun b'' hb'' => ?_⟩
    obtain ⟨htracker', b', hb', hlike', hnew'⟩ := hrel'.block b'' hb''
    obtain ⟨htracker, b, hb, hlike, hnew⟩ := hrel.block b' hb'
    refine ⟨htracker'.trans htracker, b, hb, hlike.trans hlike', ?_⟩
    obtain rfl | hnew' := hnew'
    · exact hnew.imp_right (h.stable _ hrel'.executor)
    · exact .inr hnew'

variable {h : Quiet ids S R B}

theorem Holding.saved {s s' : Writer σ α × Executor α} (hrel : (beside h).rel s s')
    (hs : Holding ids B s) : Holding ids B s' := by
  intro b' hb'
  obtain ⟨-, b, hb, hlike, hnew⟩ := hrel.block b' hb'
  obtain ⟨hid, hB⟩ := hs b hb
  refine ⟨hlike.id ▸ hid, ?_⟩
  obtain rfl | hnew := hnew
  · exact h.stable _ hrel.executor hB
  · exact hnew

theorem Tended.saved {s s' : Writer σ α × Executor α} (hrel : Beside R B s s')
    (hs : s.1.Tended) : s'.1.Tended := by
  intro b' hb'
  obtain ⟨htracker, b, hb, hlike, -⟩ := hrel.block b' hb'
  obtain ⟨hid, hbuffered⟩ := hs b hb
  refine ⟨?_, ?_⟩
  · rw [hlike.id, hid, hrel.id]
  · rw [htracker, hbuffered, hrel.store]

theorem onExecutor_along {x : Step (Executor α) β} (hx : Along R P x Q) :
    Along (beside (σ := σ) h) (fun s => P s.2) (onExecutor x) fun a s => Q a s.2 := by
  intro s hs s' hsame
  subst hsame
  refine Leads.within (P := (· = s')) ?_ s' rfl
  intro _ hsame
  subst hsame
  exact Leads.weaken (hx _ hs) (fun _ h => h) (fun _ _ h => ⟨Beside.of_rel h.1, h.2⟩)
    fun _ h => Beside.of_rel h

/-- A change of the writer alone, which keeps its name, its store, its block and its buffer. -/
theorem update_along {f : Writer σ α → Writer σ α}
    (hf : ∀ w, (f w).id = w.id ∧ (f w).store = w.store ∧ (f w).block = w.block ∧
      (f w).tracker = w.tracker) :
    Along (beside h) (fun s => P s.2) (update f) fun _ s => P s.2 := by
  refine Along.modify fun s hs => ⟨?_, hs⟩
  obtain ⟨hid, hstore, hblock, htracker⟩ := hf s.1
  refine ⟨R.refl _, hid, hstore, fun b hb => ⟨congrArg Option.isSome htracker, b, ?_, ?_, .inl rfl⟩⟩
  · exact hblock ▸ hb
  · exact Block.Like.refl b

theorem count_beside (hP : R.Saves P) (f : Metrics → Metrics) :
    Along (beside (σ := σ) h) (fun s => P s.2) (onExecutor (count f)) fun _ s => P s.2 :=
  onExecutor_along ((count_along h f).saves hP)

section Buffer

variable [Measured α]

theorem makeTracker_along (h : Quiet ids S R B) :
    Along R (fun _ => True) (makeTracker (α := α)) fun _ _ => True := by
  refine Along.of_rel fun e _ => ?_
  rcases Tracker.make_estimator (α := α) e.tracker e.estimator with hsame | ⟨g, root, hestimate⟩
  · simp only [makeTracker, hsame]
    exact R.refl e
  · simp only [makeTracker, hestimate]
    exact h.estimate e g root

theorem takeElements_along (h : Quiet ids S R B) (t : Tracker α) :
    Along R (fun _ => True) (takeElements t) fun _ _ => True := by
  refine Along.of_rel fun e _ => ?_
  obtain ⟨g, root, hestimate⟩ :=
    Tracker.takeSample_estimator (Tracker.blank (α := α) t.growthRate t.shared) e.estimator
  simp only [takeElements, Tracker.takeElements, Tracker.clear, hestimate]
  exact h.estimate e g root

theorem buffer_along (t : Tracker α) (x : α) :
    Along (beside (σ := σ) h) (fun s => s.1.tracker = some t) (buffer t x) fun _ _ => True := by
  refine Along.of_rel fun ⟨w, e⟩ ht => ⟨?_, rfl, rfl, fun b hb => ⟨?_, b, hb, ?_, .inl rfl⟩⟩
  · rcases Tracker.append_estimator t e.estimator x with hsame | ⟨g, root, hestimate⟩
    · simp only [buffer, hsame]
      exact h.metrics e _
    · simp only [buffer, hestimate]
      exact R.trans (h.estimate e g root) (h.metrics _ _)
  · rw [show w.tracker = some t from ht]
    rfl
  · exact Block.Like.refl b

end Buffer

/-! ## Opening and writing -/

theorem put_along (h : Filling R B) (block : Block α) (key : PartitionKey) (x : α)
    (dedicated : Bool) :
    Along R (B block) (put block key x dedicated) fun c e => block.Like c.block ∧ B c.block e := by
  refine Along.bind ((h.write block key x).both (write_becomes block key x)) fun c => ?_
  refine Along.given fun hc => ?_
  have hdone : Along R (B c.block) (pure c) fun c e => block.Like c.block ∧ B c.block e :=
    Along.pure fun _ he => ⟨hc.like, he⟩
  split
  · refine Along.ite ?_ hdone
    refine Along.weaken ((h.commitPartitions c.block).both (commitPartitions_becomes c.block))
      (fun _ he => he) ?_
    exact fun _ _ he => ⟨hc.like.trans he.1.like, he.2⟩
  · exact hdone

theorem putAll_along (h : Filling R B) (xs : List α) (q : Partitioner σ α) (block : Block α) :
    Along R (B block) (putAll xs q block) fun b e => block.Like b ∧ B b e := by
  induction xs generalizing q block with
  | nil => exact Along.pure fun _ he => ⟨Block.Like.refl block, he⟩
  | cons x xs ih =>
    have hrelease : ∀ (b : Block α) (e e' : Executor α), B b e → R.rel e e' →
        R.rel e' (e'.release b) := fun b _ _ he hrel => h.release (h.stable b hrel he)
    refine Along.bind (Along.onFault (put_along h _ _ _ _) (hrelease block)) fun c => ?_
    refine Along.given fun hc => ?_
    refine Along.bind (M := fun _ => B c.block)
      (Along.onFault (Along.ofExcept fun _ _ _ he => he) (hrelease c.block)) fun _ => ?_
    exact Along.weaken (ih _ c.block) (fun _ he => he) fun _ _ he => ⟨hc.trans he.1, he.2⟩

theorem make_along [Measured α] (h : Quiet ids S R B) (task : TaskId) (edge : Edge)
    (hid : ids (BlockId.of edge.id task)) (destination : Destination) (q : Partitioner σ α) :
    Along R S (make task edge destination q) fun w e =>
      w.id = BlockId.of edge.id task ∧ w.Tended ∧ Holding ids B (w, e) := by
  refine Along.bind (M := fun _ => S) (Along.ofExcept fun _ _ _ h => h) fun store => ?_
  refine Along.ite ?_ ?_
  · refine Along.bind ((count_along h _).saves h.steady) fun _ =>
      Along.pure fun _ _ => ⟨rfl, nofun, nofun⟩
  · refine Along.bind ((h.create store hid).both (createBlock_named _ store)) fun block => ?_
    refine Along.given fun hblock => ?_
    have hheld : ∀ w : Writer σ α, w.id = BlockId.of edge.id task → w.block = some block →
        w.tracker.isSome = w.store.spillsToDisk → ∀ e, B block e →
        w.id = BlockId.of edge.id task ∧ w.Tended ∧ Holding ids B (w, e) := by
      intro w hw hheld htracker e he
      refine ⟨hw, fun b hb => ?_, fun b hb => ?_⟩
      · cases hheld.symm.trans hb
        exact ⟨hblock.trans hw.symm, htracker⟩
      · cases hheld.symm.trans hb
        exact ⟨hblock ▸ hid, he⟩
    by_cases hspills : store.spillsToDisk = true
    · simp only [if_pos hspills]
      refine Along.bind (M := fun tracker e => tracker.isSome = store.spillsToDisk ∧ B block e) ?_
        fun tracker => Along.given fun htracker => Along.pure (hheld {
          edge := edge
          destination
          partitioner := q
          id := _
          store
          block := some block
          tracker } rfl rfl htracker)
      exact Along.bind ((makeTracker_along h).saves (h.stable block)) fun _ =>
        Along.pure fun _ he => ⟨hspills.symm, he⟩
    · simp only [if_neg hspills]
      refine Along.bind (M := fun tracker e => tracker.isSome = store.spillsToDisk ∧ B block e) ?_
        fun tracker => Along.given fun htracker => Along.pure (hheld {
          edge := edge
          destination
          partitioner := q
          id := _
          store
          block := some block
          tracker } rfl rfl htracker)
      exact Along.pure fun _ he => ⟨(Bool.eq_false_iff.mpr hspills).symm, he⟩

theorem write_along [Measured α] (x : α) :
    Along (beside (σ := σ) h) (Holding ids B) (write x) fun _ _ => True := by
  refine Along.bind (M := fun w s => w = s.1 ∧ Holding ids B s)
    (Along.read fun _ hs => ⟨rfl, hs⟩) fun w => ?_
  split
  · exact Along.pure fun _ _ => trivial
  · next tracker _ htracker =>
    refine Along.weaken (buffer_along tracker x) (fun s hs => ?_) fun _ _ h => h
    rw [← hs.1]
    exact htracker
  · next block _ _ hblock =>
    refine Along.of_rel fun s hs => ?_
    obtain ⟨rfl, hs⟩ := hs
    obtain ⟨w, e⟩ := s
    have hput := put_along h.toFilling block (w.partitioner.next x).1 x (w.partitioner.next x).2.dedicated e
      (hs block hblock).2 e rfl
    simp only [bind_apply, update, Step.modify, onExecutor, within]
    cases hput' : put block (w.partitioner.next x).1 x (w.partitioner.next x).2.dedicated e with
    | mk result e' =>
      rw [hput'] at hput
      cases result with
      | error fault =>
        exact ⟨hput, rfl, rfl, fun b hb => ⟨rfl, b, hb, Block.Like.refl b, .inl rfl⟩⟩
      | ok block' =>
        obtain ⟨hrel, hlike, hB⟩ := hput
        refine ⟨hrel, rfl, rfl, fun b hb => ?_⟩
        cases hb
        exact ⟨rfl, block, hblock, hlike, .inr hB⟩
  · exact Along.fail
  · exact Along.fail

-- Or else its body is opened over and over to see what a step answers.
attribute [local irreducible] takeElements

/-! ## Closing -/

section Closing

variable {h : Neutral ids S R B}

theorem commit_along (block : Block α) (hid : ids block.id) (store : StoreKind) (reads : UInt32)
    (persistence : Persistence) :
    Along (beside h.toQuiet) (fun s => B block s.2) (commit (σ := σ) block store reads persistence)
      fun _ _ => True := by
  refine Along.bind (onExecutor_along ((h.commit block).both (commit_becomes block))) fun r => ?_
  refine Along.given fun hr => ?_
  have hid' : ids r.2.block.id := hr.like.id ▸ hid
  refine Along.bind (M := fun _ s => B r.2.block s.2) (Along.ofExcept fun _ _ _ hb => hb) fun _ => ?_
  refine Along.bind (update_along (P := B r.2.block) fun _ => ⟨rfl, rfl, rfl, rfl⟩) fun _ => ?_
  refine Along.bind (count_beside (h.stable r.2.block) _) fun _ => ?_
  refine Along.bind (M := fun _ _ => True)
    (onExecutor_along (h.register r.2.block store reads persistence hid')) fun _ => ?_
  exact update_along (P := fun _ => True) fun _ => ⟨rfl, rfl, rfl, rfl⟩

theorem fill_along (w : Writer σ α) (block : Block α) (hid : ids block.id) (elements : List α)
    (reads : UInt32) (persistence : Persistence) :
    Along (beside h.toQuiet) (fun s => B block s.2) (fill w block elements reads persistence)
      fun _ _ => True := by
  refine Along.bind (onExecutor_along (putAll_along h.toFilling _ _ _)) fun b => ?_
  exact Along.given fun hb => commit_along (h := h) b (hb.id ▸ hid) _ _ _

theorem spill_along (w : Writer σ α) (hid : ids w.id) (block : Block α) (elements : List α)
    (reads : UInt32) (persistence : Persistence) :
    Along (beside h.toQuiet) (fun s => B block s.2) (spill w block elements reads persistence)
      fun _ _ => True := by
  refine Along.bind (onExecutor_along (h.spill block)) fun _ => ?_
  refine Along.bind (onExecutor_along (Along.weaken
    ((h.create .localFile hid).both (createBlock_named _ _)) (fun _ hb => h.suited hb)
    fun _ _ h => h)) fun fallback => ?_
  refine Along.given fun hfallback => ?_
  refine Along.bind (onExecutor_along (putAll_along h.toFilling _ _ _)) fun b => ?_
  refine Along.given fun hb => ?_
  have hid' : ids b.id := by
    rw [hb.id, hfallback]
    exact hid
  refine Along.bind (commit_along (h := h) b hid' _ _ _) fun _ => ?_
  refine Along.bind (M := fun _ _ => True) (onExecutor_along (h.replace _ _ hid)) fun _ => ?_
  exact update_along (P := fun _ => True) fun _ => ⟨rfl, rfl, rfl, rfl⟩

/-- A settlement, for changes to which the pool does not matter. -/
theorem settle_along [Measured α]
    (hpool : ∀ (e : Executor α) (p : Pool), R.rel e { e with pool := p }) (w : Writer σ α)
    (hid : ids w.id) (block : Block α) (hid' : ids block.id) (tracker : Tracker α) (reads : UInt32)
    (persistence : Persistence) :
    Along (beside h.toQuiet) (fun s => B block s.2) (settle w block tracker reads persistence)
      fun _ _ => True := by
  refine Along.bind
    (onExecutor_along ((takeElements_along h.toQuiet tracker).saves (h.stable block))) fun xs => ?_
  refine Along.bind (M := fun _ s => B block s.2) ?_ fun granted => Along.ite ?_ ?_
  · refine onExecutor_along (Q := fun _ => B block) ?_
    intro e he e' hsame
    subst hsame
    exact ⟨hpool _ _, h.stable block (hpool _ _) he⟩
  · refine Along.bind (count_beside (h.stable block) _) fun _ => ?_
    exact Along.onFault (fill_along (h := h) w block hid' xs reads persistence) fun s s' _ _ =>
      Beside.of_rel (hpool _ _)
  · refine Along.bind (count_beside (h.stable block) _) fun _ => ?_
    exact Along.always (spill_along (h := h) w hid block xs reads persistence)
      (fun s s' _ _ => Beside.of_rel (hpool _ _)) fun _ _ h => h

theorem close_along [Measured α]
    (hpool : ∀ (e : Executor α) (p : Pool), R.rel e { e with pool := p }) :
    Along (beside (σ := σ) h.toQuiet) (fun s => ids s.1.id ∧ Holding ids B s) close
      fun _ _ => True := by
  refine Along.bind (M := fun w s => w = s.1 ∧ ids w.id ∧ Holding ids B s)
    (Along.read fun _ hs => ⟨rfl, hs⟩) fun w => ?_
  split
  · exact Along.pure fun _ _ => trivial
  · exact Along.fail
  · exact Along.fail
  · refine Along.bind (Along.ofExcept fun _ _ _ h => h) fun persistence => ?_
    refine Along.bind (Along.ofExcept fun _ _ _ h => h) fun reads => ?_
    split
    · exact Along.fail
    · next block hblock =>
      refine Along.bind
        (M := fun _ s => (ids w.id ∧ ids block.id) ∧ B block s.2) ?_ fun _ => ?_
      · refine Along.modify fun s hs => ?_
        obtain ⟨rfl, hid, hs⟩ := hs
        exact ⟨⟨R.refl _, rfl, rfl, nofun⟩, ⟨hid, (hs block hblock).1⟩, (hs block hblock).2⟩
      refine Along.given fun hids => ?_
      obtain ⟨hid, hid'⟩ := hids
      split
      · exact commit_along (h := h) block hid' _ _ _
      · exact settle_along (h := h) hpool w hid block hid' _ reads persistence

end Closing

end Writer

/-! ## The pool -/

namespace Executor

/-- The pool is the same. -/
def samePool : Change (Executor α) where
  rel e e' := e'.pool = e.pool
  refl _ := rfl
  trans h h' := h'.trans h

theorem neutral_samePool :
    Neutral (fun _ => True) (fun _ => True) (samePool (α := α)) fun _ _ => True where
  stable _ := fun _ h => h
  steady := fun _ h => h
  suited h := h
  metrics _ _ := rfl
  estimate _ _ _ := rfl
  create _ _ := Along.of_rel fun _ _ => rfl
  write _ _ _ := Along.of_rel fun _ _ => rfl
  commitPartitions _ := Along.of_rel fun _ _ => rfl
  commit _ := Along.of_rel fun _ _ => rfl
  spill _ := Along.of_rel fun _ _ => rfl
  release _ := rfl
  register _ _ _ _ _ := Along.of_rel fun _ _ => rfl
  replace _ _ _ := Along.of_rel fun _ _ => rfl

/-- A name that is not registered is refused. Otherwise the registration goes, and with it the charge
and the file, whether it can be deleted or not. -/
theorem removeBlock_cases (id : BlockId) (e : Executor α) :
    (e.registry.entry? id = none ∧ (removeBlock id e).2 = e) ∨
    ∃ removed, e.registry.entry? id = some removed ∧ (removeBlock id e).2 = { e with
      registry := { e.registry with
        medium := (removed.block.deleteFile e.registry.medium).2
        blocks := e.registry.blocks.filter (·.1 ≠ id) }
      pool := if e.registry.returnsCharges then (e.pool.releaseBlock id).2 else e.pool } := by
  cases hentry : e.registry.entry? id with
  | none =>
    refine .inl ⟨rfl, ?_⟩
    simp only [removeBlock, bind_apply, Step.read, Step.ofExcept, Registry.entry, hentry]
  | some removed =>
    refine .inr ⟨removed, rfl, ?_⟩
    simp only [removeBlock, bind_apply, Step.read, Step.ofExcept, Registry.entry, hentry,
      Step.modify, onMedium, onRegistry, Registry.onMedium, within]
    cases removed.block.deleteFile e.registry.medium with
    | mk result medium =>
      cases result with
      | ok _ => rfl
      | error _ => rfl

/-- Removing a block returns its charge or leaves the pool alone. -/
theorem removeBlock_moves (id : BlockId) (e : Executor α) :
    e.pool.Moves (removeBlock id e).2.pool := by
  obtain ⟨-, hsame⟩ | ⟨removed, -, hremoved⟩ := removeBlock_cases id e
  · rw [hsame]
    exact .still
  · rw [hremoved]
    show e.pool.Moves (if e.registry.returnsCharges then (e.pool.releaseBlock id).2 else e.pool)
    split
    · exact .returned
    · exact .still

end Executor

namespace Writer

open Executor

attribute [local irreducible] takeElements

/-- Knowledge of the pool, and of what else is there, that a writer may count without losing it. -/
structure Pooled (P : Pool → Writer σ α × Executor α → Prop) : Prop where
  pool : ∀ {p s}, P p s → s.2.pool = p
  moved : ∀ {p s} (p' : Pool), P p s → P p' (s.1, { s.2 with pool := p' })
  counted : ∀ {p s} (metrics : Metrics), P p s → P p (s.1, { s.2 with metrics })

/-- What a buffer comes to, from what becomes of it when its size is admitted and when not. -/
theorem Pooled.settle [Measured α] {P : Pool → Writer σ α × Executor α → Prop} (hP : Pooled P)
    {p : Pool} {Q E : Writer σ α × Executor α → Prop} {w : Writer σ α} {block : Block α}
    {tracker : Tracker α} {reads : UInt32} {persistence : Persistence}
    (htake : Leads (P p) (onExecutor (takeElements tracker)) (fun _ => P p) E)
    (hgranted : (p.reserve w.id tracker.estimateSize).1 = true → ∀ elements,
      Leads (P (p.reserve w.id tracker.estimateSize).2) (fill w block elements reads persistence)
        (fun _ => Q) fun s => E (s.1, { s.2 with pool := (s.2.pool.releaseBlock s.1.id).2 }))
    (hrefused : (p.reserve w.id tracker.estimateSize).1 = false → ∀ elements,
      Leads (P (p.reserve w.id tracker.estimateSize).2) (spill w block elements reads persistence)
        (fun _ s => Q (s.1, { s.2 with pool := s.2.pool.release tracker.estimateSize }))
        fun s => E (s.1, { s.2 with pool := s.2.pool.release tracker.estimateSize })) :
    Leads (P p) (settle w block tracker reads persistence) (fun _ => Q) E := by
  have hoffer : Leads (P p)
      (onExecutor (σ := σ) (α := α) fun e =>
        (.ok (e.pool.reserve w.id tracker.estimateSize).1,
          { e with pool := (e.pool.reserve w.id tracker.estimateSize).2 }))
      (fun granted s => granted = (p.reserve w.id tracker.estimateSize).1 ∧
        P (p.reserve w.id tracker.estimateSize).2 s) E := by
    intro s hs
    cases hP.pool hs
    exact ⟨rfl, hP.moved _ hs⟩
  refine Leads.bind htake fun elements => Leads.bind hoffer fun granted =>
    Leads.given fun hsame => ?_
  subst hsame
  split
  · next hyes =>
    refine Leads.bind (Q := fun _ => P (p.reserve w.id tracker.estimateSize).2)
      (fun _ hs => hP.counted _ hs) fun _ => ?_
    exact Leads.onFault (hgranted hyes elements)
  · next hno =>
    refine Leads.bind (Q := fun _ => P (p.reserve w.id tracker.estimateSize).2)
      (fun _ hs => hP.counted _ hs) fun _ => ?_
    exact Leads.always (hrefused (Bool.eq_false_iff.mpr hno) elements)

/-- A pool, next to a writer of a block with this name. -/
def PoolIs (p : Pool) (id : BlockId) (s : Writer σ α × Executor α) : Prop :=
  s.2.pool = p ∧ s.1.id = id

variable {p : Pool} {id : BlockId} {β : Type}

theorem pooled_poolIs (id : BlockId) : Pooled fun p (s : Writer σ α × Executor α) => PoolIs p id s :=
  ⟨fun hs => hs.1, fun _ hs => ⟨rfl, hs.2⟩, fun _ hs => hs⟩

theorem poolIs_kept {x : Step (Writer σ α × Executor α) β}
    (hx : Along (beside neutral_samePool.toQuiet) (fun _ => True) x fun _ _ => True) :
    Leads (PoolIs p id) x (fun _ => PoolIs p id) (PoolIs p id) := by
  intro s hs
  refine Leads.weaken (hx.leads s) (P := (· = s)) ?_ ?_ ?_ s rfl
  · rintro _ rfl
    exact ⟨trivial, (beside _).refl _⟩
  · exact fun _ s' h => ⟨h.1.executor.trans hs.1, h.1.id.trans hs.2⟩
  · exact fun s' h => ⟨h.executor.trans hs.1, h.id.trans hs.2⟩

/-- Whatever becomes of an offer, the pool has moved in one of the known ways; if nothing does, the
offer is taken back. -/
theorem settle_moves [Measured α] (w : Writer σ α) (block : Block α) (tracker : Tracker α)
    (reads : UInt32) (persistence : Persistence) :
    Leads (PoolIs p w.id) (settle w block tracker reads persistence)
      (fun _ s => p.Moves s.2.pool)
      fun s => p.Reverts w.id (some tracker.estimateSize) s.2.pool := by
  refine (pooled_poolIs w.id).settle ?_ (fun hgranted elements => ?_) fun hrefused elements => ?_
  · refine Leads.weaken (poolIs_kept ?_) (fun _ hs => hs) (fun _ _ hs => hs) ?_
    · exact onExecutor_along (takeElements_along neutral_samePool.toQuiet tracker)
    · rintro s ⟨rfl, -⟩
      exact .same
  · refine Leads.weaken (poolIs_kept (fill_along (h := neutral_samePool) w block trivial elements
      reads persistence)) (fun _ hs => hs) ?_ ?_
    · rintro _ s ⟨hpool, -⟩
      rw [hpool]
      exact .granted hgranted
    · rintro s ⟨hpool, hid⟩
      show p.Reverts w.id _ (s.2.pool.releaseBlock s.1.id).2
      rw [hpool, hid]
      exact .withdrawn rfl hgranted
  · refine Leads.weaken (poolIs_kept (spill_along (h := neutral_samePool) w trivial block elements
      reads persistence)) (fun _ hs => hs) ?_ ?_
    · rintro _ s ⟨hpool, -⟩
      rw [hpool]
      exact .refused hrefused
    · rintro s ⟨hpool, -⟩
      rw [hpool, Pool.reserve_refused hrefused, Pool.release_acquire]
      exact .same

theorem close_reverts [Measured α] (w : Writer σ α) (e : Executor α) :
    Leads (· = (w, e)) close (fun _ s => e.pool.Moves s.2.pool)
      fun s => e.pool.Reverts w.id w.trackedSize s.2.pool := by
  have hsame : ∀ s : Writer σ α × Executor α, PoolIs e.pool w.id s →
      e.pool.Reverts w.id w.trackedSize s.2.pool := by
    rintro s ⟨hpool, -⟩
    rw [hpool]
    exact .same
  refine Leads.bind (Q := fun w' s => w' = w ∧ PoolIs e.pool w.id s) (Leads.read ?_) fun w' =>
    Leads.given fun hw => ?_
  · rintro s rfl
    exact ⟨rfl, rfl, rfl⟩
  subst hw
  split
  · exact Leads.pure fun s hs => (hsame s hs).moves
  · exact Leads.fail hsame
  · exact Leads.fail hsame
  · refine Leads.bind (Q := fun _ => PoolIs e.pool w'.id)
      (Leads.ofExcept (fun _ _ _ hs => hs) hsame) fun persistence => ?_
    refine Leads.bind (Q := fun _ => PoolIs e.pool w'.id)
      (Leads.ofExcept (fun _ _ _ hs => hs) hsame) fun reads => ?_
    split
    · exact Leads.fail hsame
    · refine Leads.bind (Q := fun _ => PoolIs e.pool w'.id) (Leads.modify fun _ hs => hs) ?_
      intro _
      split
      · exact Leads.weaken (poolIs_kept (commit_along (h := neutral_samePool) _ trivial _ _ _))
          (fun _ hs => hs) (fun _ s hs => (hsame s hs).moves) hsame
      · next tracker htracker =>
        rw [trackedSize, htracker]
        exact settle_moves w' _ tracker _ _

theorem close_moves [Measured α] (s : Writer σ α × Executor α) :
    s.2.pool.Moves (close s).2.2.pool := by
  have hclose := Leads.weaken (close_reverts s.1 s.2) (fun _ h => h) (fun _ _ h => h)
    fun _ h => h.moves
  exact Leads.apply (E := fun s' : Writer σ α × Executor α => s.2.pool.Moves s'.2.pool) hclose rfl

end Writer

end ShuffleBuffer
