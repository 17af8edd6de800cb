import ShuffleBuffer.Proofs.Balance
import ShuffleBuffer.Proofs.Blocks
import ShuffleBuffer.Proofs.Trackers
import ShuffleBuffer.Writer

/-! # Closing a writer

Where files can be created and every element can be encoded, nothing on the way of a close fails:
elements go into a block one after the other, the block is committed and registered, and a buffer
that the pool refuses is replayed into a file. -/

namespace ShuffleBuffer

open Estimate Step

variable {σ α : Type}

namespace Executor

/-- Trackers can be made and emptied as before. -/
structure Able (e e' : Executor α) : Prop where
  tracker : e'.tracker = e.tracker
  usable : e.estimator.Usable → e'.estimator.Usable

theorem Able.refl (e : Executor α) : Able e e := ⟨rfl, fun h => h⟩

theorem Able.trans {e e' e'' : Executor α} (h : Able e e') (h' : Able e' e'') : Able e e'' :=
  ⟨h'.tracker.trans h.tracker, fun he => h'.usable (h.usable he)⟩

/-- What a call of a writer keeps of an executor before it registers the block. -/
structure Kept (e e' : Executor α) : Prop where
  medium : Medium.Kept e.registry.medium e'.registry.medium
  blocks : e'.registry.blocks = e.registry.blocks
  replacements : e'.registry.replacements = e.registry.replacements
  pool : e'.pool = e.pool
  able : Able e e'

theorem Kept.refl (e : Executor α) : Kept e e :=
  ⟨Medium.Kept.refl _, rfl, rfl, rfl, Able.refl _⟩

theorem Kept.trans {e e' e'' : Executor α} (h : Kept e e') (h' : Kept e' e'') : Kept e e'' :=
  ⟨h.medium.trans h'.medium, h'.blocks.trans h.blocks, h'.replacements.trans h.replacements,
    h'.pool.trans h.pool, h.able.trans h'.able⟩

/-- Files can be created under the name of a block. -/
structure Spacious (id : BlockId) (e : Executor α) : Prop where
  free : e.registry.medium.dir.Works
  formed : e.registry.medium.dir.WellFormed
  named : SpillDir.isFileName (Block.fileName id) = true

theorem Spacious.later {id : BlockId} {e e' : Executor α} (h : Spacious id e)
    (hkept : Kept e e') : Spacious id e' :=
  ⟨hkept.medium.dir.refusals.trans h.free, hkept.medium.dir.formed h.formed, h.named⟩

variable {id : BlockId} {e : Executor α} {es : List (Entry α)} {β : Type}

/-- What a block is asked for changes the medium alone, apart from the trace. -/
theorem asked_yields (request : Request) {x : Step (Medium α) β}
    {Q : β → Medium α → Prop}
    (h : x.Yields e.registry.medium fun a m' => Medium.Kept e.registry.medium m' ∧ Q a m') :
    (ask request (onMedium x)).Yields e fun a e' => Kept e e' ∧ Q a e'.registry.medium := by
  obtain ⟨a, m', hx, hkept, ha⟩ := h
  refine ⟨a, { e with
    requests := request :: e.requests
    registry := { e.registry with medium := m' } }, ?_, ⟨hkept, rfl, rfl, rfl, rfl, fun h => h⟩, ha⟩
  simp [ask, bind_apply, Step.modify, onMedium, onRegistry, Registry.onMedium, Step.within, hx]

/-- A new block holds nothing yet; only one on disk needs a file. -/
theorem createBlock_yields (store : StoreKind)
    (hspace : store.isMemoryTier = false → Spacious id e) :
    (createBlock id store).Yields e fun b e' => b.id = id ∧ b.store = store ∧
      b.location = (if store.isMemoryTier then none else some (Block.fileName id)) ∧
      b.keepsSizes = store.tracksSizes ∧
      Kept e e' ∧ e'.registry.medium.encodings = e.registry.medium.encodings ∧
      b.Holds e'.registry.medium.dir [] := by
  cases store with
  | memory =>
    exact ⟨_, _, rfl, rfl, rfl, rfl, rfl,
      ⟨Medium.Kept.refl _, rfl, rfl, rfl, rfl, fun h => h⟩, rfl,
      Block.holds_ofValues _ _ _⟩
  | memoryFile =>
    exact ⟨_, _, rfl, rfl, rfl, rfl, rfl,
      ⟨Medium.Kept.refl _, rfl, rfl, rfl, rfl, fun h => h⟩, rfl,
      Block.holds_ofValues _ _ _⟩
  | serializedMemory =>
    exact ⟨_, _, rfl, rfl, rfl, rfl, rfl,
      ⟨Medium.Kept.refl _, rfl, rfl, rfl, rfl, fun h => h⟩, rfl,
      Block.holds_ofEncoded _ _ _⟩
  | serializedMemoryFile =>
    exact ⟨_, _, rfl, rfl, rfl, rfl, rfl,
      ⟨Medium.Kept.refl _, rfl, rfl, rfl, rfl, fun h => h⟩, rfl,
      Block.holds_ofEncoded _ _ _⟩
  | localFile =>
    obtain ⟨hfree, hformed, hnamed⟩ := hspace rfl
    obtain ⟨b, m', hfile, hid, hstore, hlocation, hsizes, hkept, hcount, hholds⟩ :=
      Block.ofFile_yields hfree hnamed hformed .localFile
    refine ⟨b, { e with
      requests := .create id .localFile :: e.requests
      registry := { e.registry with medium := m', created := e.registry.created + 1 } }, ?_,
      hid, hstore, hlocation, hsizes, ⟨hkept, rfl, rfl, rfl, rfl, fun h => h⟩, hcount, hholds⟩
    simp [createBlock, ask, bind_apply, Step.modify, onRegistry, Registry.createBlock,
      Registry.onMedium, Step.within, hfile]

/-- A committed block takes the place of whatever was registered under its name. -/
theorem register_yields {b : Block α} (hb : b.state = .committed) (store : StoreKind)
    (reads : UInt32) (persistence : Persistence) :
    (register b store reads persistence).Yields e fun _ e' =>
      e'.registry.medium = e.registry.medium ∧ e'.registry.replacements = e.registry.replacements ∧
      e'.pool = e.pool ∧ Able e e' ∧
      e'.registry.blocks = (b.id, ⟨b, ⟨store, reads, persistence, b.location⟩⟩) ::
        e.registry.blocks.filter (·.1 ≠ b.id) := by
  refine ⟨(), { e with
    requests := .register b.id store reads persistence :: e.requests
    registry := { e.registry with
      blocks := (b.id, ⟨b, ⟨store, reads, persistence, b.location⟩⟩) ::
        e.registry.blocks.filter (·.1 ≠ b.id) } }, ?_, rfl, rfl, rfl, ⟨rfl, fun h => h⟩, rfl⟩
  simp [register, ask, bind_apply, Step.modify, onRegistry, Registry.register, Step.within,
    Block.require, hb, Step.ofExcept]

/-- A replacement is told of a block that is registered on its new store. -/
theorem putSpilled_yields {source target : StoreKind}
    (htarget : (e.registry.info? id).map (·.store) = some target) :
    (putSpilled id source target).Yields e fun _ e' =>
      e'.registry.medium = e.registry.medium ∧ e'.registry.blocks = e.registry.blocks ∧
      e'.registry.replacements = e.registry.replacements ++ [⟨id, source, target⟩] ∧
      e'.pool = e.pool ∧ Able e e' := by
  refine ⟨(), { e with
    requests := .replace id source target :: e.requests
    registry := { e.registry with
      replacements := e.registry.replacements ++ [⟨id, source, target⟩] } }, ?_,
    rfl, rfl, rfl, rfl, ⟨rfl, fun h => h⟩⟩
  simp [putSpilled, ask, bind_apply, Step.modify, onRegistry, Registry.putSpilled, Step.within,
    htarget]

end Executor

namespace Writer

open Executor

variable {id : BlockId} {e : Executor α} {b : Block α} {es : List (Entry α)}

/-- These are the entries that the elements make when the partitioner is asked for their keys. -/
structure Makes (p : Partitioner σ α) (xs : List α) (codec : Codec α) (es : List (Entry α)) :
    Prop where
  keys : es.map Entry.key = p.keys xs
  values : es.map Entry.value = xs
  made : ∀ entry ∈ es, codec.Made entry

theorem put_yields (hb : b.Holds e.registry.medium.dir es) (key : PartitionKey) {x : α}
    (hx : e.registry.medium.codec.EncodesAt e.registry.medium.encodings x) (dedicated : Bool) :
    (put b key x dedicated).Yields e fun c e' => c.result = .ok () ∧ b.Like c.block ∧ Kept e e' ∧
      e'.registry.medium.encodings = (if b.keepsSizes then e.registry.medium.encodings + 1
        else e.registry.medium.encodings) ∧
      ∃ entry : Entry α, entry.key = key ∧ entry.value = x ∧
        e.registry.medium.codec.Made entry ∧
        c.block.Holds e'.registry.medium.dir (es ++ [entry]) := by
  refine Yields.bind (asked_yields (.write key)
    (Q := fun c m' => c.result = .ok () ∧ b.Like c.block ∧
      m'.encodings = (if b.keepsSizes then e.registry.medium.encodings + 1
        else e.registry.medium.encodings) ∧
      ∃ entry : Entry α, entry.key = key ∧ entry.value = x ∧
        e.registry.medium.codec.Made entry ∧ c.block.Holds m'.dir (es ++ [entry])) ?_) ?_
  · refine Yields.weaken (Block.write_yields hb key hx) ?_
    exact fun _ _ ⟨hok, hlike, hkept, hentry⟩ => ⟨hkept, hok, hlike, hentry⟩
  rintro c e' ⟨hkept, hok, hlike, hcount, entry, hkey, hvalue, hmade, hholds⟩
  rw [hok]
  cases dedicated with
  | false => exact Yields.pure ⟨hok, hlike, hkept, hcount, entry, hkey, hvalue, hmade, hholds⟩
  | true =>
    refine Yields.weaken (asked_yields .commitPartitions
      (Q := fun c' m' => c'.result = .ok () ∧ c.block.Like c'.block ∧
        m'.encodings = e'.registry.medium.encodings ∧
        c'.block.Holds m'.dir (es ++ [entry])) ?_) ?_
    · refine Yields.weaken (Block.commitPartitions_yields hholds) ?_
      exact fun _ _ ⟨hok', hlike', hkept', hsame⟩ => ⟨hkept', hok', hlike', hsame⟩
    · rintro c' e'' ⟨hkept', hok', hlike', hsame, hholds'⟩
      exact ⟨hok', hlike.trans hlike', hkept.trans hkept', hsame.trans hcount, entry, hkey, hvalue,
        hmade, hholds'⟩

/-- Elements go into a block in their order, each under the key that the partitioner gives it. -/
theorem putAll_yields (xs : List α) (p : Partitioner σ α) (hb : b.Holds e.registry.medium.dir es)
    (hxs : e.registry.medium.codec.EncodesFrom b.keepsSizes e.registry.medium.encodings xs) :
    (putAll xs p b).Yields e fun b' e' => b.Like b' ∧ Kept e e' ∧
      ∃ more, Makes p xs e.registry.medium.codec more ∧
        b'.Holds e'.registry.medium.dir (es ++ more) := by
  induction xs generalizing p b e es with
  | nil =>
    refine Yields.pure ⟨Block.Like.refl b, Kept.refl _, [], ⟨rfl, rfl, by simp⟩, ?_⟩
    rwa [List.append_nil]
  | cons x xs ih =>
    obtain ⟨hx, hrest⟩ := hxs
    refine Yields.bind (Yields.onFault (put_yields hb (p.next x).1 hx (p.next x).2.dedicated)) ?_
    rintro c e' ⟨hok, hlike, hkept, hcount, entry, hkey, hvalue, hmade, hholds⟩
    have hcodec := hkept.medium.codec
    refine Yields.bind (M := fun _ e'' => e' = e'') (Yields.onFault (Yields.ofExcept hok rfl)) ?_
    rintro _ _ rfl
    refine Yields.weaken (ih (p.next x).2 hholds ?_) ?_
    · rw [hcodec, hlike.keepsSizes, hcount]
      exact hrest
    rintro b'' e'' ⟨hlike', hkept', more, ⟨hkeys, hvalues, hall⟩, hholds'⟩
    rw [hcodec] at hall
    refine ⟨hlike.trans hlike', hkept.trans hkept', entry :: more, ⟨?_, ?_, ?_⟩, ?_⟩
    · rw [List.map_cons, hkey, hkeys]
      rfl
    · rw [List.map_cons, hvalue, hvalues]
    · intro other hother
      rcases List.mem_cons.mp hother with rfl | hlater
      · exact hmade
      · exact hall other hlater
    · rwa [List.append_assoc] at hholds'

/-- What is registered under a name after a commit, and which replacements are told. -/
structure Registers (id : BlockId) (info : BlockInfo) (replaced : List Replacement)
    (es : List (Entry α)) (e e' : Executor α) : Prop where
  medium : Medium.Kept e.registry.medium e'.registry.medium
  able : Able e e'
  replacements : e'.registry.replacements = e.registry.replacements ++ replaced
  blocks : ∃ block : Block α, (block.id = id ∧ block.location = info.location) ∧
    block.Stores e'.registry.medium.dir es ∧
    e'.registry.blocks = (id, ⟨block, info⟩) :: e.registry.blocks.filter (·.1 ≠ id)

theorem Registers.after {info : BlockInfo} {replaced : List Replacement} {e' e'' : Executor α}
    (h : Registers id info replaced es e' e'') (hkept : Kept e e') :
    Registers id info replaced es e e'' := by
  obtain ⟨hmedium, hable, hreplacements, block, hid, hstores, hblocks⟩ := h
  refine ⟨hkept.medium.trans hmedium, hkept.able.trans hable, ?_, block, hid, hstores, ?_⟩
  · rw [hreplacements, hkept.replacements]
  · rw [hblocks, hkept.blocks]

/-- To tell of a replacement changes nothing about what is registered. -/
theorem Registers.told {info : BlockInfo} {e' e'' : Executor α} (h : Registers id info [] es e e')
    {source : StoreKind} (hmedium : e''.registry.medium = e'.registry.medium)
    (hblocks : e''.registry.blocks = e'.registry.blocks)
    (hreplacements : e''.registry.replacements =
      e'.registry.replacements ++ [⟨id, source, info.store⟩]) (hable : Able e' e'') :
    Registers id info [⟨id, source, info.store⟩] es e e'' := by
  obtain ⟨hmedium', hable', hreplacements', hblocks'⟩ := h
  refine ⟨hmedium ▸ hmedium', hable'.trans hable, ?_, ?_⟩
  · rw [hreplacements, hreplacements', List.append_nil]
  · rwa [hblocks, hmedium]

theorem Registers.info {info : BlockInfo} {replaced : List Replacement} {e' : Executor α}
    (h : Registers id info replaced es e e') : e'.registry.info? id = some info := by
  obtain ⟨-, -, -, block, -, -, hblocks⟩ := h
  simp [Registry.info?, Registry.entry?, hblocks]

/-- The bytes that a commit tells, where the block keeps sizes. -/
def reported (b : Block α) (es : List (Entry α)) : Option UInt64 :=
  if b.keepsSizes then some (UInt64.ofNat (Entry.stored es)) else none

theorem commit_yields (w : Writer σ α) (hb : b.Holds e.registry.medium.dir es) (store : StoreKind)
    (reads : UInt32) (persistence : Persistence) :
    (commit b store reads persistence).Yields (w, e) fun _ s' =>
      s'.1 = { w with writtenBytes := reported b es, state := .committed store } ∧
      Registers b.id ⟨store, reads, persistence, b.location⟩ [] es e s'.2 ∧
      s'.2.pool = e.pool := by
  refine Yields.bind (M := fun r s' => r.1.map PartitionSizes.total = reported b es ∧
    r.2.result = .ok () ∧ s'.1 = w ∧ b.Like r.2.block ∧ Kept e s'.2 ∧
    r.2.block.Stores s'.2.registry.medium.dir es) ?_ ?_
  · refine Yields.within (Yields.weaken (asked_yields (.commit b.store)
      (Q := fun r m' => r.1 = (if b.keepsSizes then some (Entry.tally es) else none) ∧
        r.2.result = .ok () ∧ b.Like r.2.block ∧ r.2.block.Stores m'.dir es) ?_) ?_)
    · refine Yields.weaken (Block.commit_yields hb) ?_
      exact fun _ _ ⟨hsizes, hok, hlike, hkept, _, hstores⟩ => ⟨hkept, hsizes, hok, hlike, hstores⟩
    · rintro r e' ⟨hkept, hsizes, hok, hlike, hstores⟩
      refine ⟨?_, hok, rfl, hlike, hkept, hstores⟩
      rw [hsizes, reported]
      split
      · rw [Option.map_some, Entry.total_tally]
      · rfl
  rintro ⟨sizes, b', _⟩ ⟨w', e'⟩ ⟨hsizes, rfl, rfl, hlike, hkept, hstores⟩
  dsimp only at hsizes hlike hkept hstores
  have hcommitted : b'.state = .committed := by cases hstores <;> rfl
  obtain ⟨_, e'', hregister, hmedium, hreplacements, hpool, hable, hblocks⟩ :=
    register_yields (e := { e' with
      metrics := e'.metrics.blockCommitted store (sizes.map PartitionSizes.total) })
      hcommitted store reads persistence
  refine ⟨(), ({ w' with
    writtenBytes := sizes.map PartitionSizes.total, state := .committed store }, e''), ?_, ?_, ?_,
    hpool.trans hkept.pool⟩
  · simp [bind_apply, Step.ofExcept, update, Step.modify, onExecutor, Step.within, count, hregister]
  · rw [hsizes]
  · rw [hlike.id, hlike.location] at hblocks
    refine ⟨?_, hkept.able.trans ⟨hable.tracker, hable.usable⟩, ?_, b',
      ⟨hlike.id, hlike.location⟩, ?_, ?_⟩
    · rw [hmedium]
      exact hkept.medium
    · rw [hreplacements, List.append_nil]
      exact hkept.replacements
    · rw [hmedium]
      exact hstores
    · rw [hblocks, hkept.blocks]

/-- An admitted buffer goes into the memory block. -/
theorem fill_yields (w w' : Writer σ α) (hb : b.Holds e.registry.medium.dir []) {xs : List α}
    (hxs : e.registry.medium.codec.EncodesFrom b.keepsSizes e.registry.medium.encodings xs)
    (reads : UInt32) (persistence : Persistence) :
    (fill w b xs reads persistence).Yields (w', e) fun _ s' =>
      ∃ es, Makes w.partitioner xs e.registry.medium.codec es ∧
        s'.1 = { w' with writtenBytes := reported b es, state := .committed w.store } ∧
        Registers b.id ⟨w.store, reads, persistence, b.location⟩ [] es e s'.2 ∧
        s'.2.pool = e.pool := by
  refine Yields.bind (M := fun b' s' => s'.1 = w' ∧ b.Like b' ∧ Kept e s'.2 ∧
    ∃ es, Makes w.partitioner xs e.registry.medium.codec es ∧
      b'.Holds s'.2.registry.medium.dir es) ?_ ?_
  · refine Yields.within (Yields.weaken (putAll_yields xs w.partitioner hb hxs) ?_)
    exact fun _ _ ⟨hlike, hkept, es, hmakes, hholds⟩ =>
      ⟨rfl, hlike, hkept, es, hmakes, hholds⟩
  rintro b' ⟨w'', e'⟩ ⟨hw, hlike, hkept, es, hmakes, hholds⟩
  simp only at hw hkept hholds
  subst hw
  refine Yields.weaken (commit_yields w'' hholds w.store reads persistence) ?_
  rintro _ s' ⟨hwriter, hregisters, hpool⟩
  rw [hlike.id, hlike.location] at hregisters
  refine ⟨es, hmakes, ?_, hregisters.after hkept, hpool.trans hkept.pool⟩
  rw [hwriter, reported, reported, hlike.keepsSizes]

/-- A refused buffer is replayed into a file, and this is told. -/
theorem spill_yields (w w' : Writer σ α) (hb : b.Holds e.registry.medium.dir [])
    (hmemory : b.location = none) (hspace : Spacious w.id e) {xs : List α}
    (hxs : e.registry.medium.codec.EncodesFrom true e.registry.medium.encodings xs)
    (reads : UInt32) (persistence : Persistence) :
    (spill w b xs reads persistence).Yields (w', e) fun _ s' =>
      ∃ es, Makes w.partitioner xs e.registry.medium.codec es ∧
        s'.1 = { w' with
          writtenBytes := some (UInt64.ofNat (Entry.stored es))
          state := .committedDisk
          spilled := true } ∧
        Registers w.id ⟨.localFile, reads, persistence, some (Block.fileName w.id)⟩
          [⟨w.id, w.store, .localFile⟩] es e s'.2 ∧
        s'.2.pool = e.pool := by
  refine Yields.bind (M := fun _ s' => s'.1 = w' ∧ Kept e s'.2 ∧
    s'.2.registry.medium.encodings = e.registry.medium.encodings) ?_ ?_
  · refine Yields.within (Yields.weaken (asked_yields (.spill b.store)
      (Q := fun _ m' => m'.encodings = e.registry.medium.encodings) ?_)
      fun _ _ ⟨hkept, hcount⟩ => ⟨rfl, hkept, hcount⟩)
    refine Yields.weaken (Block.spill_yields hb hmemory) ?_
    rintro _ _ rfl
    exact ⟨Medium.Kept.refl _, rfl⟩
  rintro _ ⟨w₁, e₁⟩ ⟨hw₁, hkept₁, hcount₁⟩
  simp only at hw₁ hkept₁ hcount₁
  subst hw₁
  refine Yields.bind (M := fun fallback s' => s'.1 = w₁ ∧ fallback.id = w.id ∧
    fallback.location = some (Block.fileName w.id) ∧ fallback.keepsSizes = true ∧
    Kept e s'.2 ∧ s'.2.registry.medium.encodings = e.registry.medium.encodings ∧
    fallback.Holds s'.2.registry.medium.dir []) ?_ ?_
  · refine Yields.within (Yields.weaken
      (createBlock_yields .localFile fun _ => hspace.later hkept₁) ?_)
    rintro fallback e' ⟨hid', -, hlocation, hsizes, hkept, hcount, hholds⟩
    exact ⟨rfl, hid', hlocation, hsizes, hkept₁.trans hkept, hcount.trans hcount₁, hholds⟩
  rintro fallback ⟨w₂, e₂⟩ ⟨hw₂, hid₂, hlocation₂, hsizes₂, hkept₂, hcount₂, hholds₂⟩
  simp only at hw₂ hkept₂ hcount₂ hholds₂
  subst hw₂
  have hcodec := hkept₂.medium.codec
  rw [← hcodec, ← hcount₂, ← hsizes₂] at hxs
  refine Yields.bind_bind
    (fill_yields { w with store := .localFile } w₂ hholds₂ hxs reads persistence) ?_
  rintro _ ⟨w₃, e₃⟩ ⟨es, hmakes, hw₃, hregisters, hpool₃⟩
  simp only at hmakes hw₃ hregisters hpool₃
  rw [hid₂, hlocation₂] at hregisters
  rw [hcodec] at hmakes
  have htarget : (e₃.registry.info? w.id).map (·.store) = some .localFile := by
    rw [hregisters.info]
    rfl
  refine Yields.bind (M := fun _ s' => s'.1 = w₃ ∧ Registers w.id
    ⟨.localFile, reads, persistence, some (Block.fileName w.id)⟩ [⟨w.id, w.store, .localFile⟩] es e
    s'.2 ∧ s'.2.pool = e₃.pool) ?_ ?_
  · refine Yields.within (Yields.weaken (putSpilled_yields htarget) ?_)
    rintro _ e' ⟨hmedium, hblocks, hreplacements, hpool, hable⟩
    exact ⟨rfl, (hregisters.after hkept₂).told hmedium hblocks hreplacements hable, hpool⟩
  rintro _ ⟨w₄, e₄⟩ ⟨hw₄, hregisters', hpool₄⟩
  simp only at hw₄ hregisters' hpool₄
  refine Yields.modify ⟨es, hmakes, ?_, hregisters', hpool₄.trans (hpool₃.trans hkept₂.pool)⟩
  show { w₄ with spilled := true } = _
  rw [hw₄, hw₃, reported, if_pos hsizes₂]
  rfl

theorem Registers.of_registry {info : BlockInfo} {replaced : List Replacement}
    {e₁ e₂ e' : Executor α} (h : Registers id info replaced es e₁ e₂)
    (hfirst : e₁.registry = e.registry) (hable : Able e e₁) (hlast : e'.registry = e₂.registry)
    (hable' : Able e₂ e') : Registers id info replaced es e e' := by
  obtain ⟨hmedium, hable₁, hreplacements, hblocks⟩ := h
  rw [hfirst, ← hlast] at hmedium hreplacements hblocks
  exact ⟨hmedium, (hable.trans hable₁).trans hable', hreplacements, hblocks⟩

/-- Where a buffer ends up: in the memory block, and the pool has charged it, or in a file, and the
pool is as it was. -/
inductive Settled (id : BlockId) (store : StoreKind) (w : Writer σ α) (b : Block α)
    (candidate : UInt64) (reads : UInt32) (persistence : Persistence) (es : List (Entry α))
    (e : Executor α) : Writer σ α × Executor α → Prop
  | admitted {e' : Executor α} : (e.pool.reserve id candidate).1 = true →
      e'.pool = (e.pool.reserve id candidate).2 →
      Registers id ⟨store, reads, persistence, none⟩ [] es e e' →
      Settled id store w b candidate reads persistence es e
        ({ w with writtenBytes := reported b es, state := .committed store }, e')
  | spilled {e' : Executor α} : (e.pool.reserve id candidate).1 = false → e'.pool = e.pool →
      Registers id ⟨.localFile, reads, persistence, some (Block.fileName id)⟩
        [⟨id, store, .localFile⟩] es e e' →
      Settled id store w b candidate reads persistence es e
        ({ w with
          writtenBytes := some (UInt64.ofNat (Entry.stored es))
          state := .committedDisk
          spilled := true }, e')

/-- The buffer is handed out whole. -/
theorem takeElements_yields [Measured α] (t : Tracker α) (hestimator : e.estimator.Usable) :
    (takeElements t).Yields e fun xs e' => xs = t.elements.toList ∧ e'.registry = e.registry ∧
      Able e e' ∧ e'.pool = e.pool := by
  have hok := Tracker.takeElements_ok hestimator t
  have husable : e.estimator.Usable → _ := Tracker.takeElements_usable t
  cases htaken : t.takeElements e.estimator with
  | mk result rest =>
    rw [htaken] at hok husable
    refine ⟨_, { e with estimator := rest.2 }, ?_, rfl, rfl, ⟨rfl, husable⟩, rfl⟩
    simp only [takeElements]
    rw [htaken, ← hok]

theorem count_yields {w : Writer σ α} (f : Metrics → Metrics)
    {x : Step (Writer σ α × Executor α) Unit} {Q : Unit → Writer σ α × Executor α → Prop}
    (h : x.Yields (w, { e with metrics := f e.metrics }) Q) :
    (onExecutor (count f) >>= fun _ => x).Yields (w, e) Q :=
  h

/-- An admitted buffer ends up in the memory block. -/
theorem admit_yields {w w' : Writer σ α} {e₁ : Executor α} {xs : List α} {candidate : UInt64}
    (hb : b.Holds e.registry.medium.dir []) (hid : b.id = w.id) (hmemory : b.location = none)
    (hxs : e.registry.medium.codec.EncodesFrom b.keepsSizes e.registry.medium.encodings xs)
    (reads : UInt32) (persistence : Persistence)
    (undo : Writer σ α × Executor α → Writer σ α × Executor α)
    (hgranted : (e.pool.reserve w.id candidate).1 = true) (hregistry : e₁.registry = e.registry)
    (hable : Able e e₁) (hpool : e₁.pool = (e.pool.reserve w.id candidate).2) :
    ((fill w b xs reads persistence).onFault undo).Yields (w', e₁) fun _ s' =>
      ∃ es, Makes w.partitioner xs e.registry.medium.codec es ∧
        Settled w.id w.store w' b candidate reads persistence es e s' := by
  rw [← hregistry] at hb hxs
  refine Yields.onFault (Yields.weaken (fill_yields w w' hb hxs reads persistence) ?_)
  rintro _ ⟨w₂, e₂⟩ ⟨es, hmakes, hw₂, hregisters, hpool₂⟩
  simp only at hw₂ hpool₂
  rw [hid, hmemory] at hregisters
  rw [hregistry] at hmakes
  subst hw₂
  exact ⟨es, hmakes, .admitted hgranted (hpool₂.trans hpool)
    (hregisters.of_registry hregistry hable rfl (Able.refl _))⟩

/-- A refused buffer ends up in a file, and what the pool noted for it is taken back. -/
theorem deny_yields {w w' : Writer σ α} {e₁ : Executor α} {xs : List α} {candidate : UInt64}
    (hb : b.Holds e.registry.medium.dir []) (hmemory : b.location = none)
    (hspace : Spacious w.id e)
    (hxs : e.registry.medium.codec.EncodesFrom true e.registry.medium.encodings xs)
    (reads : UInt32) (persistence : Persistence)
    (hgranted : (e.pool.reserve w.id candidate).1 = false) (hregistry : e₁.registry = e.registry)
    (hable : Able e e₁) (hpool : e₁.pool = (e.pool.reserve w.id candidate).2) :
    ((spill w b xs reads persistence).always fun (w, e) =>
      (w, { e with pool := e.pool.release candidate })).Yields (w', e₁) fun _ s' =>
        ∃ es, Makes w.partitioner xs e.registry.medium.codec es ∧
          Settled w.id w.store w' b candidate reads persistence es e s' := by
  obtain ⟨hfree, hformed, hnamed⟩ := hspace
  rw [← hregistry] at hb hxs hfree hformed
  refine Yields.always (Yields.weaken
    (spill_yields w w' hb hmemory ⟨hfree, hformed, hnamed⟩ hxs reads persistence) ?_)
  rintro _ ⟨w₂, e₂⟩ ⟨es, hmakes, hw₂, hregisters, hpool₂⟩
  simp only at hw₂ hpool₂
  rw [hregistry] at hmakes
  subst hw₂
  refine ⟨es, hmakes, .spilled hgranted ?_
    (hregisters.of_registry hregistry hable rfl ⟨rfl, fun h => h⟩)⟩
  show e₂.pool.release candidate = e.pool
  rw [hpool₂, hpool, Pool.reserve_refused hgranted, Pool.release_acquire]

-- Or else its body is opened over and over to see what a step answers.
attribute [local irreducible] takeElements

theorem settle_yields [Measured α] (w w' : Writer σ α) (hb : b.Holds e.registry.medium.dir [])
    (hid : b.id = w.id) (hmemory : b.location = none) (hspace : Spacious w.id e) (t : Tracker α)
    (hestimator : e.estimator.Usable)
    (hxs : e.registry.medium.codec.EncodesFrom
      (if (e.pool.reserve w.id t.estimateSize).1 then b.keepsSizes else true)
      e.registry.medium.encodings t.elements.toList)
    (reads : UInt32) (persistence : Persistence) :
    (settle w b t reads persistence).Yields (w', e) fun _ s' =>
      ∃ es, Makes w.partitioner t.elements.toList e.registry.medium.codec es ∧
        Settled w.id w.store w' b t.estimateSize reads persistence es e s' := by
  refine Yields.bind (M := fun xs s' => xs = t.elements.toList ∧ s'.1 = w' ∧
    s'.2.registry = e.registry ∧ Able e s'.2 ∧ s'.2.pool = e.pool) ?_ ?_
  · exact Yields.within (Yields.weaken (takeElements_yields t hestimator)
      fun _ _ h => ⟨h.1, rfl, h.2⟩)
  rintro _ ⟨w₁, e₁⟩ ⟨rfl, hw₁, hregistry₁, hable₁, hpool₁⟩
  simp only at hw₁ hregistry₁ hable₁ hpool₁
  subst hw₁
  refine Yields.bind (M := fun granted s' => granted = (e.pool.reserve w.id t.estimateSize).1 ∧
    s'.1 = w₁ ∧ s'.2.registry = e.registry ∧ Able e s'.2 ∧
    s'.2.pool = (e.pool.reserve w.id t.estimateSize).2) ?_ ?_
  · rw [← hpool₁]
    exact Yields.within ⟨_, _, rfl, rfl, rfl, hregistry₁, ⟨hable₁.tracker, hable₁.usable⟩, rfl⟩
  rintro granted ⟨w₂, e₂⟩ ⟨hgranted, hw₂, hregistry₂, hable₂, hpool₂⟩
  simp only at hw₂ hregistry₂ hable₂ hpool₂
  subst hw₂
  rw [← hgranted] at hxs
  cases granted with
  | true =>
    rw [if_pos rfl]
    rw [if_pos rfl] at hxs
    exact count_yields _ (admit_yields hb hid hmemory hxs reads persistence _ hgranted.symm
      hregistry₂ ⟨hable₂.tracker, hable₂.usable⟩ hpool₂)
  | false =>
    rw [if_neg Bool.false_ne_true]
    rw [if_neg Bool.false_ne_true] at hxs
    exact count_yields _ (deny_yields hb hmemory hspace hxs reads persistence hgranted.symm
      hregistry₂ ⟨hable₂.tracker, hable₂.usable⟩ hpool₂)

end Writer

end ShuffleBuffer
