import ShuffleBuffer.Proofs.Closing

/-! # Open writers

Until it is closed, a writer carries the elements that were written to it: in its block, under the
keys that the partitioner gave them, or in its buffer, next to a memory block that is still empty.
-/

namespace ShuffleBuffer

open Estimate Step

variable {σ α : Type}

/-! ## Edges -/

/-- How many tasks of a destination read one block; none if their number is missing. -/
def Destination.readers (dst : Destination) : CommunicationPattern → Nat
  | .oneToOne => 1
  | .broadcast | .shuffle => (dst.parallelism.getD 0).toNat

/-- An edge that carries its own output and has all properties that a writer needs. -/
structure Edge.Complete (edge : Edge) (dst : Destination) (store : StoreKind)
    (pattern : CommunicationPattern) (persistence : Persistence) : Prop where
  ownOutput : edge.isDuplicateOmitted = false
  hasStore : edge.store = some store
  hasPattern : edge.pattern = some pattern
  hasPersistence : edge.persistence = some persistence
  hasReaders : 0 < dst.readers pattern

variable {edge : Edge} {dst : Destination} {store : StoreKind} {pattern : CommunicationPattern}
  {persistence : Persistence}

theorem Destination.requiredParallelism_ok (edge : Edge)
    (h : 0 < (dst.parallelism.getD 0).toNat) :
    ∃ n, dst.requiredParallelism edge = .ok n ∧ n.toNat = (dst.parallelism.getD 0).toNat := by
  unfold requiredParallelism
  split
  · rename_i heq
    rw [heq] at h
    cases h
  · rename_i n _ heq
    exact ⟨n, rfl, by rw [heq, Option.getD_some]⟩
  · rename_i heq
    rw [heq] at h
    cases h

theorem Edge.Complete.expectedReads (h : edge.Complete dst store pattern persistence) :
    ∃ reads, dst.expectedReads edge = .ok reads ∧
      reads.toNat = min (dst.readers pattern * edge.duplicateMultiplier.toNat) 0xffffffff := by
  have hpattern : edge.requiredPattern = .ok pattern := by
    rw [requiredPattern, h.hasPattern, require]
  suffices hper : ∃ n : UInt32, n.toNat = dst.readers pattern ∧
      dst.expectedReads edge =
        .ok (min (n.toNat * edge.duplicateMultiplier.toNat) 0xffffffff).toUInt32 by
    obtain ⟨n, hn, heq⟩ := hper
    refine ⟨_, heq, ?_⟩
    rw [hn]
    exact UInt32.toNat_ofNat_of_lt (Nat.lt_of_le_of_lt (Nat.min_le_right _ _) (by decide))
  have hreaders := h.hasReaders
  rw [Destination.expectedReads, hpattern]
  cases pattern with
  | oneToOne => exact ⟨1, rfl, rfl⟩
  | broadcast =>
    obtain ⟨n, hrequired, hn⟩ := Destination.requiredParallelism_ok edge hreaders
    refine ⟨n, hn, ?_⟩
    simp only [bind, Except.bind, hrequired]
    rfl
  | shuffle =>
    obtain ⟨n, hrequired, hn⟩ := Destination.requiredParallelism_ok edge hreaders
    refine ⟨n, hn, ?_⟩
    simp only [bind, Except.bind, hrequired]
    rfl

/-! ## Keys -/

namespace Partitioner

/-- The partitioner after it was asked about some elements. -/
def after (p : Partitioner σ α) : List α → Partitioner σ α
  | [] => p
  | x :: xs => (p.next x).2.after xs

theorem after_concat (p : Partitioner σ α) (xs : List α) (x : α) :
    p.after (xs ++ [x]) = ((p.after xs).next x).2 := by
  induction xs generalizing p with
  | nil => rfl
  | cons y ys ih => exact ih (p.next y).2

theorem keys_concat (p : Partitioner σ α) (xs : List α) (x : α) :
    p.keys (xs ++ [x]) = p.keys xs ++ [((p.after xs).next x).1] := by
  induction xs generalizing p with
  | nil => rfl
  | cons y ys ih =>
    rw [List.cons_append, keys, ih, keys, List.cons_append, after]

end Partitioner

/-! ## What is carried -/

/-- A block in memory to which nothing was written. -/
structure Block.Blank (id : BlockId) (store : StoreKind) (b : Block α) : Prop where
  id : b.id = id
  memory : b.location = none
  sizes : b.keepsSizes = store.tracksSizes
  holds : ∀ d, b.Holds d []

namespace Writer

open Executor

/-- A writer before it has a block. -/
def idle (task : TaskId) (edge : Edge) (destination : Destination) (partitioner : Partitioner σ α)
    (store : StoreKind) : Writer σ α :=
  { edge, destination, partitioner, id := BlockId.of edge.id task, store }

/-- A writer whose elements are all in its buffer. -/
inductive Buffers (start : Writer σ α) (xs : List α) : Writer σ α → Prop
  | mk {b : Block α} {t : Tracker α} : b.Blank start.id start.store → t.elements.toList = xs →
      Buffers start xs { start with block := some b, tracker := some t }

theorem Buffers.id {start w : Writer σ α} {xs : List α} (h : Buffers start xs w) :
    w.id = start.id := by
  cases h
  rfl

/-- A writer that has put its elements into its block. -/
inductive Puts (start : Writer σ α) (xs : List α) (e : Executor α) : Writer σ α → Prop
  | mk {b : Block α} {es : List (Entry α)} : b.id = start.id →
      b.location = (if start.store.isMemoryTier then none else some (Block.fileName start.id)) →
      b.keepsSizes = start.store.tracksSizes → b.Holds e.registry.medium.dir es →
      Makes start.partitioner xs e.registry.medium.codec es →
      Puts start xs e
        { start with partitioner := start.partitioner.after xs, block := some b }

variable [Measured α] {task : TaskId} {edge : Edge} {destination : Destination}
  {p : Partitioner σ α} {store : StoreKind} {pattern : CommunicationPattern}
  {persistence : Persistence} {e : Executor α} {xs : List α}

theorem make_eq (hedge : edge.Complete destination store pattern persistence) :
    make task edge destination p = do
      let block ← createBlock (.of edge.id task) store
      let tracker ← if store.spillsToDisk then some <$> makeTracker else pure none
      return { idle task edge destination p store with block := some block, tracker } := by
  have hrequired : edge.requiredStore = .ok store := by
    rw [Edge.requiredStore, hedge.hasStore, Edge.require]
  rw [make, hrequired]
  funext e
  simp only [bind_apply, Step.ofExcept, hedge.ownOutput]
  rfl

-- Or else its body is opened over and over to see what a step answers.
attribute [local irreducible] takeElements

/-- What a close does once the edge has told what is needed. -/
theorem close_eq {w : Writer σ α} {b : Block α} {reads : UInt32} (hstate : w.state = .writing)
    (hblock : w.block = some b) (hpersistence : w.edge.persistence = some persistence)
    (hreads : w.destination.expectedReads w.edge = .ok reads) :
    close (w, e) = (w.tracker.elim (commit b w.store reads persistence) fun t =>
      settle w b t reads persistence) ({ w with block := none, tracker := none }, e) := by
  have hrequired : w.edge.requiredPersistence = .ok persistence := by
    rw [Edge.requiredPersistence, hpersistence, Edge.require]
  unfold close expectedReads
  simp only [bind_apply, Step.read, Step.ofExcept, hstate, hrequired, hreads, hblock, update,
    Step.modify]
  cases w.tracker with
  | none => rfl
  | some t => rfl

/-! ## Writers with a buffer -/

omit [Measured α] in
theorem createBlock_blank (id : BlockId) (hstore : store.spillsToDisk = true) :
    (createBlock id store).Yields e fun b e' => b.Blank id store ∧ Kept e e' := by
  have hmemory := StoreKind.isMemoryTier_of_spillsToDisk hstore
  refine Yields.weaken (createBlock_yields store fun hdisk => ?_) ?_
  · rw [hmemory] at hdisk
    cases hdisk
  · rintro b e' ⟨hid, -, hlocation, hsizes, hkept, -, hholds⟩
    rw [if_pos hmemory] at hlocation
    refine ⟨⟨hid, hlocation, hsizes, fun _ => hholds.apart fun name hname => ?_⟩, hkept⟩
    cases hlocation.symm.trans hname

/-- On a store that falls back to disk, a new writer has an empty buffer. -/
theorem make_buffers (task : TaskId) (p : Partitioner σ α)
    (hedge : edge.Complete destination store pattern persistence)
    (hstore : store.spillsToDisk = true) :
    Leads (· = e) (make task edge destination p)
      (fun w e' => Buffers (idle task edge destination p store) [] w ∧ Kept e e')
      fun _ => True := by
  rw [make_eq hedge]
  simp only [if_pos hstore]
  refine Leads.bind (Q := fun b e' => b.Blank (.of edge.id task) store ∧ Kept e e') ?_ fun b => ?_
  · exact Leads.of_yields fun _ hsame => hsame ▸ createBlock_blank _ hstore
  refine Leads.given fun hb => Leads.bind (Q := fun t e' =>
    (∃ t', t = some t' ∧ t'.elements.toList = []) ∧ Kept e e') ?_ fun t => ?_
  · refine Leads.bind (Q := fun t e' => t.elements.toList = [] ∧ Kept e e') ?_ fun t =>
      Leads.pure fun _ h => ⟨⟨t, rfl, h.1⟩, h.2⟩
    intro e' hkept
    cases hmake : Tracker.make (α := α) e'.tracker e'.estimator with
    | mk result estimator =>
      have husable := Tracker.make_usable (α := α) (e := e'.estimator) e'.tracker
      simp only [makeTracker, hmake]
      rw [hmake] at husable
      cases result with
      | error fault => trivial
      | ok t =>
        exact ⟨by rw [Tracker.make_elements hmake],
          hkept.trans ⟨Medium.Kept.refl _, rfl, rfl, rfl, rfl, husable⟩⟩
  · refine Leads.given fun ht => Leads.pure fun e' hkept => ?_
    obtain ⟨t', rfl, ht⟩ := ht
    exact ⟨.mk hb ht, hkept⟩

theorem make_buffers_yields (task : TaskId) (p : Partitioner σ α)
    (hedge : edge.Complete destination store pattern persistence)
    (hstore : store.spillsToDisk = true) (htracker : e.tracker.validate = .ok ())
    (hestimator : e.estimator.Usable) :
    (make task edge destination p).Yields e fun w e' =>
      Buffers (idle task edge destination p store) [] w ∧ Kept e e' := by
  suffices hok : (make task edge destination p).Yields e fun _ _ => True by
    obtain ⟨w, e', hmake, -⟩ := hok
    have hbuffers := make_buffers task p hedge hstore e rfl
    rw [hmake] at hbuffers
    exact ⟨w, e', hmake, hbuffers⟩
  rw [make_eq hedge]
  simp only [if_pos hstore]
  refine Yields.bind (createBlock_blank _ hstore) fun b e' h => ?_
  rw [← h.2.able.tracker] at htracker
  obtain ⟨t, ht⟩ := Tracker.make_ok (α := α) htracker (h.2.able.usable hestimator)
  refine Yields.bind (M := fun _ _ => True) ?_ fun _ _ h => Yields.pure h
  refine Yields.bind (M := fun _ _ => True) ?_ fun _ _ h => Yields.pure h
  refine ⟨t, { e' with estimator := (Tracker.make (α := α) e'.tracker e'.estimator).2 }, ?_, trivial⟩
  simp only [makeTracker, ht]

/-- A written element is in the buffer, whether an estimate that was due succeeds or not. -/
theorem write_buffers {w : Writer σ α} (hw : Buffers (idle task edge destination p store) xs w)
    (x : α) (e : Executor α) :
    Buffers (idle task edge destination p store) (xs ++ [x]) (write x (w, e)).2.1 ∧
      Kept e (write x (w, e)).2.2 := by
  cases hw with
  | @mk b t hb ht =>
    refine ⟨Buffers.mk (t := (t.append e.estimator x).2.1) hb ?_, Medium.Kept.refl _, rfl, rfl,
      rfl, rfl, Tracker.append_usable t x⟩
    rw [Tracker.append_elements, Array.toList_push, ht]

theorem close_buffers {w : Writer σ α} (hw : Buffers (idle task edge destination p store) xs w)
    (hedge : edge.Complete destination store pattern persistence) {reads : UInt32}
    (hreads : destination.expectedReads edge = .ok reads)
    (hspace : Spacious (.of edge.id task) e) (hestimator : e.estimator.Usable)
    (hxs : ∀ x ∈ xs, e.registry.medium.codec.Encodes x) :
    close.Yields (w, e) fun _ s' => ∃ b c es, b.Blank (.of edge.id task) store ∧
      w.trackedSize = some c ∧ Makes p xs e.registry.medium.codec es ∧
      Settled (.of edge.id task) store (idle task edge destination p store) b c reads persistence
        es e s' := by
  cases hw with
  | @mk b t hb ht =>
    subst ht
    rw [Yields, close_eq rfl rfl hedge.hasPersistence hreads]
    refine Yields.weaken (settle_yields _ _ (hb.holds _) hb.id hb.memory hspace t hestimator
      (Codec.encodesFrom_of_encodes hxs _ _) _ _) ?_
    intro _ s' hs'
    obtain ⟨es, hmakes, hsettled⟩ := hs'
    exact ⟨b, t.estimateSize, es, hb, rfl, hmakes, hsettled⟩

/-! ## Writers without a buffer -/

theorem make_puts (hedge : edge.Complete destination store pattern persistence)
    (hstore : store.spillsToDisk = false) (hspace : Spacious (.of edge.id task) e) :
    (make task edge destination p).Yields e fun w e' =>
      Puts (idle task edge destination p store) [] e' w ∧ Kept e e' := by
  rw [make_eq hedge]
  simp only [hstore, if_neg Bool.false_ne_true]
  refine Yields.bind (createBlock_yields store fun _ => hspace) fun b e' h => ?_
  obtain ⟨hid, -, hlocation, hsizes, hkept, -, hholds⟩ := h
  refine Yields.bind (M := fun t e'' => t = none ∧ e'' = e') (Yields.pure ⟨rfl, rfl⟩) ?_
  rintro _ _ ⟨rfl, rfl⟩
  exact Yields.pure ⟨.mk hid hlocation hsizes hholds ⟨rfl, rfl, by simp⟩, hkept⟩

theorem write_puts {w : Writer σ α} (hw : Puts (idle task edge destination p store) xs e w)
    {x : α} (hx : e.registry.medium.codec.Encodes x) :
    (write x).Yields (w, e) fun _ s' =>
      Puts (idle task edge destination p store) (xs ++ [x]) s'.2 s'.1 ∧
        Kept e s'.2 := by
  cases hw with
  | @mk b es hid hlocation hsizes hholds hmakes =>
    obtain ⟨c, e', hput, hok, hlike, hkept, -, entry, hkey, hvalue, hmade, hholds'⟩ :=
      put_yields hholds ((p.after xs).next x).1 (hx _) ((p.after xs).next x).2.dedicated
    refine Yields.bind (M := fun w' s' => w' = { idle task edge destination p store with
      partitioner := p.after xs, block := some b } ∧ s' = (w', e)) (Yields.read ⟨rfl, rfl⟩) ?_
    rintro _ _ ⟨rfl, rfl⟩
    refine Yields.bind (M := fun _ s' => s' = ({ idle task edge destination p store with
      partitioner := p.after (xs ++ [x]), block := some b }, e)) (Yields.modify ?_) ?_
    · rw [Partitioner.after_concat]
      rfl
    rintro _ _ rfl
    refine Yields.bind (M := fun c' s' => c' = c ∧ s' = ({ idle task edge destination p store
      with partitioner := p.after (xs ++ [x]), block := some b }, e'))
      (Yields.within ⟨c, e', hput, rfl, rfl⟩) ?_
    rintro c _ ⟨rfl, rfl⟩
    refine Yields.bind (M := fun _ s' => s' = ({ idle task edge destination p store with
      partitioner := p.after (xs ++ [x]), block := some c.block }, e')) (Yields.modify rfl) ?_
    rintro _ _ rfl
    refine Yields.ofExcept hok ⟨Puts.mk (hlike.id.trans hid) (hlike.location.trans hlocation)
      (hlike.keepsSizes.trans hsizes) hholds' ⟨?_, ?_, ?_⟩, hkept⟩
    · rw [List.map_append, hmakes.keys, List.map_singleton, hkey]
      exact (p.keys_concat xs x).symm
    · rw [List.map_append, hmakes.values, List.map_singleton, hvalue]
    · rw [hkept.medium.codec]
      intro other hother
      rcases List.mem_append.mp hother with hold | hnew
      · exact hmakes.made other hold
      · rw [List.mem_singleton.mp hnew]
        exact hmade

/-- What is registered and what the writer tells after a close. -/
structure Closes (id : BlockId) (store : StoreKind) (es : List (Entry α)) (info : BlockInfo)
    (e : Executor α) (s' : Writer σ α × Executor α) : Prop where
  registers : ∃ replaced, Registers id info replaced es e s'.2
  location : info.location = if info.store.isMemoryTier then none else some (Block.fileName id)
  unheld : s'.1.block = none
  state : s'.1.state = .committed info.store
  reads : s'.1.expectedReads = .ok info.expectedReads
  bytes : s'.1.writtenBytes = if store = .memory ∨ info.store = .memoryFile then none
    else some (UInt64.ofNat (Entry.stored es))

theorem close_puts {w : Writer σ α} (hw : Puts (idle task edge destination p store) xs e w)
    (hstore : store.spillsToDisk = false)
    (hedge : edge.Complete destination store pattern persistence) {reads : UInt32}
    (hreads : destination.expectedReads edge = .ok reads) :
    close.Yields (w, e) fun _ s' => ∃ es info, Makes p xs e.registry.medium.codec es ∧
      Closes (.of edge.id task) store es info e s' := by
  cases hw with
  | @mk b es hid hlocation hsizes hholds hmakes =>
    rw [Yields, close_eq rfl rfl hedge.hasPersistence hreads]
    refine Yields.weaken (commit_yields _ hholds store reads persistence) fun _ s' h => ?_
    obtain ⟨hwriter, hregisters, -⟩ := h
    rw [hid] at hregisters
    refine ⟨es, _, hmakes, ⟨[], hregisters⟩, hlocation, ?_, ?_, ?_, ?_⟩
    · rw [hwriter]
    · rw [hwriter]
    · rw [hwriter]
      exact hreads
    · rw [hwriter, reported, hsizes]
      cases store with
      | memoryFile | serializedMemoryFile => cases hstore
      | memory => rfl
      | serializedMemory => rfl
      | localFile => rfl

/-! ## Either kind of writer -/

/-- A writer that carries these elements, in its buffer or in its block. -/
inductive Carries (start : Writer σ α) (xs : List α) (e : Executor α) (w : Writer σ α) : Prop
  | buffered : start.store.spillsToDisk = true → Buffers start xs w → Carries start xs e w
  | through : start.store.spillsToDisk = false → Puts start xs e w → Carries start xs e w

omit [Measured α] in
theorem Carries.writing {w : Writer σ α}
    (h : Carries (idle task edge destination p store) xs e w) :
    w.id = .of edge.id task ∧ w.state = .writing ∧
      w.expectedReads = destination.expectedReads edge := by
  cases h with
  | buffered _ hbuffers =>
    cases hbuffers
    exact ⟨rfl, rfl, rfl⟩
  | through _ hputs =>
    cases hputs
    exact ⟨rfl, rfl, rfl⟩

theorem make_carries (hedge : edge.Complete destination store pattern persistence)
    (hspace : Spacious (.of edge.id task) e) (htracker : e.tracker.validate = .ok ())
    (hestimator : e.estimator.Usable) :
    (make task edge destination p).Yields e fun w e' =>
      Carries (idle task edge destination p store) [] e' w ∧ Kept e e' := by
  cases hstore : store.spillsToDisk with
  | true =>
    refine Yields.weaken (make_buffers_yields task p hedge hstore htracker hestimator) ?_
    exact fun _ _ h => ⟨.buffered hstore h.1, h.2⟩
  | false =>
    refine Yields.weaken (make_puts hedge hstore hspace) ?_
    exact fun _ _ h => ⟨.through hstore h.1, h.2⟩

theorem write_carries {w : Writer σ α} (hw : Carries (idle task edge destination p store) xs e w)
    {x : α} (hx : e.registry.medium.codec.Encodes x) :
    Carries (idle task edge destination p store) (xs ++ [x]) (write x (w, e)).2.2
        (write x (w, e)).2.1 ∧
      Kept e (write x (w, e)).2.2 := by
  cases hw with
  | buffered hstore hbuffers =>
    obtain ⟨hbuffers', hkept⟩ := write_buffers hbuffers x e
    exact ⟨.buffered hstore hbuffers', hkept⟩
  | through hstore hputs =>
    obtain ⟨_, s', hwrite, hputs', hkept⟩ := write_puts hputs hx
    rw [hwrite]
    exact ⟨.through hstore hputs', hkept⟩

/-- Whatever kind of writer is closed, its elements are registered. Their bytes are told unless they
are in memory as they are. -/
theorem close_carries {w : Writer σ α} (hw : Carries (idle task edge destination p store) xs e w)
    (hedge : edge.Complete destination store pattern persistence)
    (hspace : Spacious (.of edge.id task) e) (hestimator : e.estimator.Usable)
    (hxs : ∀ x ∈ xs, e.registry.medium.codec.Encodes x) :
    close.Yields (w, e) fun _ s' => ∃ es info, Makes p xs e.registry.medium.codec es ∧
      Closes (.of edge.id task) store es info e s' := by
  obtain ⟨reads, hreads, -⟩ := hedge.expectedReads
  cases hw with
  | buffered hstore hbuffers =>
    refine Yields.weaken (close_buffers hbuffers hedge hreads hspace hestimator hxs) ?_
    intro _ s' h
    obtain ⟨b, c, es, hblank, -, hmakes, hsettled⟩ := h
    cases hsettled with
    | admitted hgranted hpool hregisters =>
      have hmemory : store.isMemoryTier = true := StoreKind.isMemoryTier_of_spillsToDisk hstore
      refine ⟨es, _, hmakes, ⟨_, hregisters⟩, (if_pos hmemory).symm, rfl, rfl, hreads, ?_⟩
      rw [reported, hblank.sizes]
      cases store with
      | memory | serializedMemory | localFile => cases hstore
      | memoryFile => rfl
      | serializedMemoryFile => rfl
    | spilled hrefused hpool hregisters =>
      refine ⟨es, _, hmakes, ⟨_, hregisters⟩, rfl, rfl, rfl, hreads, ?_⟩
      rw [if_neg]
      rintro (rfl | hinfo)
      · cases hstore
      · cases hinfo
  | through hstore hputs => exact close_puts hputs hstore hedge hreads

end Writer

end ShuffleBuffer
