import ShuffleBuffer.Element
import ShuffleBuffer.Proofs.Lifecycle
import ShuffleBuffer.Proofs.Mirrors
import ShuffleBuffer.Proofs.Views

/-! # What a failed write leaves

A write on a store that is written through fails when its element cannot be encoded. Nothing of the
element is in the block then, but the partitioner has been asked for its key. A write on a store
with a buffer fails when its element cannot be estimated, and the element is in the buffer like any
other. Faults are not rolled back: what to do next is left to the task. -/

namespace ShuffleBuffer

open Estimate Step

variable {σ α : Type}

/-! ## Entries, whatever the codec -/

namespace Entry

/-- These are the entries of elements under keys. Where they are kept as bytes, the codec made
these. -/
structure Lists (codec : Codec α) (sized : Bool) (keyed : List (PartitionKey × α))
    (es : List (Entry α)) : Prop where
  keyed : es.map (fun entry => (entry.key, entry.value)) = keyed
  made : sized = true → ∀ entry ∈ es, codec.Made entry

variable {codec : Codec α} {sized : Bool} {keyed keyed' : List (PartitionKey × α)}
  {es es' : List (Entry α)}

theorem Lists.nil : Lists codec sized [] [] := ⟨rfl, fun _ => nofun⟩

theorem Lists.append (h : Lists codec sized keyed es) (h' : Lists codec sized keyed' es') :
    Lists codec sized (keyed ++ keyed') (es ++ es') := by
  refine ⟨?_, fun hsized entry hentry => ?_⟩
  · rw [List.map_append, h.keyed, h'.keyed]
  · rcases List.mem_append.mp hentry with hfirst | hsecond
    · exact h.made hsized entry hfirst
    · exact h'.made hsized entry hsecond

theorem Lists.under (h : Lists codec sized keyed es) (key : PartitionKey) :
    (Entry.under key es).map value = (keyed.filter (·.1 = key)).map (·.2) := by
  rw [← h.keyed, List.filter_map, List.map_map, Entry.under]
  rfl

/-- A codec that round-trips gives the elements back. -/
theorem Lists.restored (h : Lists codec sized keyed es) (hcodec : codec.RoundTrips)
    (key : PartitionKey) :
    (Entry.under key es).mapM (Entry.restored codec sized) =
      .ok ((keyed.filter (·.1 = key)).map (·.2)) := by
  have heach : ∀ entry ∈ Entry.under key es,
      Entry.restored codec sized entry = .ok entry.value := by
    intro entry hentry
    rw [Entry.restored]
    split
    · next hsized =>
      obtain ⟨-, earlier, hencode⟩ := h.made hsized entry (List.mem_filter.mp hentry).1
      exact (hcodec earlier entry.value entry.payload hencode).2
    · rfl
  rw [restored_values heach, h.under key]

/-- What a steady codec encoded once it always encodes. -/
theorem Lists.encodes (h : Lists codec sized keyed es) (hsized : sized = true)
    (hcodec : codec.Steady) {x : α} (hx : x ∈ keyed.map (·.2)) : codec.Encodes x := by
  rw [← h.keyed, List.map_map] at hx
  obtain ⟨entry, hentry, rfl⟩ := List.mem_map.mp hx
  obtain ⟨hfits, earlier, hencode⟩ := h.made hsized entry hentry
  exact fun other => ⟨entry.payload, (hcodec other earlier _).trans hencode, hfits⟩

/-- Of a steady codec the bytes of an entry are those of its element. -/
theorem Lists.restored_steady (h : Lists codec sized keyed es) (hcodec : codec.Steady)
    (key : PartitionKey) :
    (Entry.under key es).mapM (Entry.restored codec sized) =
      ((keyed.filter (·.1 = key)).map (·.2)).mapM fun x =>
        if sized then codec.encode 0 x >>= codec.decode else .ok x := by
  have heach : ∀ entry ∈ Entry.under key es, Entry.restored codec sized entry =
      if sized then codec.encode 0 entry.value >>= codec.decode else .ok entry.value := by
    intro entry hentry
    rw [Entry.restored]
    split
    · next hsized =>
      obtain ⟨-, earlier, hencode⟩ := h.made hsized entry (List.mem_filter.mp hentry).1
      rw [hcodec 0 earlier, hencode]
      rfl
    · rfl
  rw [← h.under key]
  generalize Entry.under key es = es' at heach
  induction es' with
  | nil => rfl
  | cons entry es' ih =>
    rw [List.map_cons, List.mapM_cons, List.mapM_cons, heach entry List.mem_cons_self,
      ih fun other hother => heach other (List.mem_cons_of_mem _ hother)]

end Entry

namespace Block

variable {b : Block α} {m : Medium α} {es : List (Entry α)} {codec : Codec α}
  {keyed : List (PartitionKey × α)}

/-- An open block of a codec, and the elements that were written to it. -/
structure Contains (codec : Codec α) (keyed : List (PartitionKey × α)) (b : Block α)
    (m : Medium α) : Prop where
  coded : m.codec = codec
  entries : ∃ es, Entry.Lists codec b.keepsSizes keyed es ∧ b.Holds m.dir es

/-- A write adds an element. Or it fails, where elements are encoded and this one cannot be, and
adds none. -/
theorem write_leads (b : Block α) (key : PartitionKey) (x : α) :
    Leads (b.Contains codec keyed) (b.write key x)
      (fun c m => (c.result = .ok () ∧ b.Like c.block) ∧
        c.block.Contains codec (keyed ++ [(key, x)]) m)
      (fun m => b.Contains codec keyed m ∧ b.keepsSizes = true ∧ ¬ codec.Encodes x) := by
  rintro m ⟨rfl, es, hes, hb⟩
  have hadd : ∀ payload, (b.keepsSizes = true →
      m.codec.encode m.encodings x = .ok payload ∧ payload.length < UInt32.size) →
      (b.write key x).Yields m fun c m' => (c.result = .ok () ∧ b.Like c.block) ∧
        c.block.Contains m.codec (keyed ++ [(key, x)]) m' := by
    intro payload hmade
    refine (write_entry hb ⟨key, x, payload⟩ hmade).weaken ?_
    rintro c m' ⟨hok, hlike, hkept, -, hholds⟩
    refine ⟨⟨hok, hlike⟩, hkept.codec, _, ?_, hholds⟩
    rw [hlike.keepsSizes]
    refine hes.append ⟨rfl, fun hsized entry hentry => ?_⟩
    rw [List.mem_singleton.mp hentry]
    exact ⟨(hmade hsized).2, _, (hmade hsized).1⟩
  by_cases hcan : b.keepsSizes = true → m.codec.EncodesAt m.encodings x
  · -- where nothing is encoded, any bytes will do
    have hpayload : ∃ payload, b.keepsSizes = true →
        m.codec.encode m.encodings x = .ok payload ∧ payload.length < UInt32.size := by
      cases hsized : b.keepsSizes with
      | false => exact ⟨[], nofun⟩
      | true => exact (hcan hsized).imp fun _ h _ => h
    obtain ⟨payload, hmade⟩ := hpayload
    obtain ⟨c, m', hwrite, h⟩ := hadd payload hmade
    rw [hwrite]
    exact h
  · obtain ⟨hsized, hnot⟩ := Classical.not_imp.mp hcan
    obtain ⟨fault, hframe⟩ := Medium.frame_refuses hnot key
    rw [write_refused hb hsized hframe]
    exact ⟨⟨rfl, es, hes, hb⟩, hsized, fun hencodes => hnot (hencodes m.encodings)⟩

theorem commitPartitions_leads (b : Block α) :
    Leads (b.Contains codec keyed) b.commitPartitions
      (fun c m => (c.result = .ok () ∧ b.Like c.block) ∧ c.block.Contains codec keyed m)
      fun _ => False := by
  refine Leads.of_yields fun m hb => ?_
  obtain ⟨es, hes, hholds⟩ := hb.entries
  refine (commitPartitions_yields hholds).weaken fun c m' h => ?_
  obtain ⟨hok, hlike, hkept, -, hholds'⟩ := h
  exact ⟨⟨hok, hlike⟩, hkept.codec.trans hb.coded, es, hlike.keepsSizes ▸ hes, hholds'⟩

/-- A committed block of a codec, and the elements that were written to it. -/
structure Preserves (codec : Codec α) (keyed : List (PartitionKey × α)) (b : Block α)
    (m : Medium α) : Prop where
  coded : m.codec = codec
  entries : ∃ es, Entry.Lists codec b.keepsSizes keyed es ∧ b.Stores m.dir es

theorem commit_leads (b : Block α) :
    Leads (b.Contains codec keyed) b.commit
      (fun r m => (r.2.result = .ok () ∧ b.Like r.2.block) ∧ r.2.block.Preserves codec keyed m)
      fun _ => False := by
  refine Leads.of_yields fun m hb => ?_
  obtain ⟨es, hes, hholds⟩ := hb.entries
  refine (commit_yields hholds).weaken fun r m' h => ?_
  obtain ⟨-, hok, hlike, hkept, -, hstores⟩ := h
  exact ⟨⟨hok, hlike⟩, hkept.codec.trans hb.coded, es, hlike.keepsSizes ▸ hes, hstores⟩

end Block

namespace Executor

/-- Noting a request changes nothing of the medium. -/
theorem asked_leads (request : Request) {P E : Medium α → Prop} {x : Step (Medium α) β}
    {Q : β → Medium α → Prop} (h : Leads P x Q E) :
    Leads (fun e => P e.registry.medium) (ask request (onMedium x))
      (fun a e => Q a e.registry.medium) fun e => E e.registry.medium := by
  refine Leads.bind (Q := fun _ e => P e.registry.medium) (Leads.modify fun _ h => h) fun _ => ?_
  unfold onMedium onRegistry Registry.onMedium
  refine Leads.within fun e he => Leads.within fun r hr => ?_
  subst hr
  exact Leads.weaken h (fun m hm => hm ▸ he) (fun _ _ h => h) fun _ h => h

/-- A registered block of a codec, and the elements that were written to it. -/
structure Landed (id : BlockId) (codec : Codec α) (keyed : List (PartitionKey × α))
    (info : BlockInfo) (e : Executor α) : Prop where
  block : ∃ b : Block α, e.registry.entry? id = some ⟨b, info⟩ ∧
    b.keepsSizes = info.store.tracksSizes ∧ b.Preserves codec keyed e.registry.medium

variable {id : BlockId} {codec : Codec α} {keyed : List (PartitionKey × α)} {info : BlockInfo}
  {e e' : Executor α}

/-- It is read as its codec has its entries. -/
theorem Landed.readPartition (h : Landed id codec keyed info e) :
    ∃ es, Entry.Lists codec info.store.tracksSizes keyed es ∧
      ∀ key, e.registry.readPartition id key =
        (Entry.under key es).mapM (Entry.restored codec info.store.tracksSizes) := by
  obtain ⟨b, hentry, hsizes, hcodec, es, hes, hstores⟩ := h.block
  refine ⟨es, hsizes ▸ hes, fun key => ?_⟩
  rw [Registry.readPartition, Registry.entry, hentry, ← hsizes]
  subst hcodec
  exact Block.readPartition_restored hstores (fun hsized entry hentry =>
    (hes.made hsized entry hentry).1) key

theorem register_leads {b : Block α} (hid : b.id = id) {store : StoreKind}
    (hsizes : b.keepsSizes = store.tracksSizes) (reads : UInt32) (persistence : Persistence) :
    Leads (fun e => b.Preserves codec keyed e.registry.medium)
      (register b store reads persistence)
      (fun _ e => ∃ info, info.store = store ∧ Landed id codec keyed info e) fun _ => False := by
  refine Leads.of_yields fun e hb => ?_
  obtain ⟨es, -, hstores⟩ := hb.entries
  refine (register_yields hstores.committed store reads persistence).weaken fun _ e' h => ?_
  obtain ⟨hmedium, -, -, -, hblocks⟩ := h
  refine ⟨⟨store, reads, persistence, b.location⟩, rfl, b, ?_, hsizes, hmedium ▸ hb⟩
  rw [Registry.entry?, hblocks, hid]
  exact List.lookup_cons_self

theorem putSpilled_leads (id' : BlockId) (source target : StoreKind) :
    Leads (Landed id codec keyed info) (putSpilled id' source target)
      (fun _ => Landed id codec keyed info) fun _ => True := by
  refine Leads.bind (Q := fun _ => Landed id codec keyed info)
    (Leads.modify fun _ h => ⟨h.block⟩) fun _ => Leads.within fun e he => ?_
  rintro _ rfl
  by_cases htold : (e.registry.info? id').map (·.store) = some target
  · rw [Registry.putSpilled, if_pos htold]
    exact ⟨he.block⟩
  · rw [Registry.putSpilled, if_neg htold]
    trivial

end Executor

namespace Writer

open Executor

variable {codec : Codec α} {keyed : List (PartitionKey × α)} {b : Block α} {e : Executor α}

/-- An element goes into the block under its key, or it cannot be encoded and leaves no trace. -/
theorem put_leads (b : Block α) (key : PartitionKey) (x : α) (dedicated : Bool) :
    Leads (fun e => b.Contains codec keyed e.registry.medium) (put b key x dedicated)
      (fun c e => (c.result = .ok () ∧ b.Like c.block) ∧
        c.block.Contains codec (keyed ++ [(key, x)]) e.registry.medium)
      (fun e => b.Contains codec keyed e.registry.medium ∧ b.keepsSizes = true ∧
        ¬ codec.Encodes x) := by
  refine Leads.bind (asked_leads (.write key) (b.write_leads key x)) fun c =>
    Leads.given fun hc => ?_
  rw [hc.1]
  cases dedicated with
  | false => exact Leads.pure fun _ hb => ⟨hc, hb⟩
  | true =>
    refine Leads.weaken (asked_leads .commitPartitions c.block.commitPartitions_leads)
      (fun _ h => h) (fun _ _ h => ⟨⟨h.1.1, hc.2.trans h.1.2⟩, h.2⟩) fun _ h => h.elim

/-- All elements of a buffer go into a block, unless one of them cannot be encoded. -/
theorem putAll_leads (xs : List α) (p : Partitioner σ α) (b : Block α) :
    Leads (fun e => b.Contains codec keyed e.registry.medium) (putAll xs p b)
      (fun b' e => b.Like b' ∧
        b'.Contains codec (keyed ++ (p.keys xs).zip xs) e.registry.medium) fun _ => True := by
  induction xs generalizing p b keyed with
  | nil => exact Leads.pure fun _ hb => ⟨Block.Like.refl b, by simpa [Partitioner.keys] using hb⟩
  | cons x xs ih =>
    refine Leads.bind (Leads.onFault (Leads.weaken (put_leads b (p.next x).1 x _)
      (fun _ h => h) (fun _ _ h => h) fun _ _ => trivial)) fun c => Leads.given fun hc => ?_
    refine Leads.bind (Leads.onFault (Leads.ofExcept (fun _ _ _ hb => hb) fun _ _ => trivial))
      fun _ => ?_
    refine Leads.weaken (ih (p.next x).2 c.block) (fun _ h => h) (fun b' e h => ?_) fun _ h => h
    rw [List.append_assoc] at h
    exact ⟨hc.2.trans h.1, h.2⟩

theorem commit_leads {id : BlockId} (hid : b.id = id) {store : StoreKind}
    (hsizes : b.keepsSizes = store.tracksSizes) (reads : UInt32) (persistence : Persistence) :
    Leads (fun s => b.Contains codec keyed s.2.registry.medium)
      (commit (σ := σ) b store reads persistence)
      (fun _ s => ∃ info, info.store = store ∧ Landed id codec keyed info s.2) fun _ => False := by
  refine Leads.bind (Q := fun r s => (r.2.result = .ok () ∧ b.Like r.2.block) ∧
      r.2.block.Preserves codec keyed s.2.registry.medium)
    (Leads.within fun s hs => Leads.weaken (asked_leads (.commit b.store) b.commit_leads)
      (fun _ h => h ▸ hs) (fun _ _ h => h) fun _ h => h) ?_
  rintro ⟨sizes, b', result⟩
  refine Leads.given fun hr => ?_
  obtain ⟨hok, hlike⟩ := hr
  refine Leads.bind (Q := fun _ s => b'.Preserves codec keyed s.2.registry.medium)
    (Leads.of_yields fun _ h => Yields.ofExcept hok h) fun _ => ?_
  refine Leads.bind (Q := fun _ s => b'.Preserves codec keyed s.2.registry.medium)
    (Leads.modify fun _ h => h) fun _ => ?_
  refine Leads.bind (Q := fun _ s => b'.Preserves codec keyed s.2.registry.medium)
    (Leads.within fun s hs => Leads.modify fun _ h => h ▸ hs) fun _ => ?_
  refine Leads.bind (Q := fun _ s => ∃ info, info.store = store ∧ Landed id codec keyed info s.2)
    (Leads.within fun s hs => ?_) fun _ => Leads.modify fun _ h => h
  exact Leads.weaken (register_leads (hlike.id.trans hid) (hlike.keepsSizes.trans hsizes) reads
    persistence) (fun _ h => h ▸ hs) (fun _ _ h => h) fun _ h => h

/-- All elements are taken out of the buffer. -/
theorem takeElements_leads [Measured α] (t : Tracker α) {m : Medium α} :
    Leads (fun e => e.registry.medium = m) (takeElements t)
      (fun xs e => xs = t.elements.toList ∧ e.registry.medium = m) fun _ => True := by
  rintro e rfl
  unfold takeElements Tracker.takeElements
  cases t.clear e.estimator with
  | mk result rest =>
    cases result with
    | ok _ => exact ⟨rfl, rfl⟩
    | error fault => trivial

theorem fill_leads (w : Writer σ α) (b : Block α) (xs : List α) (reads : UInt32)
    (persistence : Persistence) (hsizes : b.keepsSizes = w.store.tracksSizes) :
    Leads (fun s => b.Contains codec [] s.2.registry.medium) (fill w b xs reads persistence)
      (fun _ s => ∃ info, Landed b.id codec ((w.partitioner.keys xs).zip xs) info s.2)
      fun _ => True := by
  refine Leads.bind (Q := fun b' s => b.Like b' ∧
      b'.Contains codec ((w.partitioner.keys xs).zip xs) s.2.registry.medium)
    (Leads.within fun s hs => Leads.weaken (putAll_leads xs w.partitioner b)
      (fun _ h => h ▸ hs) (fun _ _ h => h) fun _ h => h) fun b' => Leads.given fun hlike => ?_
  exact Leads.weaken (commit_leads hlike.id (hlike.keepsSizes.trans hsizes) reads persistence)
    (fun _ h => h) (fun _ _ h => h.imp fun _ h => h.2) fun _ _ => trivial

theorem spill_leads (w : Writer σ α) (hb : b.Contains codec [] e.registry.medium)
    (hmemory : b.location = none) (hspace : Spacious w.id e) (xs : List α) (reads : UInt32)
    (persistence : Persistence) :
    Leads (fun s => s.2.registry.medium = e.registry.medium) (spill w b xs reads persistence)
      (fun _ s => ∃ info, Landed w.id codec ((w.partitioner.keys xs).zip xs) info s.2)
      fun _ => True := by
  obtain ⟨rfl, es, hes, hholds⟩ := hb
  refine Leads.bind (Q := fun _ s => s.2.registry.medium = e.registry.medium)
    (Leads.within fun s hs => ?_) fun _ => ?_
  · refine Leads.weaken (asked_leads (P := (· = e.registry.medium)) (E := fun _ => True)
      (Q := fun _ m => m = e.registry.medium) (.spill b.store) (Leads.of_yields ?_))
      (fun _ h => h ▸ hs) (fun _ _ h => h) fun _ h => h
    rintro _ rfl
    exact Block.spill_yields hholds hmemory
  refine Leads.bind (Q := fun fallback s =>
      (fallback.id = w.id ∧ fallback.keepsSizes = StoreKind.localFile.tracksSizes) ∧
      fallback.Contains e.registry.medium.codec [] s.2.registry.medium)
    (Leads.within fun s hs => Leads.of_yields ?_) fun fallback => Leads.given fun hfallback => ?_
  · rintro e' rfl
    have hspace' : Spacious w.id s.2 := ⟨hs ▸ hspace.free, hs ▸ hspace.formed, hspace.named⟩
    refine (createBlock_yields .localFile fun _ => hspace').weaken ?_
    rintro fallback e'' ⟨hid, -, -, hsizes, hkept, -, hempty⟩
    exact ⟨⟨hid, hsizes⟩, hkept.medium.codec.trans (congrArg _ hs), [], Entry.Lists.nil, hempty⟩
  obtain ⟨hid, hsizes⟩ := hfallback
  refine Leads.bind (Q := fun fallback' s => fallback.Like fallback' ∧ fallback'.Contains
      e.registry.medium.codec ((w.partitioner.keys xs).zip xs) s.2.registry.medium)
    (Leads.within fun s hs => Leads.weaken (putAll_leads xs w.partitioner fallback)
      (fun _ h => h ▸ hs) (fun _ _ h => h) fun _ h => h) fun fallback' =>
    Leads.given fun hlike => ?_
  refine Leads.bind (Leads.weaken (commit_leads (hlike.id.trans hid)
    (hlike.keepsSizes.trans hsizes) reads persistence) (fun _ h => h) (fun _ _ h => h)
    fun _ _ => trivial) fun _ => ?_
  refine Leads.bind (Q := fun _ s => ∃ info, Landed w.id e.registry.medium.codec
      ((w.partitioner.keys xs).zip xs) info s.2)
    (Leads.within fun s hs => ?_) fun _ => Leads.modify fun _ h => h
  obtain ⟨info, -, hs⟩ := hs
  exact Leads.weaken (putSpilled_leads w.id w.store .localFile) (fun _ h => h ▸ hs)
    (fun _ _ h => ⟨info, h⟩) fun _ h => h

-- Or else its body is opened over and over to see what a step answers.
attribute [local irreducible] takeElements

variable [Measured α]

/-- Wherever the buffer goes, all its elements are registered under the keys that the partitioner
gives them. -/
theorem settle_leads (w : Writer σ α) (hid : b.id = w.id) (hmemory : b.location = none)
    (hsizes : b.keepsSizes = w.store.tracksSizes) (hb : b.Contains codec [] e.registry.medium)
    (hspace : Spacious w.id e) (t : Tracker α) (reads : UInt32) (persistence : Persistence) :
    Leads (fun s => s.2.registry.medium = e.registry.medium) (settle w b t reads persistence)
      (fun _ s => ∃ info,
        Landed w.id codec ((w.partitioner.keys t.elements.toList).zip t.elements.toList) info s.2)
      fun _ => True := by
  refine Leads.bind (Q := fun xs s => xs = t.elements.toList ∧
      s.2.registry.medium = e.registry.medium)
    (Leads.within fun s hs => Leads.weaken (takeElements_leads t) (fun _ h => h ▸ hs)
      (fun _ _ h => h) fun _ h => h) fun xs => Leads.given fun hxs => ?_
  subst hxs
  refine Leads.bind (Q := fun _ s => s.2.registry.medium = e.registry.medium)
    (Leads.within fun s hs => by rintro _ rfl; exact hs) fun granted => ?_
  cases granted with
  | true =>
    rw [if_pos rfl]
    refine Leads.bind (Q := fun _ s => s.2.registry.medium = e.registry.medium)
      (Leads.within fun s hs => Leads.modify fun _ h => h ▸ hs) fun _ => Leads.onFault ?_
    rw [← hid]
    exact Leads.weaken (fill_leads w b t.elements.toList reads persistence hsizes)
      (fun s hs => hs ▸ hb) (fun _ _ h => h) fun _ h => h
  | false =>
    rw [if_neg Bool.false_ne_true]
    refine Leads.bind (Q := fun _ s => s.2.registry.medium = e.registry.medium)
      (Leads.within fun s hs => Leads.modify fun _ h => h ▸ hs) fun _ => Leads.always ?_
    exact Leads.weaken (spill_leads w hb hmemory hspace t.elements.toList reads persistence)
      (fun _ h => h) (fun _ s h => h.imp fun _ h => ⟨h.block⟩) fun _ h => h

/-! ## Writes and their answers -/

/-- What the calls answer, one after the other. -/
def answers (s : Writer σ α × Executor α) : List (WriterCall α) → List (Except Fault Unit)
  | [] => []
  | call :: calls => (call.step s).1 :: answers (call.step s).2 calls

/-- The elements whose writes succeed. The partitioner is asked for the keys of all. -/
def accepted (p : Partitioner σ α) (s : Writer σ α × Executor α) (xs : List α) :
    List (PartitionKey × α) :=
  (((p.keys xs).zip xs).zip (answers s (xs.map .write))).filterMap fun (keyed, answer) =>
    if answer.isOk then some keyed else none

theorem accepted_cons (p : Partitioner σ α) (s : Writer σ α × Executor α) (x : α) (xs : List α) :
    accepted p s (x :: xs) = (if (write x s).1.isOk then [((p.next x).1, x)] else []) ++
      accepted (p.next x).2 (write x s).2 xs := by
  simp only [accepted, Partitioner.keys, List.map_cons, answers, List.zip_cons_cons,
    List.filterMap_cons, WriterCall.step]
  split
  · next hnone => simp_all
  · next hsome => simp_all

/-- A writer on a store that is written through. These elements are in its block, and this is what
has become of its partitioner. -/
inductive Placed (start : Writer σ α) (codec : Codec α) (p : Partitioner σ α)
    (keyed : List (PartitionKey × α)) (m : Medium α) : Writer σ α → Prop
  | mk {b : Block α} : b.keepsSizes = start.store.tracksSizes → b.id = start.id →
      b.Contains codec keyed m →
      Placed start codec p keyed m { start with partitioner := p, block := some b }

omit [Measured α] in
theorem Placed.lists {start w : Writer σ α} {p : Partitioner σ α} {m : Medium α}
    (h : Placed start codec p keyed m w) :
    ∃ es, Entry.Lists codec start.store.tracksSizes keyed es := by
  cases h with
  | mk hsizes _ hb =>
    obtain ⟨es, hes, -⟩ := hb.entries
    exact ⟨es, hsizes ▸ hes⟩

variable {task : TaskId} {edge : Edge} {destination : Destination} {p q : Partitioner σ α}
  {store : StoreKind} {pattern : CommunicationPattern} {persistence : Persistence} {w : Writer σ α}

/-- A write takes the element, or its store encodes elements and this one cannot be. The partitioner
has moved on in any case. -/
theorem write_placed
    (hw : Placed (idle task edge destination p store) codec q keyed e.registry.medium w) (x : α) :
    let s := (write x (w, e)).2
    ((write x (w, e)).1 = .ok () ∧ Placed (idle task edge destination p store) codec (q.next x).2
      (keyed ++ [((q.next x).1, x)]) s.2.registry.medium s.1) ∨
    ((write x (w, e)).1.isOk = false ∧ Placed (idle task edge destination p store) codec
      (q.next x).2 keyed s.2.registry.medium s.1 ∧
      store.tracksSizes = true ∧ ¬ codec.Encodes x) := by
  cases hw with
  | @mk b hsizes hid hb =>
    have hput := put_leads b (q.next x).1 x (q.next x).2.dedicated e hb
    have hwrite : write x ({ idle task edge destination p store with
        partitioner := q, block := some b }, e) =
        match put b (q.next x).1 x (q.next x).2.dedicated e with
        | (.ok c, e') => (c.result, { idle task edge destination p store with
            partitioner := (q.next x).2, block := some c.block }, e')
        | (.error fault, e') => (.error fault, { idle task edge destination p store with
            partitioner := (q.next x).2, block := some b }, e') := by
      simp only [write, bind_apply, Step.read, idle, update, Step.modify, onExecutor, within]
      rcases put b (q.next x).1 x (q.next x).2.dedicated e with ⟨_ | _, e'⟩ <;> rfl
    rw [hwrite]
    generalize put b (q.next x).1 x (q.next x).2.dedicated e = answered at hput ⊢
    obtain ⟨fault | c, e'⟩ := answered
    · obtain ⟨hb', hsized, hnot⟩ := hput
      exact .inr ⟨rfl, .mk hsizes hid hb', hsizes.symm.trans hsized, hnot⟩
    · obtain ⟨⟨hok, hlike⟩, hb'⟩ := hput
      exact .inl ⟨hok, .mk (hlike.keepsSizes.trans hsizes) (hlike.id.trans hid) hb'⟩

/-- After any writes the block has the elements whose writes succeeded. -/
theorem run_placed
    (hw : Placed (idle task edge destination p store) codec q keyed e.registry.medium w)
    (xs : List α) :
    let s := run (w, e) (xs.map .write)
    Placed (idle task edge destination p store) codec (q.after xs)
      (keyed ++ accepted q (w, e) xs) s.2.registry.medium s.1 := by
  induction xs generalizing q keyed w e with
  | nil => simpa [accepted, Partitioner.keys, Partitioner.after, run] using hw
  | cons x xs ih =>
    rw [accepted_cons]
    rcases write_placed hw x with ⟨hok, hw'⟩ | ⟨hfails, hw', -⟩
    · rw [hok, ← List.append_assoc]
      exact ih hw'
    · rw [hfails]
      exact ih hw'

/-- Where all elements can be encoded, all writes succeed. -/
theorem accepted_all
    (hw : Placed (idle task edge destination p store) codec q keyed e.registry.medium w)
    {xs : List α} (hxs : store.tracksSizes = true → ∀ x ∈ xs, codec.Encodes x) :
    accepted q (w, e) xs = (q.keys xs).zip xs := by
  induction xs generalizing q keyed w e with
  | nil => rfl
  | cons x xs ih =>
    have hrest : store.tracksSizes = true → ∀ y ∈ xs, codec.Encodes y :=
      fun hsized y hy => hxs hsized y (List.mem_cons_of_mem _ hy)
    rw [accepted_cons]
    rcases write_placed hw x with ⟨hok, hw'⟩ | ⟨-, -, hsized, hnot⟩
    · rw [hok, ih hw' hrest]
      rfl
    · exact absurd (hxs hsized x List.mem_cons_self) hnot

theorem close_placed
    (hw : Placed (idle task edge destination p store) codec q keyed e.registry.medium w)
    (hedge : edge.Complete destination store pattern persistence) :
    close.Yields (w, e) fun _ s => ∃ info, info.store = store ∧
      Landed (.of edge.id task) codec keyed info s.2 := by
  obtain ⟨reads, hreads, -⟩ := hedge.expectedReads
  cases hw with
  | @mk b hsizes hid hb =>
    rw [Yields, close_eq rfl rfl hedge.hasPersistence hreads]
    exact (commit_leads hid hsizes reads persistence).yields hb

/-! ## The buffer -/

/-- After any writes the buffer has all elements. -/
theorem run_buffers {xs : List α} (hw : Buffers (idle task edge destination p store) xs w)
    (more : List α) :
    let s := run (w, e) (more.map .write)
    Buffers (idle task edge destination p store) (xs ++ more) s.1 ∧ Kept e s.2 := by
  induction more generalizing xs w e with
  | nil => exact ⟨by rwa [List.append_nil], Kept.refl e⟩
  | cons x more ih =>
    obtain ⟨hw', hkept⟩ := write_buffers hw x e
    obtain ⟨hbuffers, hkept'⟩ := ih (e := (write x (w, e)).2.2) hw'
    rw [List.append_assoc] at hbuffers
    exact ⟨hbuffers, hkept.trans hkept'⟩

theorem close_buffered {xs : List α} (hw : Buffers (idle task edge destination p store) xs w)
    (hedge : edge.Complete destination store pattern persistence)
    (hspace : Spacious (.of edge.id task) e) :
    Leads (· = (w, e)) close (fun _ s => ∃ info,
      Landed (.of edge.id task) e.registry.medium.codec ((p.keys xs).zip xs) info s.2)
      fun _ => True := by
  obtain ⟨reads, hreads, -⟩ := hedge.expectedReads
  cases hw with
  | @mk b t hb ht =>
    subst ht
    rintro _ rfl
    rw [close_eq rfl rfl hedge.hasPersistence hreads]
    exact settle_leads (e := e)
      { idle task edge destination p store with block := some b, tracker := some t } hb.id
      hb.memory hb.sizes ⟨rfl, [], Entry.Lists.nil, hb.holds _⟩ hspace t reads persistence _ rfl

end Writer

/-! ## Partitioners -/

/-- An element gets the same key whatever was asked before. -/
def Partitioner.Forgetful (p : Partitioner σ α) : Prop :=
  ∀ (earlier earlier' : σ) (x : α), (p.step earlier x).1 = (p.step earlier' x).1

theorem Partitioner.forgetful_intact : (intact (α := α)).Forgetful := fun _ _ _ => rfl

theorem Partitioner.forgetful_hashed [Hashed α] (partitions : UInt32) :
    (hashed (α := α) partitions).Forgetful := fun _ _ _ => rfl

theorem Partitioner.Forgetful.keys {p : Partitioner σ α} (h : p.Forgetful) (xs : List α) :
    p.keys xs = xs.map fun x => (p.step p.state x).1 := by
  induction xs generalizing p with
  | nil => rfl
  | cons x xs ih =>
    have hnext : (p.next x).2.Forgetful := h
    rw [Partitioner.keys, ih hnext]
    exact congrArg _ (List.map_congr_left fun y _ => h _ _ y)

namespace Writer

open Executor

variable [Measured α] {e : Executor α} {task : TaskId} {edge : Edge} {destination : Destination}
  {p : Partitioner σ α} {store : StoreKind} {pattern : CommunicationPattern}
  {persistence : Persistence} {w : Writer σ α}

/-- Such a partitioner gives the elements whose writes succeed the keys that they would have without
the others. -/
theorem keys_accepted (hp : p.Forgetful) (s : Writer σ α × Executor α) (xs : List α) :
    p.keys ((accepted p s xs).map (·.2)) = (accepted p s xs).map (·.1) := by
  rw [hp.keys, List.map_map]
  refine List.map_congr_left fun keyed hkeyed => ?_
  obtain ⟨⟨keyed', answer⟩, hmem, hsome⟩ := List.mem_filterMap.mp hkeyed
  have hpairs : (p.keys xs).zip xs = xs.map fun x => ((p.step p.state x).1, x) := by
    rw [hp.keys]
    simpa using List.zip_map' (f := fun x => (p.step p.state x).1) (g := fun x => x) (l := xs)
  have hzip := (List.of_mem_zip hmem).1
  rw [hpairs] at hzip
  obtain ⟨x, -, rfl⟩ := List.mem_map.mp hzip
  dsimp only at hsome
  split at hsome
  · rw [← Option.some.inj hsome]
    rfl
  · cases hsome

theorem make_placed (hedge : edge.Complete destination store pattern persistence)
    (hstore : store.spillsToDisk = false) (hspace : Spacious (.of edge.id task) e)
    (hmade : (make task edge destination p e).1 = .ok w) :
    Placed (idle task edge destination p store) e.registry.medium.codec p []
      (make task edge destination p e).2.registry.medium w := by
  obtain ⟨w', e', hmake, hputs, hkept⟩ := make_puts (p := p) hedge hstore hspace
  rw [hmake] at hmade ⊢
  cases hmade
  cases hputs with
  | @mk b es hid _ hsizes hholds hmakes =>
    obtain rfl : es = [] := List.map_eq_nil_iff.mp hmakes.values
    exact .mk hsizes hid ⟨hkept.medium.codec, [], Entry.Lists.nil, hholds⟩

/-- A close that succeeds registers the elements that were accepted, or all that were buffered. -/
theorem close_lands (hedge : edge.Complete destination store pattern persistence)
    (hspace : Spacious (.of edge.id task) e)
    (hmade : (make task edge destination p e).1 = .ok w) (xs : List α)
    (hclosed : (close (run (w, (make task edge destination p e).2) (xs.map .write))).1 = .ok ()) :
    let s := (w, (make task edge destination p e).2)
    ∃ info, (store.spillsToDisk = false → info.store = store) ∧
      Landed (.of edge.id task) e.registry.medium.codec
        (if store.spillsToDisk then (p.keys xs).zip xs else accepted p s xs) info
        (close (run s (xs.map .write))).2.2 := by
  intro s
  cases hstore : store.spillsToDisk with
  | false =>
    have hplaced := run_placed (make_placed hedge hstore hspace hmade) xs
    obtain ⟨_, s', hclose, info, hinfo, hlanded⟩ := close_placed hplaced hedge
    refine ⟨info, fun _ => hinfo, ?_⟩
    rw [show close (run s (xs.map .write)) = _ from hclose]
    exact hlanded
  | true =>
    have hmake := make_buffers task p hedge hstore e rfl
    rw [← Prod.mk.eta (p := make task edge destination p e), hmade] at hmake
    obtain ⟨hbuffers, hkept⟩ := run_buffers (e := (make task edge destination p e).2) hmake.1 xs
    have hkept := hmake.2.trans hkept
    have hclose := (close_buffered hbuffers hedge (hspace.later hkept)).succeeds rfl hclosed
    rw [hkept.medium.codec] at hclose
    obtain ⟨info, hlanded⟩ := hclose
    exact ⟨info, nofun, hlanded⟩

/-- A writer is opened, any elements are written to it, whatever the writes answer, and it is closed
with success. On a store that is written through its block has the elements whose writes succeeded,
each under the key that the partitioner answers when it is asked about all elements in turn; on a
store with a buffer it has all elements. What is read of them is what the codec makes of their
bytes, where they were encoded, so these elements if it round-trips.

Without the failed writes, and with a codec that encodes each element always in the same way, a
writer on a store that is written through closes with success as well and the same is read, if the
partitioner gives the elements that are left the same keys, as one does that forgets what it was
asked. -/
theorem run_reads_accepted (hedge : edge.Complete destination store pattern persistence)
    (hspace : Spacious (.of edge.id task) e)
    (hmade : (make task edge destination p e).1 = .ok w) (xs : List α)
    (hclosed : (close (run (w, (make task edge destination p e).2) (xs.map .write))).1 = .ok ()) :
    let s := (w, (make task edge destination p e).2)
    let codec := e.registry.medium.codec
    let kept := if store.spillsToDisk then (p.keys xs).zip xs else accepted p s xs
    let r := (close (run s (xs.map .write))).2.2.registry
    (∃ info es, r.info? (.of edge.id task) = some info ∧
      Entry.Lists codec info.store.tracksSizes kept es ∧
      ∀ key, r.readPartition (.of edge.id task) key =
        (Entry.under key es).mapM (Entry.restored codec info.store.tracksSizes)) ∧
    (codec.RoundTrips → ∀ key, r.readPartition (.of edge.id task) key =
      .ok ((kept.filter (·.1 = key)).map (·.2))) ∧
    (store.spillsToDisk = false → p.Forgetful → p.keys (kept.map (·.2)) = kept.map (·.1)) ∧
    (store.spillsToDisk = false → codec.Steady → p.keys (kept.map (·.2)) = kept.map (·.1) →
      let alone := close (run s ((kept.map (·.2)).map .write))
      alone.1 = .ok () ∧ ∀ key, alone.2.2.registry.readPartition (.of edge.id task) key =
        r.readPartition (.of edge.id task) key) := by
  intro s codec kept r
  obtain ⟨info, hinfo, hlanded⟩ := close_lands hedge hspace hmade xs hclosed
  obtain ⟨es, hes, hread⟩ := hlanded.readPartition
  obtain ⟨b, hentry, -⟩ := hlanded.block
  have hkept (hstore : store.spillsToDisk = false) : kept = accepted p s xs := by
    simp only [kept, hstore, Bool.false_eq_true, if_false]
  refine ⟨⟨info, es, ?_, hes, hread⟩, fun hcodec key => ?_, fun hstore hp => ?_,
    fun hstore hsteady hkeys => ?_⟩
  · rw [Registry.info?, hentry]
    rfl
  · rw [← hes.restored hcodec key]
    exact hread key
  · rw [hkept hstore]
    exact keys_accepted hp s xs
  · have hstart := make_placed hedge hstore hspace hmade
    have hxs : store.tracksSizes = true → ∀ x ∈ kept.map (·.2), codec.Encodes x := by
      intro hsized x hx
      rw [hkept hstore] at hx
      obtain ⟨es', hes'⟩ := (run_placed hstart xs).lists
      exact hes'.encodes hsized hsteady hx
    -- alone, no write fails, so all of the elements are accepted once more
    have hplaced := run_placed hstart (kept.map (·.2))
    rw [accepted_all hstart hxs, hkeys, ← List.zip_of_prod rfl rfl] at hplaced
    obtain ⟨_, s', hclose, info', hinfo', hlanded'⟩ := close_placed hplaced hedge
    obtain ⟨es', hes', hread'⟩ := hlanded'.readPartition
    intro alone
    rw [show alone = _ from hclose]
    refine ⟨rfl, fun key => ?_⟩
    have hsame : info'.store = info.store := hinfo'.trans (hinfo hstore).symm
    show s'.2.registry.readPartition (.of edge.id task) key = _
    rw [hread' key, hread key, hes'.restored_steady hsteady, hes.restored_steady hsteady, hsame]
    rfl

/-- A file, and a codec that cannot encode one of the elements. -/
theorem run_reads_accepted_refusing :
    let codec : Codec Bool := { Codec.json with
      encode := fun earlier x => if x then Codec.json.encode earlier x else .error .codec }
    let edge : Edge := {
      id := ⟨"e"⟩
      store := some .localFile
      pattern := some .oneToOne
      persistence := some .keep }
    let e : Executor Bool := {
      registry := { medium := { codec } }
      pool := .ofCapacity 100
      estimator := .ofOptions {} }
    let made := make ⟨"t"⟩ edge ⟨⟨"v"⟩, none⟩ Partitioner.intact e
    ∃ w, made.1 = .ok w ∧ (
      let closed := close (run (w, made.2) ([true, false, true].map .write))
      let alone := close (run (w, made.2) ([true, true].map .write))
      closed.1 = .ok () ∧ alone.1 = .ok () ∧
        closed.2.2.registry.readPartition ⟨"e-t"⟩ 0 = .ok [true, true] ∧
        alone.2.2.registry.readPartition ⟨"e-t"⟩ 0 = .ok [true, true]) := by
  intro codec edge e made
  have hrun : (made.1.toOption.map fun w =>
      ((close (run (w, made.2) ([true, false, true].map .write))).1,
        accepted .intact (w, made.2) [true, false, true])) =
      some (.ok (), [(0, true), (0, true)]) := by decide +kernel
  obtain ⟨w, hw, hwrote⟩ := Option.map_eq_some_iff.mp hrun
  obtain ⟨hclosed, haccepted⟩ := Prod.mk.inj hwrote
  have hmade : made.1 = .ok w := by
    generalize made.1 = result at hw
    cases result with
    | ok _ => exact congrArg Except.ok (Option.some.inj hw)
    | error _ => cases hw
  have hedge : edge.Complete ⟨⟨"v"⟩, none⟩ .localFile .oneToOne .keep :=
    ⟨rfl, rfl, rfl, rfl, by decide⟩
  have hspace : Spacious (.of edge.id ⟨"t"⟩) e := ⟨rfl, .of_unnamed rfl, by decide⟩
  have hsteady : codec.Steady := fun _ _ _ => rfl
  have hcodec : codec.RoundTrips := by
    intro earlier x payload hencode
    cases x with
    | false => cases hencode
    | true =>
      cases hencode
      exact ⟨by decide, by decide +kernel⟩
  obtain ⟨-, hread, hkeys, halone⟩ :=
    run_reads_accepted hedge hspace hmade [true, false, true] hclosed
  have hid : BlockId.of edge.id ⟨"t"⟩ = ⟨"e-t"⟩ := rfl
  simp only [StoreKind.spillsToDisk, Bool.false_eq_true, if_false, hid] at hread hkeys halone
  have hsame := halone trivial hsteady (hkeys trivial Partitioner.forgetful_intact)
  rw [haccepted] at hread hsame
  exact ⟨w, hmade, hclosed, hsame.1, hread hcodec 0, (hsame.2 0).trans (hread hcodec 0)⟩

end Writer

namespace Session

/-- A failed write moves the keys of later elements, and into a buffer it puts its element. -/
theorem failed_writes_leave :
    let edge (store : StoreKind) : Edge := {
      id := ⟨"e"⟩
      store := some store
      pattern := some .oneToOne
      persistence := some .keep }
    let codec : Codec Bool := { Codec.json with
      encode := fun earlier x => if x then Codec.json.encode earlier x else .error .codec }
    let written (xs : List Bool) := Session.run
      { executor := {
          registry := { medium := { codec } }
          pool := .ofCapacity 100
          estimator := .ofOptions {} } }
      (.openWriter "w" ⟨"t"⟩ (edge .localFile) ⟨⟨"v"⟩, none⟩ Partitioner.dedicatedKeys ::
        xs.map (.write "w"))
    let buffered (xs : List Flaky) := Session.run
      { executor := {
          registry := { medium := { codec := .json } }
          pool := .ofCapacity 1000
          estimator := .ofOptions {} } }
      (.openWriter "w" ⟨"t"⟩ (edge .memoryFile) ⟨⟨"v"⟩, none⟩ (.intact (α := Flaky)) ::
        xs.map (.write "w"))
    let read {α : Type} [Measured α] (s : Session UInt32 α) (key : PartitionKey) :=
      ((perform (.close "w") s).1,
        (perform (.close "w") s).2.executor.registry.readPartition ⟨"e-t"⟩ key)
    (perform (.write "w" false) (written [true])).1 = .error .codec ∧
    read (written [true, false, true]) 1 = (.ok (), .ok []) ∧
    read (written [true, true]) 1 = (.ok (), .ok [true]) ∧
    (perform (.write "w" ⟨1, some "!"⟩) (buffered [])).1.isOk = false ∧
    read (buffered [⟨1, some "!"⟩]) 0 = (.ok (), .ok [⟨1, some "!"⟩]) ∧
    read (buffered []) 0 = (.ok (), .ok []) := by
  decide +kernel

end Session

end ShuffleBuffer
