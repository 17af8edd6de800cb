import ShuffleBuffer.Proofs.Others
import ShuffleBuffer.Proofs.Sessions
import ShuffleBuffer.Proofs.Writing

/-! # A writer among others

A writer carries its elements through any calls of others as long as those leave the file of its
block alone; a block in memory has none. What it does itself may touch this file, but nothing that
the others hold. -/

namespace ShuffleBuffer

open Estimate Step Executor

variable {σ α : Type} {id : BlockId} {n r n' r' : ℕ∞}

namespace Executor

variable {e e' : Executor α}

theorem filings_le (h : e.requests <:+ e'.requests) (id : BlockId) :
    e.filings id ≤ e'.filings id := h.sublist.countP_le

theorem registrations_le (h : e.requests <:+ e'.requests) (id : BlockId) :
    e.registrations id ≤ e'.registrations id := h.sublist.countP_le

/-- Nothing is said of the file and the registration. -/
theorem Watched.of_used (hmedium : Medium.Kept e.registry.medium e'.registry.medium)
    (hkeyed : e.registry.Keyed → e'.registry.Keyed) (hable : Able e e')
    (hrequests : e.requests <:+ e'.requests) : Watched id 0 0 e e' :=
  ⟨hmedium, hkeyed, ⟨filings_le hrequests id, registrations_le hrequests id,
    fun hlive => absurd hlive not_lt_zero, fun hlive => absurd hlive not_lt_zero⟩, hable⟩

theorem Kept.watched (h : Kept e e') (hrequests : e.requests <:+ e'.requests) :
    Watched id 0 0 e e' :=
  .of_used h.medium (fun hkeyed entry hentry => hkeyed entry (h.blocks ▸ hentry)) h.able hrequests

end Executor

/-- The elements that the writer of this name is given by some calls. -/
def Call.given (name : String) : List (Call σ α) → List α
  | [] => []
  | .write other x :: calls =>
      if other = name then x :: Call.given name calls else Call.given name calls
  | _ :: calls => Call.given name calls

namespace Session

open Writer

variable {name other : String} {start : Writer σ α} {codec : Codec α} {xs : List α}
  {s s' : Session σ α} {es : List (Entry α)} {info : BlockInfo} {ids : BlockId → Prop}

/-! ## The writer of a name -/

/-- The writer of this name is open and carries these elements. -/
structure Bears (name : String) (start : Writer σ α) (codec : Codec α) (xs : List α)
    (s : Session σ α) : Prop where
  spacious : Spacious start.id s.executor
  usable : s.executor.estimator.Usable
  codec : s.executor.registry.medium.codec = codec
  writer : ∃ w, s.writer? name = some w ∧ Carries start xs s.executor w

/-- Nobody can touch a block in memory, and nobody has touched a file while fewer than `n` files
were asked for under its name. -/
def Spared (n : ℕ∞) (start : Writer σ α) (s : Session σ α) : Prop :=
  start.store.isMemoryTier = true ∨ s.executor.filings start.id < n

theorem Bears.watched (h : Bears name start codec xs s)
    (hrel : Watched start.id n r s.executor s'.executor) (hspared : Spared n start s')
    (hwriter : s'.writer? name = s.writer? name) : Bears name start codec xs s' := by
  obtain ⟨⟨hfree, hformed, hnamed⟩, husable, hcodec, w, hw, hcarries⟩ := h
  have hdir := hrel.medium.dir
  refine ⟨⟨hdir.refusals.trans hfree, hdir.formed hformed, hnamed⟩, hrel.able.usable husable,
    hrel.medium.codec.trans hcodec, w, hwriter.trans hw, ?_⟩
  cases hcarries with
  | buffered hstore hbuffers => exact .buffered hstore hbuffers
  | through hstore hputs =>
    refine .through hstore ?_
    cases hputs with
    | mk hid hlocation hsizes hholds hmakes =>
      rw [← hrel.medium.codec] at hmakes
      refine .mk hid hlocation hsizes (hholds.apart fun file hfile => ?_) hmakes
      rw [hlocation] at hfile
      split at hfile
      · cases hfile
      · next hdisk =>
        cases hfile
        exact hrel.spares.file (hspared.resolve_left hdisk)

/-- What the writer of a name and a block does; its own file and registration may have changed. -/
structure Mine (name : String) (id : BlockId) (s s' : Session σ α) : Prop where
  executor : Watched id 0 0 s.executor s'.executor
  others : ∀ {other}, other ≠ name → s'.writer? other = s.writer? other

/-- The others hold their blocks as before. -/
theorem Holders.mine
    (h : Holders (· ≠ name) ids (Sited ids id n r) (Executor.Stranger ids id n r) s)
    (hmine : Mine name id s s') :
    Holders (· ≠ name) ids (Sited ids id n r) (Executor.Stranger ids id n r) s' := by
  refine ⟨h.suited.later hmine.executor, fun hne hw => ?_⟩
  obtain ⟨hid, hholding⟩ := h.writers hne (hmine.others hne ▸ hw)
  exact ⟨hid, fun b hb => ⟨(hholding b hb).1, (hholding b hb).2.later hmine.executor⟩⟩

/-- A registered block and what can be read from it. -/
structure Recorded (id : BlockId) (codec : Codec α) (es : List (Entry α)) (info : BlockInfo)
    (s : Session σ α) : Prop where
  codec : s.executor.registry.medium.codec = codec
  block : ∃ block : Block α, (block.id = id ∧ block.location = info.location) ∧
    s.executor.registry.entry? id = some ⟨block, info⟩ ∧
    block.Stores s.executor.registry.medium.dir es

theorem Recorded.watched (h : Recorded id codec es info s)
    (hformed : s.executor.registry.medium.dir.WellFormed)
    (hrel : Watched id n r s.executor s'.executor)
    (hspared : info.location = none ∨
      info.location = some (Block.fileName id) ∧ s'.executor.filings id < n)
    (hentry : s'.executor.registrations id < r) : Recorded id codec es info s' := by
  obtain ⟨hcodec, block, hblock, hregistered, hstores⟩ := h
  refine ⟨hrel.medium.codec.trans hcodec, block, hblock,
    (hrel.spares.entry hentry).trans hregistered, hstores.apart hformed fun file hfile => ?_⟩
  rw [hblock.2] at hfile
  obtain hmemory | ⟨hlocation, hlive⟩ := hspared
  · cases hmemory.symm.trans hfile
  · cases hlocation.symm.trans hfile
    exact hrel.spares.file hlive

theorem Recorded.readPartition (h : Recorded id codec es info s)
    (hes : ∀ entry ∈ es, codec.Restores entry) (key : PartitionKey) :
    s.executor.registry.readPartition id key = .ok ((Entry.under key es).map Entry.value) := by
  obtain ⟨hcodec, block, -, hentry, hstores⟩ := h
  rw [← hcodec] at hes
  rw [Registry.readPartition, Registry.entry, hentry]
  exact Block.readPartition_eq hstores (fun _ => hes) key

/-! ## Its calls -/

variable [Measured α] {task : TaskId} {edge : Edge} {destination : Destination}
  {p : Partitioner σ α} {store : StoreKind} {pattern : CommunicationPattern}
  {persistence : Persistence}

theorem perform_openWriter {w : Writer σ α} {e : Executor α}
    (hmake : make task edge destination p s.executor = (.ok w, e)) :
    perform (.openWriter name task edge destination p) s =
      (.ok (), ({ s with executor := e }.dropWriter name).putWriter name w) := by
  simp only [perform, openWriter, bind_apply, Session.onExecutor, within, hmake, Step.modify]

/-- A new writer carries nothing yet. Letting an older one of its name go must leave its file
alone. -/
theorem open_bears (hedge : edge.Complete destination store pattern persistence)
    (hspace : Spacious (.of edge.id task) s.executor)
    (htracker : s.executor.tracker.validate = .ok ())
    (hestimator : s.executor.estimator.Usable)
    (hdrop : ∀ {w e}, make task edge destination p s.executor = (.ok w, e) → Kept s.executor e →
      Watched (.of edge.id task) n r e ({ s with executor := e }.dropWriter name).executor ∧
      Spared n (idle task edge destination p store) ({ s with executor := e }.dropWriter name)) :
    Bears name (idle task edge destination p store) s.executor.registry.medium.codec []
        (perform (.openWriter name task edge destination p) s).2 ∧
      Mine name (.of edge.id task) s (perform (.openWriter name task edge destination p) s).2 := by
  have hrequests := (run_traced s [.openWriter name task edge destination p]).executor
  rw [run_cons, run_nil] at hrequests
  obtain ⟨w, e, hmake, hcarries, hkept⟩ :=
    make_carries (p := p) hedge hspace htracker hestimator
  have hmade : Bears name (idle task edge destination p store) s.executor.registry.medium.codec []
      ({ s with executor := e }.putWriter name w) :=
    ⟨hspace.later hkept, hkept.able.usable hestimator, hkept.medium.codec, w,
      writer_putWriter _ _ _, hcarries⟩
  obtain ⟨hrel, hspared⟩ := hdrop hmake hkept
  rw [perform_openWriter hmake] at hrequests ⊢
  refine ⟨hmade.watched hrel hspared ?_, ?_, fun hne => ?_⟩
  · rw [writer_putWriter, writer_putWriter]
  · refine Watched.of_used (hkept.medium.trans hrel.medium) (fun hkeyed => hrel.keyed ?_)
      (hkept.able.trans hrel.able) hrequests
    exact fun entry hentry => hkeyed entry (hkept.blocks ▸ hentry)
  · exact (writer_putWriter_ne _ _ hne).trans (writer_dropWriter_ne _ hne)

theorem write_bears (h : Bears name (idle task edge destination p store) codec xs s) {x : α}
    (hx : codec.Encodes x) :
    Bears name (idle task edge destination p store) codec (xs ++ [x])
        (perform (.write name x) s).2 ∧
      Mine name (.of edge.id task) s (perform (.write name x) s).2 := by
  have hrequests := (run_traced s [.write name x]).executor
  rw [run_cons, run_nil] at hrequests
  obtain ⟨hspace, husable, hcodec, w, hw, hcarries⟩ := h
  rw [← hcodec] at hx
  obtain ⟨hcarries', hkept⟩ := write_carries hcarries hx
  simp only [perform, callWriter, hw, Option.getD_some] at hrequests ⊢
  exact ⟨⟨hspace.later hkept, hkept.able.usable husable, hkept.medium.codec.trans hcodec, _,
    writer_putWriter _ _ _, hcarries'⟩, hkept.watched hrequests,
    fun hne => writer_putWriter_ne _ _ hne⟩

theorem close_bears (h : Bears name (idle task edge destination p store) codec xs s)
    (hedge : edge.Complete destination store pattern persistence)
    (hxs : ∀ x ∈ xs, codec.Encodes x) :
    (perform (.close name) s).1 = .ok () ∧
    Mine name (.of edge.id task) s (perform (.close name) s).2 ∧
    ∃ w es info, (perform (.close name) s).2.writer? name = some w ∧ Makes p xs codec es ∧
      Closes (.of edge.id task) store es info s.executor
        (w, (perform (.close name) s).2.executor) ∧
      Recorded (.of edge.id task) codec es info (perform (.close name) s).2 := by
  have hrequests := (run_traced s [.close name]).executor
  rw [run_cons, run_nil] at hrequests
  obtain ⟨hspace, husable, hcodec, w, hw, hcarries⟩ := h
  rw [← hcodec] at hxs
  obtain ⟨_, s', hclose, es, info, hmakes, hcloses⟩ :=
    close_carries hcarries hedge hspace husable hxs
  obtain ⟨_, hmedium, hable, -, block, hblock, hstores, hblocks⟩ := hcloses.registers
  simp only [perform, callWriter, hw, Option.getD_some, hclose] at hrequests ⊢
  refine ⟨trivial, ⟨Watched.of_used hmedium (fun hkeyed entry hentry => ?_) hable hrequests,
    fun hne => writer_putWriter_ne _ _ hne⟩, _, es, info, writer_putWriter _ _ _, hcodec ▸ hmakes,
    hcloses, hmedium.codec.trans hcodec, block, hblock, ?_, hstores⟩
  · have hmem : entry ∈ s'.2.registry.blocks := hentry
    rw [hblocks] at hmem
    obtain rfl | hold := List.mem_cons.mp hmem
    · exact hblock.1
    · exact hkeyed entry (List.mem_filter.mp hold).1
  · show List.lookup _ s'.2.registry.blocks = _
    rw [hblocks]
    exact List.lookup_cons_self

/-! ## Among the calls of others -/

/-- The writer of this name carries these elements, and the others do not share its file. -/
structure Among (ids : BlockId → Prop) (n r : ℕ∞) (name : String) (start : Writer σ α)
    (codec : Codec α) (xs : List α) (s : Session σ α) : Prop where
  others : Holders (· ≠ name) ids (Sited ids start.id n r) (Executor.Stranger ids start.id n r) s
  bears : Bears name start codec xs s

/-- While the writer is open, its calls and those of others follow one another in any order. -/
theorem run_among {calls : List (Call σ α)}
    (h : Among ids n r name (idle task edge destination p store) codec xs s)
    (hcalls : ∀ call ∈ calls, call.Within (· ≠ name) ids (Sited ids (.of edge.id task) n r)
      (watched (.of edge.id task) n r) ∨ ∃ x, call = .write name x)
    (hspared : Spared n (idle task edge destination p store) (s.run calls))
    (hgiven : ∀ x ∈ Call.given name calls, codec.Encodes x) :
    Among ids n r name (idle task edge destination p store) codec (xs ++ Call.given name calls)
      (s.run calls) := by
  induction calls generalizing xs s with
  | nil =>
    rw [Call.given, List.append_nil]
    exact h
  | cons call calls ih =>
    have hrest : ∀ call ∈ calls, call.Within (· ≠ name) ids (Sited ids (.of edge.id task) n r)
        (watched (.of edge.id task) n r) ∨ ∃ x, call = .write name x :=
      fun call hmem => hcalls call (List.mem_cons_of_mem _ hmem)
    rw [run_cons] at hspared ⊢
    obtain hothers | ⟨x, rfl⟩ := hcalls call List.mem_cons_self
    · have hfollows := perform_follows (neutral_watched ids (.of edge.id task) n r)
        (fun _ _ => Watched.of_same rfl rfl ⟨rfl, fun h => h⟩) h.others hothers
      have hbears : Bears name (idle task edge destination p store) codec xs
          (perform call s).2 := by
        refine h.bears.watched hfollows.executor (hspared.imp_right fun hlive => ?_)
          (hfollows.others fun hne => hne rfl)
        have hle := filings_le (run_traced (perform call s).2 calls).executor (.of edge.id task)
        exact lt_of_le_of_lt (Nat.cast_le.mpr hle) hlive
      have hsame : Call.given name (call :: calls) = Call.given name calls := by
        cases call with
        | write other x => exact if_neg hothers
        | openWriter | close | drop | removeBlock | disturb => rfl
      rw [hsame] at hgiven ⊢
      exact ih ⟨hfollows.holders, hbears⟩ hrest hspared hgiven
    · have hsplit : Call.given name (.write name x :: calls) = x :: Call.given name calls :=
        if_pos rfl
      rw [hsplit] at hgiven ⊢
      obtain ⟨hbears, hmine⟩ := write_bears h.bears (hgiven x List.mem_cons_self)
      rw [List.append_cons]
      exact ih ⟨h.others.mine hmine, hbears⟩ hrest hspared
        fun y hy => hgiven y (List.mem_cons_of_mem _ hy)

end Session

end ShuffleBuffer
