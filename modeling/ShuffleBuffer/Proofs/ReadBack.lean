import Mathlib
import ShuffleBuffer.Element
import ShuffleBuffer.Proofs.Carriers
import ShuffleBuffer.Proofs.Foreign

/-! # Reading back

What was written under a key is read back from the registered block, in the order of the writes,
whatever the store is, whatever the pool has left and whatever others do in between: on the way
through, in memory after an admission and in a file after a spill. -/

namespace ShuffleBuffer

open Estimate Step

variable {σ α : Type} {id : BlockId}

/-! ## What was written -/

/-- Each of these elements is always encoded to the same bytes, which fit a frame and are decoded
to it. -/
def Codec.Faithful (codec : Codec α) (encoding : α → Bytes) (xs : List α) : Prop :=
  ∀ x ∈ xs, (∀ earlier, codec.encode earlier x = .ok (encoding x)) ∧
    (encoding x).length < UInt32.size ∧ codec.decode (encoding x) = .ok x

/-- The elements under a key, in their order. The partitioner is asked once for each element. -/
def Partitioner.part (p : Partitioner σ α) (key : PartitionKey) (xs : List α) : List α :=
  (((p.keys xs).zip xs).filter (·.1 = key)).map (·.2)

namespace Writer

variable {p : Partitioner σ α} {xs : List α} {codec : Codec α} {es : List (Entry α)}
  {encoding : α → Bytes}

theorem Makes.part (h : Makes p xs codec es) (key : PartitionKey) :
    (Entry.under key es).map Entry.value = p.part key xs := by
  have hzip : (p.keys xs).zip xs = es.map fun entry => (entry.key, entry.value) := by
    rw [← h.keys, ← h.values, List.zip_map']
  rw [Partitioner.part, hzip, List.filter_map, List.map_map, Entry.under]
  rfl

theorem Makes.payload (h : Makes p xs codec es) (hcodec : codec.Faithful encoding xs)
    {entry : Entry α} (hentry : entry ∈ es) :
    entry.value ∈ xs ∧ entry.payload = encoding entry.value := by
  have hmem : entry.value ∈ xs := by
    rw [← h.values]
    exact List.mem_map_of_mem hentry
  obtain ⟨-, earlier, hencode⟩ := h.made entry hentry
  rw [(hcodec _ hmem).1 earlier] at hencode
  exact ⟨hmem, (Except.ok.inj hencode).symm⟩

theorem Makes.restores (h : Makes p xs codec es) (hcodec : codec.Faithful encoding xs) :
    ∀ entry ∈ es, codec.Restores entry := by
  intro entry hentry
  obtain ⟨hmem, hpayload⟩ := h.payload hcodec hentry
  refine ⟨(h.made entry hentry).1, ?_⟩
  rw [hpayload]
  exact (hcodec _ hmem).2.2

/-- Each element takes a header and its encoding. -/
theorem Makes.stored (h : Makes p xs codec es) (hcodec : codec.Faithful encoding xs) :
    Entry.stored es = (xs.map fun x => Frame.headerLength + (encoding x).length).sum := by
  have hlengths : es.map (fun entry => entry.frame.bytes.length) =
      es.map fun entry => Frame.headerLength + (encoding entry.value).length := by
    refine List.map_congr_left fun entry hentry => ?_
    rw [Frame.length_bytes, ← (h.payload hcodec hentry).2]
    rfl
  rw [Entry.stored, Entry.run, List.length_flatten, List.map_map, ← h.values, List.map_map]
  exact congrArg List.sum hlengths

end Writer

/-! ## The calls of the writer -/

namespace Session

open Executor Writer

variable {name : String} {codec : Codec α} {xs : List α} {s s' : Session σ α}
  {es : List (Entry α)} {info : BlockInfo} {bytes : Option UInt64}

/-- The writer of this name is closed, its entries are registered, and all others are on other
blocks. -/
structure Registered (name : String) (id : BlockId) (codec : Codec α) (es : List (Entry α))
    (info : BlockInfo) (bytes : Option UInt64) (s : Session σ α) : Prop
    extends Recorded id codec es info s where
  strangers : Strangers name id s
  file : info.location = none ∨ info.location = some (Block.fileName id)
  writer : ∃ w, s.writer? name = some w ∧ w.writtenBytes = bytes

theorem Registered.aside (h : Registered name id codec es info bytes s)
    (haside : Aside name id s s') : Registered name id codec es info bytes s' := by
  obtain ⟨w, hw, hbytes⟩ := h.writer
  refine ⟨h.toRecorded.watched h.strangers.formed haside.executor ?_ (WithTop.coe_lt_top _),
    haside.strangers, h.file, w, haside.writer.trans hw, hbytes⟩
  exact h.file.imp_right fun hlocation => ⟨hlocation, WithTop.coe_lt_top _⟩

variable [Measured α] {task : TaskId} {edge : Edge} {destination : Destination}
  {p : Partitioner σ α} {store : StoreKind} {pattern : CommunicationPattern}
  {persistence : Persistence}

theorem open_carrying (h : Strangers name (.of edge.id task) s) (hnew : s.writer? name = none)
    (hedge : edge.Complete destination store pattern persistence)
    (hspace : Spacious (.of edge.id task) s.executor)
    (htracker : s.executor.tracker.validate = .ok ())
    (hestimator : s.executor.estimator.Usable) :
    Among (· ≠ .of edge.id task) ⊤ ⊤ name (idle task edge destination p store)
      s.executor.registry.medium.codec []
      (perform (.openWriter name task edge destination p) s).2 := by
  have hdrop : ∀ e, ({ s with executor := e } : Session σ α).dropWriter name =
      { s with executor := e } := by
    intro e
    rw [dropWriter, show writer? { s with executor := e } name = none from hnew]
  obtain ⟨hbears, hmine⟩ := open_bears (n := ⊤) (r := ⊤) (p := p) hedge hspace htracker hestimator
    fun {_ e} _ _ => by
      rw [hdrop]
      exact ⟨(watched _ _ _).refl e, .inr (WithTop.coe_lt_top _)⟩
  exact ⟨(strangers_iff.mp h).mine hmine, hbears⟩

/-- While the writer is open, its calls and those of others follow one another in any order. -/
theorem run_carrying {calls : List (Call σ α)}
    (h : Among (· ≠ .of edge.id task) ⊤ ⊤ name (idle task edge destination p store) codec xs s)
    (hcalls : ∀ call ∈ calls, call.Foreign name (.of edge.id task) ∨ ∃ x, call = .write name x)
    (hgiven : ∀ x ∈ Call.given name calls, codec.Encodes x) :
    Among (· ≠ .of edge.id task) ⊤ ⊤ name (idle task edge destination p store) codec
      (xs ++ Call.given name calls) (s.run calls) :=
  run_among h (fun call hmem => (hcalls call hmem).imp_left Call.Foreign.within)
    (.inr (WithTop.coe_lt_top _)) hgiven

theorem close_registered
    (h : Among (· ≠ .of edge.id task) ⊤ ⊤ name (idle task edge destination p store) codec xs s)
    (hedge : edge.Complete destination store pattern persistence)
    (hxs : ∀ x ∈ xs, codec.Encodes x) :
    (perform (.close name) s).1 = .ok () ∧ ∃ es info, Makes p xs codec es ∧
      Registered name (.of edge.id task) codec es info
        (if store = .memory ∨ info.store = .memoryFile then none
          else some (UInt64.ofNat (Entry.stored es))) (perform (.close name) s).2 := by
  obtain ⟨hok, hmine, w, es, info, hw, hmakes, hcloses, hrecorded⟩ := close_bears h.bears hedge hxs
  refine ⟨hok, es, info, hmakes, hrecorded, strangers_iff.mpr (h.others.mine hmine), ?_, w, hw,
    hcloses.bytes⟩
  rw [hcloses.location]
  split
  · exact .inl rfl
  · exact .inr rfl

end Session

/-- An executor as it was made, or after others have used it. -/
structure Executor.Ready (e : Executor α) : Prop where
  keyed : e.registry.Keyed
  tracker : e.tracker.validate = .ok ()
  estimator : e.estimator.Usable

theorem Executor.ready_ofConfig {c : Config} {medium : Medium α} {e : Executor α}
    (h : ofConfig c medium = .ok e) : e.Ready := by
  cases htracker : c.tracker.validate with
  | error fault =>
    simp only [ofConfig, htracker, bind, Except.bind] at h
    cases h
  | ok _ =>
    cases hestimator : c.estimator.validate with
    | error fault =>
      simp only [ofConfig, htracker, SizeEstimator.make, hestimator, bind, Except.bind] at h
      cases h
    | ok _ =>
      simp only [ofConfig, htracker, SizeEstimator.make, hestimator, bind, Except.bind] at h
      cases h
      exact ⟨fun _ h => absurd h List.not_mem_nil, htracker,
        SizeEstimator.usable_ofOptions hestimator⟩

namespace Session

open Executor Writer

variable [Measured α] {name : String} {codec : Codec α} {xs : List α} {s : Session σ α}
  {task : TaskId} {edge : Edge} {destination : Destination} {p : Partitioner σ α}
  {store : StoreKind} {pattern : CommunicationPattern} {persistence : Persistence}

/-- A writer that was opened among calls of others carries what it was given since. -/
theorem run_open_carrying {e : Executor α}
    (hedge : edge.Complete destination store pattern persistence)
    (hfiles : Spacious (.of edge.id task) e) (hready : e.Ready) {before during : List (Call σ α)}
    (hbefore : ∀ call ∈ before, call.Foreign name (.of edge.id task))
    (hduring : ∀ call ∈ during,
      call.Foreign name (.of edge.id task) ∨ ∃ x, call = .write name x)
    (hgiven : ∀ x ∈ Call.given name during, e.registry.medium.codec.Encodes x) :
    Among (· ≠ .of edge.id task) ⊤ ⊤ name (idle task edge destination p store)
      e.registry.medium.codec (Call.given name during) (Session.run { executor := e }
        (before ++ .openWriter name task edge destination p :: during)) := by
  have hstart : Strangers (σ := σ) name (.of edge.id task) { executor := e } :=
    ⟨hfiles.formed, hready.keyed, nofun⟩
  have hbegun := run_foreign hstart hbefore
  obtain ⟨⟨hsame, hdir⟩, -, -, hable⟩ := hbegun.executor
  have hopen := open_carrying (p := p) hbegun.strangers hbegun.writer hedge
    ⟨hdir.refusals.trans hfiles.free, hdir.formed hfiles.formed, hfiles.named⟩
    (by rw [hable.tracker]; exact hready.tracker) (hable.usable hready.estimator)
  rw [hsame] at hopen
  have hcarrying := run_carrying hopen hduring hgiven
  rwa [List.nil_append, ← run_cons, ← run_append] at hcarrying

/-- A writer is opened, given elements and closed, among any calls of others that are about other
writers and other blocks. The close succeeds, and from then on, whatever the others do, every key of
the block gives back the elements for which the partitioner answered it, in the order of their
writes. How many bytes were written is told unless the elements are in memory as they are. -/
theorem run_reads_back {e : Executor α}
    (hedge : edge.Complete destination store pattern persistence)
    (hfiles : Spacious (.of edge.id task) e) (hready : e.Ready)
    (before during later : List (Call σ α))
    (hbefore : ∀ call ∈ before, call.Foreign name (.of edge.id task))
    (hduring : ∀ call ∈ during,
      call.Foreign name (.of edge.id task) ∨ ∃ x, call = .write name x)
    (hlater : ∀ call ∈ later, call.Foreign name (.of edge.id task)) {encoding : α → Bytes}
    (hcodec : e.registry.medium.codec.Faithful encoding (Call.given name during)) :
    let s := Session.run { executor := e }
      (before ++ .openWriter name task edge destination p :: during)
    let s' := (perform (.close name) s).2.run later
    (perform (.close name) s).1 = .ok () ∧
    ∃ w block info, s'.writer? name = some w ∧
      s'.executor.registry.entry? (.of edge.id task) = some ⟨block, info⟩ ∧
      (∀ key, s'.executor.registry.readPartition (.of edge.id task) key =
        .ok (p.part key (Call.given name during))) ∧
      w.writtenBytes = if store = .memory ∨ info.store = .memoryFile then none
        else some (UInt64.ofNat
          ((Call.given name during).map fun x => 12 + (encoding x).length).sum) := by
  intro s s'
  have hencodes : ∀ x ∈ Call.given name during, e.registry.medium.codec.Encodes x :=
    fun x hx earlier => ⟨encoding x, (hcodec x hx).1 earlier, (hcodec x hx).2.1⟩
  have hcarrying := run_open_carrying (p := p) hedge hfiles hready hbefore hduring hencodes
  obtain ⟨hok, es, info, hmakes, hregistered⟩ := close_registered hcarrying hedge hencodes
  have hkept := hregistered.aside (run_foreign hregistered.strangers hlater)
  obtain ⟨w, hw, hbytes⟩ := hkept.writer
  obtain ⟨block, -, hentry, -⟩ := hkept.block
  refine ⟨hok, w, block, info, hw, hentry, fun key => ?_, ?_⟩
  · rw [hkept.readPartition (hmakes.restores hcodec) key, hmakes.part key]
  · rw [hbytes, hmakes.stored hcodec]
    rfl

/-- Two elements, and somebody else between them. -/
theorem run_reads_back_pair :
    let edge : Edge := {
      id := ⟨"e"⟩
      store := some .serializedMemoryFile
      pattern := some .oneToOne
      persistence := some .keep }
    let e : Executor UInt64 := {
      registry := { medium := { codec := .json } }
      pool := .ofCapacity 100
      estimator := .ofOptions {} }
    let calls : List (Call UInt32 UInt64) := [
      .openWriter "w" ⟨"t"⟩ edge ⟨⟨"v"⟩, none⟩ .dedicatedKeys, .write "w" 7,
      .removeBlock ⟨"other"⟩, .write "w" 8]
    let closed := perform (.close "w") (Session.run { executor := e } calls)
    closed.1 = .ok () ∧
      closed.2.executor.registry.readPartition ⟨"e-t"⟩ 0 = .ok [7] ∧
      closed.2.executor.registry.readPartition ⟨"e-t"⟩ 1 = .ok [8] := by
  intro edge e calls closed
  have hedge : edge.Complete ⟨⟨"v"⟩, none⟩ .serializedMemoryFile .oneToOne .keep :=
    ⟨rfl, rfl, rfl, rfl, by decide⟩
  have hfiles : Spacious (.of edge.id ⟨"t"⟩) e := ⟨rfl, .of_unnamed rfl, by decide⟩
  have hduring : ∀ call ∈ [.write "w" 7, .removeBlock ⟨"other"⟩, .write "w" 8],
      Call.Foreign (σ := UInt32) (α := UInt64) "w" (.of edge.id ⟨"t"⟩) call ∨
        ∃ x, call = .write "w" x := by
    intro call hcall
    simp only [List.mem_cons, List.not_mem_nil, or_false] at hcall
    rcases hcall with rfl | rfl | rfl
    · exact .inr ⟨7, rfl⟩
    · exact .inl (show BlockId.mk "other" ≠ .of edge.id ⟨"t"⟩ by decide)
    · exact .inr ⟨8, rfl⟩
  have hgiven : Call.given (σ := UInt32) "w"
      [.write "w" 7, .removeBlock ⟨"other"⟩, .write "w" 8] = [(7 : UInt64), 8] := by
    simp [Call.given]
  have hcodec : e.registry.medium.codec.Faithful JsonElement.write (Call.given (σ := UInt32) "w"
      [.write "w" 7, .removeBlock ⟨"other"⟩, .write "w" 8]) := by
    intro x hx
    rw [hgiven] at hx
    simp only [List.mem_cons, List.not_mem_nil, or_false] at hx
    rcases hx with rfl | rfl
    · exact ⟨fun _ => rfl, by decide, by decide⟩
    · exact ⟨fun _ => rfl, by decide, by decide⟩
  have hready : e.Ready := ⟨fun _ h => absurd h List.not_mem_nil, by decide,
    SizeEstimator.usable_ofOptions (by decide)⟩
  have hnone : ∀ call ∈ ([] : List (Call UInt32 UInt64)), call.Foreign "w" (.of edge.id ⟨"t"⟩) :=
    fun _ h => absurd h List.not_mem_nil
  have hmain := run_reads_back (p := Partitioner.dedicatedKeys) hedge hfiles hready [] _ []
    hnone hduring hnone hcodec
  have hid : BlockId.of edge.id ⟨"t"⟩ = ⟨"e-t"⟩ := rfl
  simp only [List.nil_append, run_nil, hid, hgiven] at hmain
  obtain ⟨hok, w, block, info, -, -, hread, -⟩ := hmain
  have hfirst : Partitioner.part .dedicatedKeys 0 [(7 : UInt64), 8] = [7] := by decide
  have hsecond : Partitioner.part .dedicatedKeys 1 [(7 : UInt64), 8] = [8] := by decide
  simp only [closed, calls]
  refine ⟨hok, ?_, ?_⟩
  · rw [hread 0, hfirst]
  · rw [hread 1, hsecond]

end Session

end ShuffleBuffer
