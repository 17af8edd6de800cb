import Mathlib
import ShuffleBuffer.Block
import ShuffleBuffer.Proofs.Files
import ShuffleBuffer.Proofs.Partitions
import ShuffleBuffer.Proofs.Records

/-! # What a block holds

An open block holds a list of entries: an element, the key it was written under and the bytes it
was encoded to. Whatever the kind of block, the entries of a key are found in the order of their
writes, sealing changes nothing, and a committed block gives them back. -/

namespace ShuffleBuffer

open Step

/-- An element as it was written. -/
structure Entry (α : Type) where
  key : PartitionKey
  value : α
  payload : Bytes

variable {α β : Type}

namespace Entry

def frame (e : Entry α) : Frame := ⟨e.key, e.payload⟩

/-- The entries of a key. -/
def under (key : PartitionKey) (es : List (Entry α)) : List (Entry α) := es.filter (·.key = key)

/-- The frames of all entries. -/
def run (es : List (Entry α)) : Bytes := (es.map fun e => e.frame.bytes).flatten

/-- The bytes of each partition. -/
def tally (es : List (Entry α)) : PartitionSizes :=
  es.foldl (fun sizes e => sizes.add e.key e.frame.bytes.length.toUInt64) []

/-- The bytes of all entries, in unbounded numbers. -/
def stored (es : List (Entry α)) : Nat := (run es).length

theorem run_append (es es' : List (Entry α)) : run (es ++ es') = run es ++ run es' := by
  simp [run]

theorem under_append (key : PartitionKey) (es es' : List (Entry α)) :
    under key (es ++ es') = under key es ++ under key es' := by
  simp [under]

theorem under_singleton (key : PartitionKey) (e : Entry α) :
    under key [e] = if e.key = key then [e] else [] := by
  by_cases h : e.key = key
  · simp [under, h]
  · simp [under, h]

theorem tally_concat (es : List (Entry α)) (e : Entry α) :
    tally (es ++ [e]) = (tally es).add e.key e.frame.bytes.length.toUInt64 := by
  simp [tally]

/-- The sizes add up to all bytes that were stored. -/
theorem total_tally (es : List (Entry α)) : (tally es).total = UInt64.ofNat (stored es) := by
  induction es using List.reverseRecOn with
  | nil => rfl
  | append_singleton es e ih =>
    rw [tally_concat, PartitionSizes.total_add, ih, stored, stored, run_append, List.length_append,
      UInt64.ofNat_add]
    simp [run, Nat.toUInt64]

end Entry

namespace Codec

/-- An element can be encoded after so many others, and fits a frame. -/
def EncodesAt (codec : Codec α) (earlier : Nat) (x : α) : Prop :=
  ∃ payload, codec.encode earlier x = .ok payload ∧ payload.length < UInt32.size

/-- An element can be encoded whenever it is asked for, and fits a frame. -/
def Encodes (codec : Codec α) (x : α) : Prop := ∀ earlier, codec.EncodesAt earlier x

/-- Elements can be encoded one after another by who counts them, or else each of them now. -/
def EncodesFrom (codec : Codec α) (counted : Bool) : Nat → List α → Prop
  | _, [] => True
  | earlier, x :: xs => codec.EncodesAt earlier x ∧
      codec.EncodesFrom counted (if counted then earlier + 1 else earlier) xs

instance (codec : Codec α) (earlier : Nat) (x : α) : Decidable (codec.EncodesAt earlier x) :=
  match hencode : codec.encode earlier x with
  | .ok payload => decidable_of_iff (payload.length < UInt32.size)
      ⟨fun hfits => ⟨payload, hencode, hfits⟩, fun ⟨_, hother, hfits⟩ => by
        cases hencode.symm.trans hother
        exact hfits⟩
  | .error _ => isFalse fun ⟨_, hother, _⟩ => nomatch hencode.symm.trans hother

instance (codec : Codec α) (counted : Bool) :
    ∀ (earlier : Nat) (xs : List α), Decidable (codec.EncodesFrom counted earlier xs)
  | _, [] => isTrue trivial
  | earlier, _ :: xs =>
      have := instDecidableEncodesFrom codec counted (if counted then earlier + 1 else earlier) xs
      inferInstanceAs (Decidable (_ ∧ _))

theorem encodesFrom_of_encodes {codec : Codec α} {xs : List α} (h : ∀ x ∈ xs, codec.Encodes x)
    (counted : Bool) (earlier : Nat) : codec.EncodesFrom counted earlier xs := by
  induction xs generalizing earlier with
  | nil => exact trivial
  | cons x xs ih =>
    exact ⟨h x List.mem_cons_self earlier, ih (fun y hy => h y (List.mem_cons_of_mem x hy)) _⟩

/-- The payload of an entry is what the codec made of its element. -/
def Made (codec : Codec α) (e : Entry α) : Prop :=
  e.payload.length < UInt32.size ∧ ∃ earlier, codec.encode earlier e.value = .ok e.payload

end Codec

namespace Medium

/-- What every use of a medium keeps. -/
structure Kept (m m' : Medium α) : Prop where
  codec : m'.codec = m.codec
  dir : SpillDir.Kept m.dir m'.dir

theorem Kept.refl (m : Medium α) : Kept m m := ⟨rfl, SpillDir.Kept.refl _⟩

theorem Kept.trans {m m' m'' : Medium α} (h : Kept m m') (h' : Kept m' m'') : Kept m m'' :=
  ⟨h'.codec.trans h.codec, h.dir.trans h'.dir⟩

theorem onFile_yields (x : SpillDir → β × SpillDir) (m : Medium α) :
    Yields (onFile x) m fun answer m' =>
      answer = (x m.dir).1 ∧ m' = { m with dir := (x m.dir).2 } :=
  ⟨_, _, rfl, rfl, rfl⟩

theorem closeFile_yields (handle : OpenFile) (m : Medium α) :
    Yields (closeFile (some handle)) m fun result m' =>
      result = (handle.close m.dir).1 ∧ m' = { m with dir := (handle.close m.dir).2 } :=
  ⟨_, _, rfl, rfl, rfl⟩

/-- The frame of an entry whose payload the codec makes now. -/
theorem frame_yields {m : Medium α} {e : Entry α}
    (hencode : m.codec.encode m.encodings e.value = .ok e.payload)
    (hfits : e.payload.length < UInt32.size) :
    Yields (frame e.key e.value) m fun r m' => r = (e.payload, e.frame.bytes) ∧
      m' = { m with encodings := m.encodings + 1 } := by
  refine ⟨(e.payload, e.frame.bytes), { m with encodings := m.encodings + 1 }, ?_, rfl, rfl⟩
  simp only [frame, bind_apply, encode, hencode, Step.ofExcept]
  rw [Frame.encode_eq hfits]
  rfl

/-- An element that is not encoded now, to bytes that fit, makes no frame. -/
theorem frame_refuses {m : Medium α} {x : α} (hnot : ¬ m.codec.EncodesAt m.encodings x)
    (key : PartitionKey) :
    ∃ fault, frame key x m = (.error fault, { m with encodings := m.encodings + 1 }) := by
  cases hencode : m.codec.encode m.encodings x with
  | error fault => exact ⟨fault, by simp only [frame, bind_apply, encode, hencode]⟩
  | ok payload =>
    have hlarge : Frame.encode ⟨key, payload⟩ = .error (.invalid .recordTooLarge) := by
      rw [Frame.encode, Frame.append_large fun hfits => hnot ⟨payload, hencode, hfits⟩]
    exact ⟨.invalid .recordTooLarge,
      by simp only [frame, bind_apply, encode, hencode, Step.ofExcept, hlarge]⟩

end Medium

namespace Block

open Entry

/-- Sizes are kept for this kind of block. -/
def keepsSizes (b : Block α) : Bool :=
  match b.body with
  | .values .. => false
  | _ => true

/-- The same block, later: its name, its store and its kind do not change. -/
structure Like (b b' : Block α) : Prop where
  id : b'.id = b.id
  store : b'.store = b.store
  location : b'.location = b.location
  keepsSizes : b'.keepsSizes = b.keepsSizes

theorem Like.refl (b : Block α) : b.Like b := ⟨rfl, rfl, rfl, rfl⟩

theorem Like.trans {b b' b'' : Block α} (h : b.Like b') (h' : b'.Like b'') : b.Like b'' :=
  ⟨h'.id.trans h.id, h'.store.trans h.store, h'.location.trans h.location,
    h'.keepsSizes.trans h.keepsSizes⟩

/-- An open block and what was written to it; one on disk needs a directory that refuses nothing. -/
inductive Holds (d : SpillDir) (es : List (Entry α)) : Block α → Prop
  | values {id : BlockId} {store : StoreKind} {pending : PartitionMap (List α)}
      {sealed : List (PartitionKey × List α)} : pending.Sorted →
      (∀ key, gather (sealed ++ pending) key = (under key es).map value) →
      Holds d es ⟨id, store, .opened, .values pending sealed⟩
  | encoded {id : BlockId} {store : StoreKind} {frames : PartitionMap (List Frame)}
      {runs : List (PartitionKey × List Frame)} : frames.Sorted →
      (∀ key, gather (runs ++ frames) key = (under key es).map frame) →
      Holds d es ⟨id, store, .opened, .encoded
        (frames.map fun entry => (entry.1, entry.2.map Frame.bytes))
        (runs.map fun entry => (entry.1, (entry.2.map Frame.bytes).flatten)) (tally es)⟩
  | file {id : BlockId} {store : StoreKind} {handle : OpenFile} {checksum : RunningChecksum} :
      d.Works → d.names.lookup (fileName id) = some handle.file → handle.Appends d (run es) →
      Holds d es ⟨id, store, .opened, .file (some handle) (tally es) checksum⟩

/-- A committed block and what can be read from it. -/
inductive Stores (d : SpillDir) (es : List (Entry α)) : Block α → Prop
  | values {id : BlockId} {store : StoreKind} {sealed : List (PartitionKey × List α)} :
      (∀ key, gather sealed key = (under key es).map value) →
      Stores d es ⟨id, store, .committed, .values [] sealed⟩
  | encoded {id : BlockId} {store : StoreKind} {runs : List (PartitionKey × List Frame)}
      {sizes : PartitionSizes} :
      (∀ key, gather runs key = (under key es).map frame) →
      Stores d es ⟨id, store, .committed, .encoded []
        (runs.map fun entry => (entry.1, (entry.2.map Frame.bytes).flatten)) sizes⟩
  | file {id : BlockId} {store : StoreKind} {file : FileId} {sizes : PartitionSizes}
      {checksum : RunningChecksum} :
      d.names.lookup (fileName id) = some file → (d.content file).bytes = run es →
      Stores d es ⟨id, store, .committed, .file none sizes checksum⟩

variable {b : Block α} {m : Medium α} {es : List (Entry α)} {d d' : SpillDir}

/-- What a block holds depends on its own file at most. -/
theorem Holds.apart (h : b.Holds d es)
    (hfile : ∀ name, b.location = some name → SpillDir.Apart name d d') : b.Holds d' es := by
  cases h with
  | values hsorted hgather => exact .values hsorted hgather
  | encoded hsorted hgather => exact .encoded hsorted hgather
  | file hworks hname happends =>
    have hapart := hfile _ rfl
    have hcontent := hapart.content _ hname happends.there
    refine .file (hapart.refusals.trans hworks) (hapart.lookup.trans hname) ⟨?_, ?_, ?_⟩
    · exact Nat.lt_of_lt_of_le happends.there hapart.length
    · rw [hcontent]
      exact happends.atEnd
    · rw [hcontent]
      exact happends.holds

theorem Stores.apart (h : b.Stores d es) (hformed : d.WellFormed)
    (hfile : ∀ name, b.location = some name → SpillDir.Apart name d d') : b.Stores d' es := by
  cases h with
  | values hgather => exact .values hgather
  | encoded hgather => exact .encoded hgather
  | file hname hbytes =>
    have hapart := hfile _ rfl
    refine .file (hapart.lookup.trans hname) ?_
    rw [hapart.content _ hname (hformed.inRange hname)]
    exact hbytes

theorem holds_ofValues (d : SpillDir) (id : BlockId) (store : StoreKind) :
    Holds d [] (ofValues (α := α) id store) :=
  .values List.Pairwise.nil fun _ => rfl

theorem holds_ofEncoded (d : SpillDir) (id : BlockId) (store : StoreKind) :
    Holds d [] (ofEncoded (α := α) id store) :=
  @Holds.encoded _ _ _ _ _ [] [] List.Pairwise.nil fun _ => rfl

theorem Holds.opened {d : SpillDir} (h : Holds d es b) : b.state = .opened := by
  cases h <;> rfl

/-- Sealing frames makes runs of them. -/
theorem seal_runs (runs : List (PartitionKey × List Frame)) (frames : PartitionMap (List Frame)) :
    (runs.map fun entry => (entry.1, (entry.2.map Frame.bytes).flatten)) ++
        ((frames.map fun entry => (entry.1, entry.2.map Frame.bytes)).map
          fun entry => (entry.1, entry.2.flatten)) =
      (runs ++ frames).map fun entry => (entry.1, (entry.2.map Frame.bytes).flatten) := by
  simp

theorem require_ok {request : BlockRequest} {state : BlockState} (h : b.state = state) :
    b.require request state = .ok () := by
  rw [require, if_pos h]

/-- Where nothing is refused, the frame of one more entry comes after all others in the file. -/
theorem write_file_yields {id : BlockId} {store : StoreKind} {handle : OpenFile}
    {sizes : PartitionSizes} {checksum : RunningChecksum} {e : Entry α} (hworks : m.dir.Works)
    (hname : m.dir.names.lookup (fileName id) = some handle.file)
    (happends : handle.Appends m.dir (run es))
    (hencode : m.codec.encode m.encodings e.value = .ok e.payload)
    (hfits : e.payload.length < UInt32.size) :
    Yields (write ⟨id, store, .opened, .file (some handle) sizes checksum⟩ e.key e.value) m
      fun c m' => ∃ handle' : OpenFile,
        c = ⟨⟨id, store, .opened, .file (some handle')
          (sizes.add e.key e.frame.bytes.length.toUInt64) (checksum.update e.key e.payload)⟩,
          .ok ()⟩ ∧
        Medium.Kept m m' ∧ m'.encodings = m.encodings + 1 ∧ m'.dir.Works ∧
        m'.dir.names.lookup (fileName id) = some handle'.file ∧
        handle'.Appends m'.dir (run (es ++ [e])) := by
  obtain ⟨hfile, hwrites⟩ := OpenFile.write_file handle e.frame.bytes m.dir
  have hok := OpenFile.write_works handle hworks e.frame.bytes
  have hwritten := OpenFile.write_spec happends hok
  refine Yields.bind (M := fun _ m' => m = m') (Yields.ofExcept (require_ok rfl) rfl) ?_
  rintro _ _ rfl
  refine Yields.bind (Medium.frame_yields hencode hfits) ?_
  rintro _ _ ⟨rfl, rfl⟩
  refine Yields.bind (Medium.onFile_yields _ _) ?_
  rintro ⟨handle', result⟩ _ ⟨hwrite, rfl⟩
  obtain rfl : handle' = (handle.write e.frame.bytes m.dir).1.1 := congrArg Prod.fst hwrite
  obtain rfl : result = .ok () := (congrArg Prod.snd hwrite).trans hok
  refine Yields.pure ⟨_, rfl, ⟨rfl, hwrites.kept⟩, rfl, hwrites.refusals.trans hworks, ?_, ?_⟩
  · rw [hwrites.names, hfile]
    exact hname
  · rw [run_append]
    simpa [run] using hwritten

/-- One more entry. Where sizes are kept its payload is what the codec makes of its element now;
elsewhere nothing is encoded. -/
theorem write_entry (h : Holds m.dir es b) (e : Entry α)
    (hmade : b.keepsSizes = true →
      m.codec.encode m.encodings e.value = .ok e.payload ∧ e.payload.length < UInt32.size) :
    Yields (b.write e.key e.value) m fun c m' => c.result = .ok () ∧ b.Like c.block ∧
      Medium.Kept m m' ∧ m'.encodings = (if b.keepsSizes then m.encodings + 1 else m.encodings) ∧
      Holds m'.dir (es ++ [e]) c.block := by
  have hrequire : Yields (Step.ofExcept (b.require .write .opened)) m fun _ m' => m = m' :=
    Yields.ofExcept (require_ok h.opened) rfl
  cases h with
  | @values id store pending sealed hsorted hgather =>
    refine Yields.bind hrequire ?_
    rintro _ _ rfl
    refine Yields.pure ⟨rfl, ⟨rfl, rfl, rfl, rfl⟩, Medium.Kept.refl _, rfl,
      .values (PartitionMap.sorted_alter hsorted _ _) fun k => ?_⟩
    rw [gather_append, PartitionMap.gather_append_key hsorted, ← List.append_assoc, ← gather_append,
      hgather, under_append, under_singleton, List.map_append]
    by_cases hkey : e.key = k
    · simp [hkey]
    · simp [hkey]
  | @encoded id store frames runs hsorted hgather =>
    obtain ⟨hencode, hfits⟩ := hmade rfl
    refine Yields.bind hrequire ?_
    rintro _ _ rfl
    refine Yields.bind (Medium.frame_yields hencode hfits) ?_
    rintro _ _ ⟨rfl, rfl⟩
    refine Yields.pure ⟨rfl, ⟨rfl, rfl, rfl, rfl⟩, ⟨rfl, SpillDir.Kept.refl _⟩, rfl, ?_⟩
    have happend := PartitionMap.append_map Frame.bytes frames e.key [e.frame]
    simp only [List.map_cons, List.map_nil] at happend
    rw [happend, ← tally_concat]
    refine .encoded (PartitionMap.sorted_alter hsorted _ _) fun k => ?_
    rw [gather_append, PartitionMap.gather_append_key hsorted, ← List.append_assoc, ← gather_append,
      hgather, under_append, under_singleton, List.map_append]
    by_cases hkey : e.key = k
    · simp [hkey]
    · simp [hkey]
  | @file id store handle checksum hworks hname happends =>
    obtain ⟨hencode, hfits⟩ := hmade rfl
    refine (write_file_yields hworks hname happends hencode hfits).weaken ?_
    rintro _ m' ⟨handle', rfl, hkept, hcount, hworks', hname', happends'⟩
    refine ⟨rfl, ⟨rfl, rfl, rfl, rfl⟩, hkept, hcount, ?_⟩
    dsimp only
    rw [← tally_concat]
    exact .file hworks' hname' happends'

/-- One more element under a key. -/
theorem write_yields (h : Holds m.dir es b) (key : PartitionKey) {x : α}
    (hx : m.codec.EncodesAt m.encodings x) :
    Yields (b.write key x) m fun c m' => c.result = .ok () ∧ b.Like c.block ∧ Medium.Kept m m' ∧
      m'.encodings = (if b.keepsSizes then m.encodings + 1 else m.encodings) ∧
      ∃ e : Entry α, e.key = key ∧ e.value = x ∧ m.codec.Made e ∧
        Holds m'.dir (es ++ [e]) c.block := by
  obtain ⟨payload, hencode, hfits⟩ := hx
  refine (write_entry h ⟨key, x, payload⟩ fun _ => ⟨hencode, hfits⟩).weaken ?_
  rintro c m' ⟨hok, hlike, hkept, hcount, hholds⟩
  exact ⟨hok, hlike, hkept, hcount, ⟨key, x, payload⟩, rfl, rfl, ⟨hfits, _, hencode⟩, hholds⟩

/-- An element that makes no frame leaves no trace in a block of frames. -/
theorem write_refused (hb : b.Holds m.dir es) (hsized : b.keepsSizes = true) {key : PartitionKey}
    {x : α} {fault : Fault} {m' : Medium α} (hframe : Medium.frame key x m = (.error fault, m')) :
    b.write key x m = (.error fault, m') := by
  have hrequire : Step.ofExcept (b.require .write .opened) m = (.ok (), m) :=
    Prod.ext (require_ok hb.opened) rfl
  refine (bind_ok hrequire _).trans ?_
  cases hb with
  | values => cases hsized
  | encoded => exact bind_error hframe _
  | file => exact bind_error hframe _

/-- Sealing partitions changes nothing that the block holds. -/
theorem commitPartitions_yields (h : Holds m.dir es b) :
    Yields b.commitPartitions m fun c m' => c.result = .ok () ∧ b.Like c.block ∧
      Medium.Kept m m' ∧ m'.encodings = m.encodings ∧ Holds m'.dir es c.block := by
  refine Yields.bind (M := fun _ m' => m = m')
    (Yields.ofExcept (require_ok h.opened) rfl) fun _ _ hm => ?_
  subst hm
  cases h with
  | @values id store pending sealed hsorted hgather =>
    refine Yields.pure ⟨rfl, ⟨rfl, rfl, rfl, rfl⟩, Medium.Kept.refl _, rfl,
      .values List.Pairwise.nil fun k => ?_⟩
    rw [List.append_nil]
    exact hgather k
  | @encoded id store frames runs hsorted hgather =>
    refine Yields.pure ⟨rfl, ⟨rfl, rfl, rfl, rfl⟩, Medium.Kept.refl _, rfl, ?_⟩
    dsimp only
    rw [seal_runs]
    refine @Holds.encoded _ _ _ _ _ [] _ List.Pairwise.nil fun k => ?_
    rw [List.append_nil]
    exact hgather k
  | @file id store handle checksum hworks hname happends =>
    obtain ⟨hfile, hwrites⟩ := OpenFile.flush_file handle m.dir
    refine Yields.bind (Medium.onFile_yields _ _) ?_
    rintro _ _ ⟨rfl, rfl⟩
    refine Yields.pure ⟨OpenFile.flushed_flush handle hworks, ⟨rfl, rfl, rfl, rfl⟩,
      ⟨rfl, hwrites.kept⟩, rfl,
      .file (hwrites.refusals.trans hworks) ?_ (OpenFile.flush_spec happends)⟩
    rw [hwrites.names, hfile]
    exact hname

/-- A commit tells the size of each partition, for the kinds of block that keep sizes, and what was
held is stored. -/
theorem commit_yields (h : Holds m.dir es b) :
    Yields b.commit m fun r m' => r.1 = (if b.keepsSizes then some (tally es) else none) ∧
      r.2.result = .ok () ∧ b.Like r.2.block ∧ Medium.Kept m m' ∧
      m'.encodings = m.encodings ∧ Stores m'.dir es r.2.block := by
  cases h with
  | @values id store pending sealed hsorted hgather =>
    refine Yields.bind
      (M := fun c m' => c = ⟨⟨id, store, .opened, .values [] (sealed ++ pending)⟩, .ok ()⟩ ∧
        m = m')
      ⟨_, _, rfl, rfl, rfl⟩ ?_
    rintro _ _ ⟨rfl, rfl⟩
    exact Yields.pure ⟨rfl, rfl, ⟨rfl, rfl, rfl, rfl⟩, Medium.Kept.refl _, rfl, .values hgather⟩
  | @encoded id store frames runs hsorted hgather =>
    refine Yields.bind (M := fun c m' => c = ⟨⟨id, store, .opened, .encoded []
      ((runs ++ frames).map fun entry => (entry.1, (entry.2.map Frame.bytes).flatten))
      (tally es)⟩, .ok ()⟩ ∧ m = m') ⟨_, _, rfl, ?_, rfl⟩ ?_
    · rw [← seal_runs]
    · rintro _ _ ⟨rfl, rfl⟩
      exact Yields.pure ⟨rfl, rfl, ⟨rfl, rfl, rfl, rfl⟩, Medium.Kept.refl _, rfl, .encoded hgather⟩
  | @file id store handle checksum hworks hname happends =>
    have hok := OpenFile.close_works handle hworks
    have hwrites := OpenFile.close_file handle m.dir
    refine Yields.bind (M := fun _ m' => m = m') (Yields.ofExcept (require_ok rfl) rfl) ?_
    rintro _ _ rfl
    refine Yields.bind (Medium.closeFile_yields _ _) ?_
    rintro _ _ ⟨rfl, rfl⟩
    simp only [hok]
    refine Yields.pure ⟨rfl, rfl, ⟨rfl, rfl, rfl, rfl⟩, ⟨rfl, hwrites.kept⟩, rfl,
      .file ?_ (OpenFile.close_spec happends hok)⟩
    rw [hwrites.names]
    exact hname

/-- Giving up a block in memory changes nothing but the block. -/
theorem spill_yields (h : Holds m.dir es b) (hmemory : b.location = none) :
    Yields (do (← b.spill).deleteFile) m fun _ m' => m' = m := by
  cases h with
  | values hsorted hgather => exact ⟨_, _, rfl, rfl⟩
  | encoded hsorted hgather => exact ⟨_, _, rfl, rfl⟩
  | file => cases hmemory

/-- Where files can be created, a new block on disk holds nothing. -/
theorem ofFile_yields {id : BlockId} (hworks : m.dir.Works)
    (hname : SpillDir.isFileName (fileName id) = true) (hdir : m.dir.WellFormed)
    (store : StoreKind) :
    Yields (ofFile id store) m fun b m' => b.id = id ∧ b.store = store ∧
      b.location = some (fileName id) ∧ b.keepsSizes = true ∧
      Medium.Kept m m' ∧ m'.encodings = m.encodings ∧ Holds m'.dir [] b := by
  obtain ⟨file, d', hcreate, hfile, hempty⟩ := SpillDir.create_yields hworks.blocked hname
  have hkept := SpillDir.create_kept (fileName id) m.dir
  obtain ⟨hlt, hcontent⟩ := hempty hdir
  rw [hcreate] at hkept
  refine Yields.bind (M := fun file' m' => file' = file ∧ m' = { m with dir := d' }) ?_ ?_
  · exact Yields.within ⟨file, d', hcreate, rfl, rfl⟩
  · rintro _ _ ⟨rfl, rfl⟩
    refine Yields.pure ⟨rfl, rfl, rfl, rfl, ⟨rfl, hkept⟩, rfl,
      .file (hkept.refusals.trans hworks) hfile ⟨hlt, ?_, ?_⟩⟩
    · rw [hcontent]
    · rw [hcontent]
      rfl

end Block

/-! ## Reading -/

/-- The payload of an entry fits a frame and is decoded to its element. -/
def Codec.Restores (codec : Codec α) (e : Entry α) : Prop :=
  e.payload.length < UInt32.size ∧ codec.decode e.payload = .ok e.value

namespace Entry

/-- What is read of an entry: what the codec makes of its bytes, where it is kept as bytes. -/
def restored (codec : Codec α) (sized : Bool) (entry : Entry α) : Except Fault α :=
  if sized then codec.decode entry.payload else .ok entry.value

theorem restored_values {codec : Codec α} {sized : Bool} {es : List (Entry α)}
    (h : ∀ entry ∈ es, entry.restored codec sized = .ok entry.value) :
    es.mapM (restored codec sized) = .ok (es.map value) := by
  induction es with
  | nil => rfl
  | cons entry es ih =>
    rw [List.mapM_cons, h entry List.mem_cons_self,
      ih fun other hother => h other (List.mem_cons_of_mem _ hother)]
    rfl

end Entry

namespace Block

open Entry

variable {b : Block α} {m : Medium α} {es : List (Entry α)}

theorem bind_of_ok {β γ : Type} {result : Except Fault β} {x : β} (h : result = .ok x)
    (f : β → Except Fault γ) : (result >>= f) = f x := by
  rw [h]
  rfl

/-- Runs of a key that are read and decoded one after the other are decoded at once. -/
theorem decode_runs {runs : List (PartitionKey × List Frame)} {key : PartitionKey}
    (hfits : ∀ f ∈ gather runs key, f.payload.length < UInt32.size) :
    (do
      let parts ← ((runs.map fun entry => (entry.1, (entry.2.map Frame.bytes).flatten)).filter
        (·.1 = key)).mapM fun run => do m.decode (← Frame.decodeAll run.2)
      return parts.flatten) = m.decode (gather runs key) := by
  induction runs with
  | nil => rfl
  | cons entry runs ih =>
    obtain ⟨k, frames⟩ := entry
    rw [gather_cons] at hfits ⊢
    by_cases hkey : k = key
    · rw [if_pos hkey] at hfits ⊢
      have hrun := Frame.decodeAll_flatten frames fun f hf => hfits f (List.mem_append_left _ hf)
      have hrest := ih fun f hf => hfits f (List.mem_append_right _ hf)
      rw [Medium.decode, List.mapM_append, ← Medium.decode, ← Medium.decode, ← hrest, List.map_cons,
        List.filter_cons_of_pos (by simpa using hkey), List.mapM_cons, bind_of_ok hrun]
      simp
    · rw [if_neg hkey, List.nil_append] at hfits ⊢
      rw [List.map_cons, List.filter_cons_of_neg (by simpa using hkey)]
      exact ih hfits

theorem filter_frames (es : List (Entry α)) (key : PartitionKey) :
    (es.map frame).filter (·.key = key) = (under key es).map frame := by
  rw [List.filter_map, under]
  rfl

/-- A committed block gives back the entries of a key in the order of their writes, as the codec has
them. -/
theorem readPartition_restored (h : Stores m.dir es b)
    (hfits : b.keepsSizes = true → ∀ e ∈ es, e.payload.length < UInt32.size) (key : PartitionKey) :
    b.readPartition key m = (under key es).mapM (restored m.codec b.keepsSizes) := by
  have hframes : ∀ es' : List (Entry α), m.decode (es'.map frame) =
      es'.mapM (restored m.codec true) := fun es' => List.mapM_map
  cases h with
  | @values id store sealed hgather =>
    show Except.ok (gather sealed key) = _
    rw [hgather key]
    exact (restored_values fun _ _ => rfl).symm
  | @encoded id store runs sizes hgather =>
    refine (bind_of_ok (require_ok rfl) _).trans ?_
    refine (decode_runs fun f hf => ?_).trans ?_
    · rw [hgather key] at hf
      obtain ⟨e, he, rfl⟩ := List.mem_map.mp hf
      exact hfits rfl e (List.mem_filter.mp he).1
    · rw [hgather key]
      exact hframes _
  | @file id store file sizes checksum hname hbytes =>
    have hread : m.dir.read (fileName id) = .ok (run es) := by
      rw [SpillDir.read, hname, ← hbytes]
    have hall := Frame.decodeAll_flatten (es.map frame) fun f hf => by
      obtain ⟨e, he, rfl⟩ := List.mem_map.mp hf
      exact hfits rfl e he
    rw [List.map_map] at hall
    refine (bind_of_ok (require_ok rfl) _).trans ?_
    refine (bind_of_ok hread _).trans ?_
    refine (bind_of_ok hall _).trans ?_
    rw [filter_frames]
    exact hframes _

/-- They are the elements that were written where the codec gives these back. A block that does not
encode them need not decode them. -/
theorem readPartition_eq (h : Stores m.dir es b)
    (hes : b.keepsSizes = true → ∀ e ∈ es, m.codec.Restores e) (key : PartitionKey) :
    b.readPartition key m = .ok ((under key es).map value) := by
  rw [readPartition_restored h (fun hsized e he => (hes hsized e he).1) key]
  refine restored_values fun e he => ?_
  rw [restored]
  split
  · next hsized => exact (hes hsized e (List.mem_filter.mp he).1).2
  · rfl

end Block

end ShuffleBuffer
