import ShuffleBuffer.Proofs.Views

/-! # File, sizes and checksum of a block on disk

What is written to a block on disk is kept three times: as frames in the file, in the sizes of the
partitions and in the running checksum. An element that is refused gets into none of them. So
they tell of the same frames at all times, and those are what the committed file is read as. -/

namespace ShuffleBuffer

open Step

variable {α : Type}

/-! ## Elements that make a frame -/

/-- The payload of one more element, which must be encoded and fit a frame. -/
def Codec.framed (codec : Codec α) (earlier : Nat) (x : α) : Except Fault Bytes :=
  match codec.encode earlier x with
  | .ok payload =>
      if payload.length < UInt32.size then .ok payload else .error (.invalid .recordTooLarge)
  | .error fault => .error fault

theorem Codec.framed_ok {codec : Codec α} {earlier : Nat} {x : α} {payload : Bytes}
    (h : codec.framed earlier x = .ok payload) :
    codec.encode earlier x = .ok payload ∧ payload.length < UInt32.size := by
  cases hencode : codec.encode earlier x with
  | error fault =>
    rw [framed, hencode] at h
    cases h
  | ok made =>
    rw [framed, hencode] at h
    dsimp only at h
    split at h
    · next hfits =>
      cases h
      exact ⟨rfl, hfits⟩
    · cases h

namespace Medium

variable {m : Medium α} {x : α}

/-- Any other element was offered, but makes no frame. -/
theorem frame_error {fault : Fault} (h : m.codec.framed m.encodings x = .error fault)
    (key : PartitionKey) :
    frame key x m = (.error fault, { m with encodings := m.encodings + 1 }) := by
  cases hencode : m.codec.encode m.encodings x with
  | error other =>
    rw [Codec.framed, hencode] at h
    cases h
    simp only [frame, bind_apply, encode, hencode]
  | ok payload =>
    rw [Codec.framed, hencode] at h
    dsimp only at h
    split at h
    · cases h
    · next hlarge =>
      cases h
      have hframe : Frame.encode ⟨key, payload⟩ = .error (.invalid .recordTooLarge) := by
        rw [Frame.encode, Frame.append_large hlarge]
      simp only [frame, bind_apply, encode, hencode, Step.ofExcept, hframe]

end Medium

/-! ## The running checksum -/

namespace RunningChecksum

/-- The checksum of a run of frames, fed one after the other. -/
def ofFrames (frames : List Frame) : RunningChecksum :=
  frames.foldl (fun c f => c.update f.key f.payload) {}

theorem ofFrames_concat (frames : List Frame) (f : Frame) :
    ofFrames (frames ++ [f]) = (ofFrames frames).update f.key f.payload := by
  rw [ofFrames, List.foldl_append]
  rfl

end RunningChecksum

namespace Block

open Entry

/-- An open block on disk whose sizes and checksum tell of these entries. -/
def atFile (id : BlockId) (store : StoreKind) (handle : OpenFile) (es : List (Entry α)) : Block α :=
  ⟨id, store, .opened, .file (some handle) (tally es) (.ofFrames (es.map frame))⟩

/-- File, sizes and checksum tell of the same entries, all of which fit a frame. -/
inductive Coheres (id : BlockId) (es : List (Entry α)) : Block α × Medium α → Prop
  | intro {store : StoreKind} {handle : OpenFile} {m : Medium α} :
      (∀ e ∈ es, e.payload.length < UInt32.size) → m.dir.Works →
      m.dir.names.lookup (fileName id) = some handle.file → handle.Appends m.dir (run es) →
      Coheres id es (atFile id store handle es, m)

variable {id : BlockId} {es : List (Entry α)} {s : Block α × Medium α}

theorem Coheres.fits (h : Coheres id es s) : ∀ e ∈ es, e.payload.length < UInt32.size := by
  cases h with
  | intro hall _ _ _ => exact hall

/-- A frame gets into all three. -/
theorem Coheres.write (h : Coheres id es s) (key : PartitionKey) {x : α} {payload : Bytes}
    (hframed : s.2.codec.framed s.2.encodings x = .ok payload) :
    (perform (.write key x)).Yields s fun answer s' => answer = .done ∧
      Coheres id (es ++ [⟨key, x, payload⟩]) s' ∧ s'.2.codec = s.2.codec ∧
      s'.2.encodings = s.2.encodings + 1 := by
  obtain ⟨hencode, hfits⟩ := Codec.framed_ok hframed
  cases h with
  | @intro store handle m hall hworks hname happends =>
    let e : Entry α := ⟨key, x, payload⟩
    have hall' : ∀ e' ∈ es ++ [e], e'.payload.length < UInt32.size := by
      rw [List.forall_mem_append]
      exact ⟨hall, List.forall_mem_singleton.mpr hfits⟩
    have hblock : ∀ handle', atFile id store handle' (es ++ [e]) =
        ⟨id, store, .opened, .file (some handle')
          ((tally es).add key e.frame.bytes.length.toUInt64)
          ((RunningChecksum.ofFrames (es.map frame)).update key payload)⟩ := by
      intro handle'
      rw [atFile, tally_concat, List.map_append, List.map_singleton,
        RunningChecksum.ofFrames_concat]
      rfl
    rw [perform]
    refine changing_yields (Yields.bind
      (write_file_yields (e := e) hworks hname happends hencode hfits) ?_)
    rintro _ m' ⟨handle', rfl, hkept, hcount, hworks', hname', happends'⟩
    have hafter : Coheres id (es ++ [e]) (atFile id store handle' (es ++ [e]), m') :=
      .intro hall' hworks' hname' happends'
    rw [hblock] at hafter
    exact Yields.pure ⟨rfl, rfl, hafter, hkept.codec, hcount⟩

/-- An element that makes no frame gets into none of the three. -/
theorem Coheres.write_error (h : Coheres id es s) {key : PartitionKey} {x : α} {fault : Fault}
    (hframed : s.2.codec.framed s.2.encodings x = .error fault) :
    perform (.write key x) s =
      (.error fault, s.1, { s.2 with encodings := s.2.encodings + 1 }) := by
  cases h with
  | @intro store handle m hall hworks hname happends =>
    rw [perform]
    exact changing_error (bind_error
      (write_refused (.file hworks hname happends) rfl (Medium.frame_error hframed key)) _)

theorem Coheres.offered (h : Coheres id es s) (encodings : Nat) :
    Coheres id es (s.1, { s.2 with encodings }) := by
  cases h with
  | intro hall hworks hname happends => exact .intro hall hworks hname happends

/-- What is in the buffer gets to the file. -/
theorem Coheres.commitPartitions (h : Coheres id es s) :
    (perform .commitPartitions).Yields s fun answer s' => answer = .done ∧ Coheres id es s' ∧
      s'.2.codec = s.2.codec ∧ s'.2.encodings = s.2.encodings := by
  cases h with
  | @intro store handle m hall hworks hname happends =>
    obtain ⟨hfile, hwrites⟩ := OpenFile.flush_file handle m.dir
    have hok := OpenFile.flushed_flush handle hworks
    have hafter : Coheres id es (atFile id store (handle.flush m.dir).1 es,
        { m with dir := (handle.flush m.dir).2 }) := by
      refine .intro hall (hwrites.refusals.trans hworks) ?_ (OpenFile.flush_spec happends)
      rw [hwrites.names, hfile]
      exact hname
    rw [perform]
    refine changing_yields (Yields.bind (M := fun c m' => c.result = .ok () ∧
      Coheres id es (c.block, m') ∧ m'.codec = m.codec ∧ m'.encodings = m.encodings) ?_
      fun _ _ hdone => Yields.pure ⟨hdone.1, rfl, hdone.2⟩)
    exact ⟨_, _, rfl, hok, hafter, rfl, rfl⟩

/-- A committed file holds the frames that the sizes and the checksum tell of. -/
theorem Coheres.commit (h : Coheres id es s) :
    (perform .commit).Yields s fun answer s' => answer = .sizes (some (tally es)) ∧
      s'.2.dir.read (fileName id) = .ok (run es) ∧
      s'.1.checksum? = some (RunningChecksum.ofFrames (es.map frame)).value := by
  cases h with
  | @intro store handle m hall hworks hname happends =>
    have hok := OpenFile.close_works handle hworks
    have hread : (handle.close m.dir).2.read (fileName id) = .ok (run es) := by
      rw [SpillDir.read, (OpenFile.close_file handle m.dir).names, hname,
        ← OpenFile.close_spec happends hok]
    rw [perform]
    refine changing_yields (Yields.bind (M := fun r m' => r.1 = some (tally es) ∧
      r.2.result = .ok () ∧ m'.dir.read (fileName id) = .ok (run es) ∧
      r.2.block.checksum? = some (RunningChecksum.ofFrames (es.map frame)).value) ?_
      fun _ _ hdone => Yields.pure ⟨hdone.2.1, congrArg Answer.sizes hdone.1, hdone.2.2⟩)
    refine Yields.bind (M := fun _ m' => m' = m) (Yields.ofExcept (require_ok rfl) rfl) ?_
    rintro _ _ rfl
    refine Yields.bind (Medium.closeFile_yields _ _) ?_
    rintro _ _ ⟨rfl, rfl⟩
    simp only [hok]
    exact Yields.pure ⟨rfl, rfl, hread, rfl⟩

theorem coheres_ofFile {m : Medium α} (hworks : m.dir.Works)
    (hformed : m.dir.WellFormed) (hname : SpillDir.isFileName (fileName id) = true)
    (store : StoreKind) :
    (ofFile id store).Yields m fun b m' => Coheres id [] (b, m') ∧ m'.codec = m.codec ∧
      m'.encodings = m.encodings := by
  obtain ⟨file, d, hcreate, hfile, hempty⟩ := SpillDir.create_yields hworks.blocked hname
  obtain ⟨hlt, hcontent⟩ := hempty hformed
  have hkept := SpillDir.create_kept (fileName id) m.dir
  rw [hcreate] at hkept
  refine Yields.bind (M := fun file' m' => file' = file ∧ m' = { m with dir := d })
    (Yields.within ⟨file, d, hcreate, rfl, rfl⟩) ?_
  rintro _ _ ⟨rfl, rfl⟩
  refine Yields.pure ⟨.intro nofun (hkept.refusals.trans hworks) hfile ⟨hlt, ?_, ?_⟩, rfl, rfl⟩
  · rw [hcontent]
  · rw [hcontent]
    rfl

/-! ## Runs -/

/-- Calls that add to a block or seal its partitions. -/
def Operation.appends : Operation α → Bool
  | .write .. | .commitPartitions => true
  | _ => false

variable {v : View α}

/-- One call changes what the block tells of as it changes the view. -/
theorem perform_coheres (h : Coheres id v.accepted s) (hopen : v.state = .opened)
    {op : Operation α} (hop : op.appends = true) :
    let told := v.step (s.2.codec.framed s.2.encodings) op
    let s' := (perform op s).2
    (perform op s).1 = Kind.file.answer id told.1 ∧ Coheres id told.2.accepted s' ∧
      told.2.state = .opened ∧ s'.2.codec = s.2.codec ∧
      s'.2.encodings = s.2.encodings + v.offered op := by
  cases op with
  | commit | spill | read => cases hop
  | commitPartitions =>
    obtain ⟨_, s', hperform, rfl, hafter, hcodec, hcount⟩ := h.commitPartitions
    rw [hperform, View.step, if_pos hopen]
    exact ⟨rfl, hafter, hopen, hcodec, hcount⟩
  | write key x =>
    have hoffered : v.offered (.write key x) = 1 := if_pos hopen
    rw [View.step, if_pos hopen, hoffered]
    cases hframed : s.2.codec.framed s.2.encodings x with
    | ok payload =>
      obtain ⟨_, s', hperform, rfl, hafter, hcodec, hcount⟩ := h.write key hframed
      rw [hperform]
      exact ⟨rfl, hafter, hopen, hcodec, hcount⟩
    | error fault =>
      rw [h.write_error hframed]
      exact ⟨rfl, h.offered _, hopen, rfl, rfl⟩

/-- So do all calls one after the other. -/
theorem performAll_coheres (ops : List (Operation α)) (hops : ∀ op ∈ ops, op.appends = true)
    (h : Coheres id v.accepted s) (hopen : v.state = .opened) :
    let told := v.run s.2.codec.framed s.2.encodings ops
    let s' := (performAll ops s).2
    (performAll ops s).1 = told.1.map (Kind.file.answer id) ∧ Coheres id told.2.accepted s' ∧
      s'.2.codec = s.2.codec := by
  induction ops generalizing v s with
  | nil => exact ⟨rfl, h, rfl⟩
  | cons op ops ih =>
    obtain ⟨hop, hops⟩ := List.forall_mem_cons.mp hops
    obtain ⟨hanswer, hfirst, hstill, hcodec, hcount⟩ := perform_coheres h hopen hop
    obtain ⟨hanswers, hrest, hcodecs⟩ := ih hops hfirst hstill
    rw [hcodec, hcount] at hanswers hrest
    exact ⟨congrArg₂ List.cons hanswer hanswers, hrest, hcodecs.trans hcodec⟩

/-- The size of a partition is the room that its frames take in a run. -/
theorem lookup_tally_frames (es : List (Entry α)) (key : PartitionKey) :
    (tally es).lookup key =
      let own := (es.map frame).filter (·.key = key)
      if own = [] then none else some (UInt64.ofNat (own.map Frame.bytes).flatten.length) := by
  have hlength (es : List (Entry α)) : (es.map fun e => 12 + e.payload.length).sum =
      ((es.map frame).map Frame.bytes).flatten.length := by
    rw [List.length_flatten, List.map_map, List.map_map]
    exact congrArg List.sum (List.map_congr_left fun e _ => e.frame.length_bytes.symm)
  rw [lookup_tally, filter_frames, hlength]
  simp only [List.map_eq_nil_iff]

/-- A new block on disk that is given elements, has its partitions sealed any number of times and is
committed: its file is the frames of the elements that were taken, in the order of their writes, the
sizes are the room that the frames of each partition take in it and add up to its length, and the
checksum is that of the frames that the file is read as. An element that makes no frame leaves file,
sizes and checksum as they were. -/
theorem performAll_keeps_coherent {m : Medium α} (hworks : m.dir.Works)
    (hformed : m.dir.WellFormed) (hname : SpillDir.isFileName (fileName id) = true)
    (store : StoreKind) {ops : List (Operation α)} (hops : ∀ op ∈ ops, op.appends = true) :
    ∃ b₀ m₀, ofFile id store m = (.ok b₀, m₀) ∧
      let told := View.run m.codec.framed m.encodings {} ops
      let frames := told.2.accepted.map frame
      let s := (performAll ops (b₀, m₀)).2
      (performAll ops (b₀, m₀)).1 = told.1.map (Kind.file.answer id) ∧
      (∀ key x fault, m.codec.framed s.2.encodings x = .error fault →
        perform (.write key x) s =
          (.error fault, s.1, { s.2 with encodings := s.2.encodings + 1 })) ∧
      ∃ sizes b m' bytes, perform .commit s = (.ok (.sizes (some sizes)), b, m') ∧
        m'.dir.read (fileName id) = .ok bytes ∧
        bytes = (frames.map Frame.bytes).flatten ∧
        Frame.decodeAll bytes = .ok frames ∧
        sizes.total = UInt64.ofNat bytes.length ∧
        (∀ key, let own := frames.filter (·.key = key)
          sizes.lookup key = if own = [] then none
            else some (UInt64.ofNat (own.map Frame.bytes).flatten.length)) ∧
        b.checksum? = some (RunningChecksum.ofFrames frames).value := by
  obtain ⟨b₀, m₀, hmake, hfresh, hcodec, hcount⟩ := coheres_ofFile hworks hformed hname store
  refine ⟨b₀, m₀, hmake, ?_⟩
  intro told frames s
  obtain ⟨hanswers, hafter, hcodecs⟩ :=
    performAll_coheres (v := {}) ops hops hfresh rfl
  rw [hcodec, hcount] at hanswers hafter
  refine ⟨hanswers, fun key x fault hframed => ?_, ?_⟩
  · refine hafter.write_error ?_
    rw [hcodecs, hcodec]
    exact hframed
  · obtain ⟨_, ⟨b, m'⟩, hcommit, rfl, hread, hchecksum⟩ := hafter.commit
    have hrun : run told.2.accepted = (frames.map Frame.bytes).flatten := by
      rw [List.map_map]
      rfl
    refine ⟨tally told.2.accepted, b, m', _, hcommit, hread, hrun, ?_,
      total_tally told.2.accepted, lookup_tally_frames told.2.accepted, hchecksum⟩
    rw [hrun]
    refine Frame.decodeAll_flatten frames fun f hf => ?_
    obtain ⟨e, he, rfl⟩ := List.mem_map.mp hf
    exact hafter.fits e he

/-- Two elements under one key and one under another, and one that cannot be encoded. -/
theorem performAll_keeps_coherent_failing :
    let codec := (Codec.json : Codec Bool).failingEncode 2
    let m : Medium Bool := { codec }
    let id : BlockId := ⟨"e-t"⟩
    let ops : List (Operation Bool) :=
      [.write 1 true, .write 1 false, .commitPartitions, .write 0 false, .write 1 true]
    let frames : List Frame := [⟨1, utf8 "true"⟩, ⟨0, utf8 "false"⟩, ⟨1, utf8 "true"⟩]
    m.dir.Works ∧ m.dir.WellFormed ∧ SpillDir.isFileName (fileName id) = true ∧
      (∀ op ∈ ops, op.appends = true) ∧
      ∃ b₀ m₀, ofFile id .localFile m = (.ok b₀, m₀) ∧
        (performAll ops (b₀, m₀)).1 = [.ok .done, .error .codec, .ok .done, .ok .done, .ok .done] ∧
        ∃ sizes b m' bytes, perform .commit (performAll ops (b₀, m₀)).2 =
            (.ok (.sizes (some sizes)), b, m') ∧
          m'.dir.read (fileName id) = .ok bytes ∧ Frame.decodeAll bytes = .ok frames ∧
          bytes.length = 49 ∧ sizes.total = 49 ∧ sizes.lookup 0 = some 17 ∧
          sizes.lookup 1 = some 32 ∧ sizes.lookup 2 = none ∧
          b.checksum? = some (RunningChecksum.ofFrames frames).value := by
  intro codec m id ops frames
  have hname : SpillDir.isFileName (fileName id) = true := by decide +kernel
  have hformed : m.dir.WellFormed := .of_unnamed rfl
  have hops : ∀ op ∈ ops, op.appends = true := by simp [ops, Operation.appends]
  obtain ⟨b₀, m₀, hmake, hanswers, -, sizes, b, m', bytes, hcommit, hread, hbytes, hdecode, htotal,
    hsizes, hchecksum⟩ := performAll_keeps_coherent (m := m) rfl hformed hname .localFile hops
  have htold : (View.run m.codec.framed m.encodings {} ops).2.accepted.map frame = frames := rfl
  rw [htold] at hbytes hdecode hsizes hchecksum
  have hlength : bytes.length = 49 := by
    rw [hbytes]
    rfl
  refine ⟨rfl, hformed, hname, hops, b₀, m₀, hmake, hanswers, sizes, b, m', bytes, hcommit, hread,
    hdecode, hlength, ?_, hsizes 0, hsizes 1, hsizes 2, hchecksum⟩
  rw [htotal, hlength]
  rfl

end Block

end ShuffleBuffer
