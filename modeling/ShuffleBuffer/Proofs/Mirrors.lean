import ShuffleBuffer.Proofs.Handles

/-! # Two blocks side by side

One block lives in two places: at different times, or in directories that number their files
differently. As long as the codec answers to each element as before, both do the same with what they
are asked, and find the same in their files. So what a block does depends on nothing but itself and
the file of its own name. -/

namespace ShuffleBuffer

namespace Step

variable {σ τ α β : Type}

/-- Two outcomes of one sort: two answers, or the same fault. -/
inductive Agree (Q : α → α → σ → σ → Prop) (E : σ → σ → Prop) :
    Except Fault α × σ → Except Fault α × σ → Prop
  | ok {a a' : α} {s s' : σ} : Q a a' s s' → Agree Q E (.ok a, s) (.ok a', s')
  | error {fault : Fault} {s s' : σ} : E s s' → Agree Q E (.error fault, s) (.error fault, s')

/-- Where there is nothing to answer, the outcomes differ in the states alone. -/
theorem Agree.same {E : σ → σ → Prop} {outcome outcome' : Except Fault Unit × σ}
    (h : Agree (fun _ _ => E) E outcome outcome') :
    outcome'.1 = outcome.1 ∧ E outcome.2 outcome'.2 := by
  cases h with
  | ok h => exact ⟨rfl, h⟩
  | error h => exact ⟨rfl, h⟩

/-- From two states of which `P` holds both steps come to outcomes of one sort. -/
def Mirrors (P : σ → σ → Prop) (x x' : Step σ α) (Q : α → α → σ → σ → Prop)
    (E : σ → σ → Prop) : Prop :=
  ∀ s s', P s s' → Agree Q E (x s) (x' s')

section Mirrors

variable {P P' E E' : σ → σ → Prop} {Q Q' : α → α → σ → σ → Prop} {R : β → β → σ → σ → Prop}
  {x x' : Step σ α}

theorem Mirrors.weaken (h : Mirrors P' x x' Q' E') (hP : ∀ s s', P s s' → P' s s')
    (hQ : ∀ a a' s s', Q' a a' s s' → Q a a' s s') (hE : ∀ s s', E' s s' → E s s') :
    Mirrors P x x' Q E := by
  intro s s' hs
  have hstep := h s s' (hP s s' hs)
  generalize x s = outcome at hstep ⊢
  generalize x' s' = outcome' at hstep ⊢
  cases hstep with
  | ok ha => exact .ok (hQ _ _ _ _ ha)
  | error he => exact .error (hE _ _ he)

theorem Mirrors.pure {a a' : α} (h : ∀ s s', P s s' → Q a a' s s') :
    Mirrors P (pure a) (pure a') Q E := fun s s' hs => .ok (h s s' hs)

theorem Mirrors.fail {fault : Fault} (h : ∀ s s', P s s' → E s s') :
    Mirrors P (Step.fail fault : Step σ α) (Step.fail fault) Q E := fun s s' hs => .error (h s s' hs)

theorem Mirrors.modify {f f' : σ → σ} {Q : Unit → Unit → σ → σ → Prop}
    (h : ∀ s s', P s s' → Q () () (f s) (f' s')) :
    Mirrors P (Step.modify f) (Step.modify f') Q E := fun s s' hs => .ok (h s s' hs)

theorem Mirrors.bind {f f' : α → Step σ β} (hx : Mirrors P x x' Q E)
    (hf : ∀ a a', Mirrors (Q a a') (f a) (f' a') R E) :
    Mirrors P (x >>= f) (x' >>= f') R E := by
  intro s s' hs
  have hstep := hx s s' hs
  rw [bind_apply, bind_apply]
  generalize x s = outcome at hstep ⊢
  generalize x' s' = outcome' at hstep ⊢
  cases hstep with
  | ok ha => exact hf _ _ _ _ ha
  | error he => exact .error he

/-- What is known already is the same for both. -/
theorem Mirrors.ofExcept {result : Except Fault α}
    (hok : ∀ a s s', P s s' → Q a a s s') (herror : ∀ s s', P s s' → E s s') :
    Mirrors P (Step.ofExcept result) (Step.ofExcept result) Q E := by
  intro s s' hs
  cases result with
  | ok a => exact .ok (hok a s s' hs)
  | error fault => exact .error (herror s s' hs)

theorem Mirrors.ofExcept_bind {result : Except Fault α} {f f' : α → Step σ β}
    (hf : ∀ a, Mirrors P (f a) (f' a) R E) (herror : ∀ s s', P s s' → E s s') :
    Mirrors P (Step.ofExcept result >>= f) (Step.ofExcept result >>= f') R E := by
  cases result with
  | ok a => exact hf a
  | error fault => exact fun s s' hs => .error (herror s s' hs)

theorem Mirrors.map {f : α → β} (h : Mirrors P x x' (fun a a' => R (f a) (f a')) E) :
    Mirrors P (f <$> x) (f <$> x') R E :=
  Mirrors.bind h fun _ _ => Mirrors.pure fun _ _ h => h

/-- Steps on a part mirror each other on the whole where they do on the part. -/
theorem Mirrors.within {part : σ → τ} {put : τ → σ → σ} {x x' : Step τ α}
    (h : ∀ s s', P s s' → Agree (fun a a' t t' => Q a a' (put t s) (put t' s'))
      (fun t t' => E (put t s) (put t' s')) (x (part s)) (x' (part s'))) :
    Mirrors P (x.within part put) (x'.within part put) Q E := by
  intro s s' hs
  have hstep := h s s' hs
  rw [Step.within, Step.within]
  generalize x (part s) = outcome at hstep ⊢
  generalize x' (part s') = outcome' at hstep ⊢
  cases hstep with
  | ok ha => exact .ok ha
  | error he => exact .error he

theorem Mirrors.onFault {undo undo' : σ → σ}
    (h : Mirrors P x x' Q fun s s' => E (undo s) (undo' s')) :
    Mirrors P (x.onFault undo) (x'.onFault undo') Q E := by
  intro s s' hs
  have hstep := h s s' hs
  rw [Step.onFault, Step.onFault]
  generalize x s = outcome at hstep ⊢
  generalize x' s' = outcome' at hstep ⊢
  cases hstep with
  | ok ha => exact .ok ha
  | error he => exact .error he

theorem Mirrors.always {finish finish' : σ → σ}
    (h : Mirrors P x x' (fun a a' s s' => Q a a' (finish s) (finish' s'))
      fun s s' => E (finish s) (finish' s')) :
    Mirrors P (x.always finish) (x'.always finish') Q E := by
  intro s s' hs
  have hstep := h s s' hs
  rw [Step.always, Step.always]
  generalize x s = outcome at hstep ⊢
  generalize x' s' = outcome' at hstep ⊢
  cases hstep with
  | ok ha => exact .ok ha
  | error he => exact .error he

theorem Mirrors.ite {p : Prop} [Decidable p] {y y' : Step σ α} (hx : Mirrors P x x' Q E)
    (hy : Mirrors P y y' Q E) :
    Mirrors P (if p then x else y) (if p then x' else y') Q E := by
  split
  · exact hx
  · exact hy

/-- A fact that has nothing to do with the states. -/
theorem Mirrors.given {p : Prop} (h : p → Mirrors P x x' Q E) :
    Mirrors (fun s s' => p ∧ P s s') x x' Q E := fun s s' hs => h hs.1 s s' hs.2

end Mirrors

end Step

open Step

/-! ## Files -/

namespace OpenFile

/-- Two files that are open at the same place, with the same before it and in their buffers. -/
structure Twin (h h' : OpenFile) (d d' : SpillDir) : Prop where
  refusals : d'.toRefusals = d.toRefusals
  offset : h'.offset = h.offset
  buffer : h'.buffer = h.buffer
  there : h.file < d.contents.length
  there' : h'.file < d'.contents.length
  content : d'.content h'.file = d.content h.file

variable {h h' : OpenFile} {d d' : SpillDir}

/-- The same is in them, whichever way their numbers are told. -/
theorem Twin.content_of (htwin : h.Twin h' d d') {f f' : FileId} (hfile : h.file = f)
    (hfile' : h'.file = f') : d'.content f' = d.content f := by
  rw [← hfile, ← hfile']
  exact htwin.content

theorem Twin.room (htwin : h.Twin h' d d') (count : Nat) :
    d'.room h'.offset count = d.room h.offset count := by
  rw [SpillDir.room, SpillDir.room, htwin.offset,
    show d'.limit = d.limit from congrArg (·.limit) htwin.refusals]

/-- Neither file takes more of the bytes than the other. -/
theorem Twin.rest (htwin : h.Twin h' d d') (bytes : Bytes) :
    h'.rest bytes d' = h.rest bytes d := by
  rw [OpenFile.rest, OpenFile.rest, htwin.room]

theorem Twin.emit (htwin : h.Twin h' d d') (bytes : Bytes) :
    (h.emit bytes d).1.Twin (h'.emit bytes d').1 (h.emit bytes d).2 (h'.emit bytes d').2 := by
  unfold OpenFile.emit
  rw [htwin.room]
  dsimp only
  split
  · exact htwin
  · refine ⟨htwin.refusals, congrArg (· + _) htwin.offset, htwin.buffer, ?_, ?_, ?_⟩
    · exact (SpillDir.writes_setContent d _ _).length ▸ htwin.there
    · exact (SpillDir.writes_setContent d' _ _).length ▸ htwin.there'
    · show (d'.setContent h'.file _).content h'.file = (d.setContent h.file _).content h.file
      rw [SpillDir.content_setContent htwin.there, SpillDir.content_setContent htwin.there',
        htwin.content, htwin.offset]

theorem Twin.flush (htwin : h.Twin h' d d') :
    (h.flush d).1.Twin (h'.flush d').1 (h.flush d).2 (h'.flush d').2 := by
  have hemit := htwin.emit h.buffer
  unfold OpenFile.flush
  rw [htwin.buffer]
  exact ⟨hemit.refusals, hemit.offset, htwin.rest _, hemit.there, hemit.there', hemit.content⟩

theorem Twin.flushed (htwin : h.Twin h' d d') : h'.flushed = h.flushed := by
  rw [OpenFile.flushed, OpenFile.flushed, htwin.buffer]

theorem Twin.write (htwin : h.Twin h' d d') (bytes : Bytes) :
    (h'.write bytes d').1.2 = (h.write bytes d).1.2 ∧
      (h.write bytes d).1.1.Twin (h'.write bytes d').1.1 (h.write bytes d).2
        (h'.write bytes d').2 := by
  have hflush := htwin.flush
  unfold OpenFile.write
  rw [htwin.buffer]
  split
  · exact ⟨rfl, htwin.refusals, htwin.offset, rfl, htwin.there, htwin.there', htwin.content⟩
  · dsimp only
    rw [hflush.flushed]
    split
    · exact ⟨rfl, hflush⟩
    · split
      · exact ⟨rfl, hflush.refusals, hflush.offset, rfl, hflush.there, hflush.there',
          hflush.content⟩
      · exact ⟨congrArg told (hflush.rest bytes), hflush.emit bytes⟩

/-- They are closed alike. -/
theorem Twin.close (htwin : h.Twin h' d d') :
    (h'.close d').1 = (h.close d).1 ∧
      (h'.close d').2.content h'.file = (h.close d).2.content h.file := by
  have hflush := htwin.flush
  have hflush' := hflush.flush
  have hsync : (h'.flush d').2.sync = (h.flush d).2.sync := by
    rw [SpillDir.sync, SpillDir.sync, show (h'.flush d').2.unsynced = (h.flush d).2.unsynced from
      congrArg (·.unsynced) hflush.refusals]
  have hfile := (flush_file (h.flush d).1 (h.flush d).2).1.trans (flush_file h d).1
  have hfile' := (flush_file (h'.flush d').1 (h'.flush d').2).1.trans (flush_file h' d').1
  unfold OpenFile.close
  dsimp only
  rw [hflush.flushed, hsync]
  exact ⟨rfl, hflush'.content_of hfile hfile'⟩

/-- Two files that are open at the same place with the same in their buffers. -/
structure Level (h h' : OpenFile) : Prop where
  offset : h'.offset = h.offset
  buffer : h'.buffer = h.buffer

/-- Two open files, later, which are still the same files and level. -/
structure Later (h h' g g' : OpenFile) : Prop extends Level g g' where
  file : g.file = h.file
  file' : g'.file = h'.file

end OpenFile

variable {α : Type}

/-- A codec that encodes an element in the same way whatever was encoded before. -/
def Codec.Steady (codec : Codec α) : Prop :=
  ∀ (earlier earlier' : Nat) (x : α), codec.encode earlier x = codec.encode earlier' x

namespace Medium

/-- Two media of one steady codec with the same file under a name. If files are held open for it,
they are the ones of this name. -/
structure Twin (name : String) (held held' : Option FileId) (m m' : Medium α) : Prop where
  codec : m'.codec = m.codec
  steady : m.codec.Steady
  refusals : m'.dir.toRefusals = m.dir.toRefusals
  formed : m.dir.WellFormed
  formed' : m'.dir.WellFormed
  file : (m'.dir.names.lookup name).map m'.dir.content = (m.dir.names.lookup name).map m.dir.content
  held : ∀ file, held = some file → m.dir.names.lookup name = some file
  held' : ∀ file, held' = some file → m'.dir.names.lookup name = some file

variable {name : String} {held held' : Option FileId} {m m' : Medium α} {E : Medium α → Medium α → Prop}

/-- Nothing is said of held files any more. -/
theorem Twin.letGo (h : Twin name held held' m m') : Twin name none none m m' :=
  { h with held := nofun, held' := nofun }

theorem Twin.symm (h : Twin name held held' m m') : Twin name held' held m' m :=
  ⟨h.codec.symm, h.codec ▸ h.steady, h.refusals.symm, h.formed', h.formed, h.file.symm, h.held',
    h.held⟩

theorem Twin.trans {m'' : Medium α} {held'' : Option FileId} (h : Twin name held held' m m')
    (h' : Twin name held' held'' m' m'') : Twin name held held'' m m'' :=
  ⟨h'.codec.trans h.codec, h.steady, h'.refusals.trans h.refusals, h.formed, h'.formed',
    h'.file.trans h.file, h.held, h'.held'⟩

/-- Who leaves the file of this name alone leaves a twin. -/
theorem Twin.apart {m'' : Medium α} (h : Twin name held held' m m') (hkept : Kept m' m'')
    (hapart : SpillDir.Apart name m'.dir m''.dir) : Twin name held held' m m'' := by
  refine ⟨hkept.codec.trans h.codec, h.steady, hapart.refusals.trans h.refusals, h.formed,
    hapart.formed h.formed', ?_, h.held, fun file hfile => ?_⟩
  · rw [hapart.lookup, ← h.file]
    cases hname : m'.dir.names.lookup name with
    | none => rfl
    | some file => exact congrArg some (hapart.content file hname (h.formed'.inRange hname))
  · rw [hapart.lookup]
    exact h.held' file hfile

/-- The files that are held are open at the same place. -/
theorem Twin.opened {h h' : OpenFile} (htwin : Twin name (some h.file) (some h'.file) m m')
    (hlevel : h.Level h') : h.Twin h' m.dir m'.dir := by
  have hname := htwin.held h.file rfl
  have hname' := htwin.held' h'.file rfl
  have hfile := htwin.file
  rw [hname, hname'] at hfile
  exact ⟨htwin.refusals, hlevel.offset, hlevel.buffer, htwin.formed.inRange hname,
    htwin.formed'.inRange hname', Option.some.inj hfile⟩

/-- Both of two held files have been written to. -/
theorem Twin.written {d d' : SpillDir} {f f' : FileId} (h : Twin name (some f) (some f') m m')
    (hwrites : SpillDir.Writes f m.dir d) (hwrites' : SpillDir.Writes f' m'.dir d')
    (hcontent : d'.content f' = d.content f) :
    Twin name (some f) (some f') { m with dir := d } { m' with dir := d' } := by
  have hname := h.held f rfl
  have hname' := h.held' f' rfl
  rw [← hwrites.names] at hname
  rw [← hwrites'.names] at hname'
  refine ⟨h.codec, h.steady, ?_, hwrites.kept.formed h.formed, hwrites'.kept.formed h.formed', ?_,
    ?_, ?_⟩
  · exact hwrites'.refusals.trans (h.refusals.trans hwrites.refusals.symm)
  · show (d'.names.lookup name).map d'.content = (d.names.lookup name).map d.content
    rw [hname, hname']
    exact congrArg some hcontent
  · rintro _ ⟨⟩
    exact hname
  · rintro _ ⟨⟩
    exact hname'

/-- Both of two held files have been flushed. -/
theorem Twin.flushed {h h' : OpenFile} (htwin : Twin name (some h.file) (some h'.file) m m')
    (hlevel : h.Level h') :
    h.Later h' (h.flush m.dir).1 (h'.flush m'.dir).1 ∧
      Twin name (some h.file) (some h'.file) { m with dir := (h.flush m.dir).2 }
        { m' with dir := (h'.flush m'.dir).2 } := by
  have hstep := (htwin.opened hlevel).flush
  obtain ⟨hfile, hwrites⟩ := OpenFile.flush_file h m.dir
  obtain ⟨hfile', hwrites'⟩ := OpenFile.flush_file h' m'.dir
  exact ⟨⟨⟨hstep.offset, hstep.buffer⟩, hfile, hfile'⟩,
    htwin.written hwrites hwrites' (hstep.content_of hfile hfile')⟩

theorem encode_mirrors (x : α) :
    Mirrors (Twin name held held') (encode x) (encode x)
      (fun a a' m m' => a' = a ∧ Twin name held held' m m') (Twin name held held') := by
  intro m m' h
  have hsame : m'.codec.encode m'.encodings x = m.codec.encode m.encodings x := by
    rw [h.codec]
    exact h.steady _ _ x
  have htwin : Twin name held held' { m with encodings := m.encodings + 1 }
      { m' with encodings := m'.encodings + 1 } := { h with }
  rw [encode, encode, hsame]
  cases m.codec.encode m.encodings x with
  | ok bytes => exact .ok ⟨rfl, htwin⟩
  | error fault => exact .error htwin

theorem frame_mirrors (key : PartitionKey) (x : α) :
    Mirrors (Twin name held held') (frame key x) (frame key x)
      (fun a a' m m' => a' = a ∧ Twin name held held' m m') (Twin name held held') := by
  refine Mirrors.bind (encode_mirrors x) fun payload payload' => Mirrors.given ?_
  rintro rfl
  exact Mirrors.ofExcept_bind (fun _ => Mirrors.pure fun _ _ h => ⟨rfl, h⟩) fun _ _ h => h

theorem write_mirrors {h h' : OpenFile} (hlevel : h.Level h') (bytes : Bytes) :
    Mirrors (Twin (α := α) name (some h.file) (some h'.file)) (onFile (h.write bytes))
      (onFile (h'.write bytes))
      (fun r r' m m' => (r'.2 = r.2 ∧ h.Later h' r.1 r'.1) ∧
        Twin name (some h.file) (some h'.file) m m') E := by
  intro m m' htwin
  obtain ⟨hresult, hstep⟩ := (htwin.opened hlevel).write bytes
  obtain ⟨hfile, hwrites⟩ := OpenFile.write_file h bytes m.dir
  obtain ⟨hfile', hwrites'⟩ := OpenFile.write_file h' bytes m'.dir
  exact .ok ⟨⟨hresult, ⟨hstep.offset, hstep.buffer⟩, hfile, hfile'⟩,
    htwin.written hwrites hwrites' (hstep.content_of hfile hfile')⟩

theorem flush_mirrors {h h' : OpenFile} (hlevel : h.Level h') :
    Mirrors (Twin (α := α) name (some h.file) (some h'.file)) (onFile h.flush) (onFile h'.flush)
      (fun g g' m m' => h.Later h' g g' ∧ Twin name (some h.file) (some h'.file) m m') E :=
  fun _ _ htwin => .ok (htwin.flushed hlevel)

theorem closeFile_mirrors {h h' : OpenFile} (hlevel : h.Level h') :
    Mirrors (Twin (α := α) name (some h.file) (some h'.file)) (closeFile (some h))
      (closeFile (some h'))
      (fun r r' m m' => r' = r ∧ Twin name (some h.file) (some h'.file) m m') E := by
  intro m m' htwin
  obtain ⟨hresult, hcontent⟩ := (htwin.opened hlevel).close
  exact .ok ⟨hresult, htwin.written (OpenFile.close_file h m.dir) (OpenFile.close_file h' m'.dir)
    hcontent⟩

end Medium

/-! ## Blocks -/

/-- Two bodies that differ in the number of the file that they have open, if any. -/
inductive Body.Alike : Body α → Body α → Prop
  | values (pending : PartitionMap (List α)) (sealed : List (PartitionKey × List α)) :
      Alike (.values pending sealed) (.values pending sealed)
  | encoded (pending : PartitionMap (List Bytes)) (sealed : List (PartitionKey × Bytes))
      (sizes : PartitionSizes) : Alike (.encoded pending sealed sizes) (.encoded pending sealed sizes)
  | closed (sizes : PartitionSizes) (checksum : RunningChecksum) :
      Alike (.file none sizes checksum) (.file none sizes checksum)
  | opened {h h' : OpenFile} (sizes : PartitionSizes) (checksum : RunningChecksum) : h.Level h' →
      Alike (.file (some h) sizes checksum) (.file (some h') sizes checksum)

namespace Block

open Medium

structure Alike (b b' : Block α) : Prop where
  id : b'.id = b.id
  store : b'.store = b.store
  state : b'.state = b.state
  body : b.body.Alike b'.body

theorem Alike.refl (b : Block α) : b.Alike b := by
  refine ⟨rfl, rfl, rfl, ?_⟩
  cases b.body with
  | values pending sealed => exact .values pending sealed
  | encoded pending sealed sizes => exact .encoded pending sealed sizes
  | file handle sizes checksum =>
    cases handle with
    | none => exact .closed sizes checksum
    | some h => exact .opened sizes checksum ⟨rfl, rfl⟩

theorem Alike.symm {b b' : Block α} (h : b.Alike b') : b'.Alike b := by
  obtain ⟨id, store, state, body⟩ := b
  obtain ⟨id', store', state', body'⟩ := b'
  obtain ⟨hid, hstore, hstate, hbody⟩ := h
  refine ⟨hid.symm, hstore.symm, hstate.symm, ?_⟩
  cases hbody with
  | values pending sealed => exact .values pending sealed
  | encoded pending sealed sizes => exact .encoded pending sealed sizes
  | closed sizes checksum => exact .closed sizes checksum
  | opened sizes checksum hlevel =>
    exact .opened sizes checksum ⟨hlevel.offset.symm, hlevel.buffer.symm⟩

theorem Alike.trans {b b' b'' : Block α} (h : b.Alike b') (h' : b'.Alike b'') : b.Alike b'' := by
  obtain ⟨id, store, state, body⟩ := b
  obtain ⟨id', store', state', body'⟩ := b'
  obtain ⟨id'', store'', state'', body''⟩ := b''
  obtain ⟨hid, hstore, hstate, hbody⟩ := h
  obtain ⟨hid', hstore', hstate', hbody'⟩ := h'
  refine ⟨hid'.trans hid, hstore'.trans hstore, hstate'.trans hstate, ?_⟩
  cases hbody with
  | values | encoded | closed => exact hbody'
  | opened sizes checksum hlevel =>
    cases hbody' with
    | opened _ _ hlevel' =>
      exact .opened sizes checksum
        ⟨hlevel'.offset.trans hlevel.offset, hlevel'.buffer.trans hlevel.buffer⟩

theorem Alike.location {b b' : Block α} (h : b.Alike b') : b'.location = b.location := by
  obtain ⟨id, store, state, body⟩ := b
  obtain ⟨_, _, _, body'⟩ := b'
  obtain ⟨rfl, rfl, rfl, hbody⟩ := h
  cases hbody with
  | values | encoded | closed | opened => rfl

/-- They keep the same sizes, if any. -/
theorem Alike.sizes {b b' : Block α} (h : b.Alike b') :
    (match b'.body with
      | .encoded _ _ sizes => some sizes
      | _ => none) =
      match b.body with
      | .encoded _ _ sizes => some sizes
      | _ => none := by
  obtain ⟨id, store, state, body⟩ := b
  obtain ⟨_, _, _, body'⟩ := b'
  obtain ⟨rfl, rfl, rfl, hbody⟩ := h
  cases hbody with
  | values | encoded | closed | opened => rfl

/-- Two blocks, later: they have the files open that they had. -/
structure Later (b b' c c' : Block α) : Prop where
  alike : c.Alike c'
  id : c.id = b.id
  held : c.held = b.held
  held' : c'.held = b'.held

theorem Later.trans {d d' : Block α} {b b' c c' : Block α} (h : Later b b' c c')
    (h' : Later c c' d d') : Later b b' d d' :=
  ⟨h'.alike, h'.id.trans h.id, h'.held.trans h.held, h'.held'.trans h.held'⟩

/-- Two calls that change such blocks and come to the same. -/
structure Changes (b b' : Block α) (c c' : Changed α) : Prop
    extends Later b b' c.block c'.block where
  result : c'.result = c.result

/-- Two media with the file of this block, which is held if it is open. -/
def Around (b b' : Block α) : Medium α → Medium α → Prop :=
  Medium.Twin (fileName b.id) b.held b'.held

variable {b b' c c' : Block α} {m m' : Medium α}

theorem write_mirrors (h : b.Alike b') (key : PartitionKey) (x : α) :
    Mirrors (Around b b') (b.write key x) (b'.write key x)
      (fun c c' m m' => Changes b b' c c' ∧ Around b b' m m') (Around b b') := by
  obtain ⟨id, store, state, body⟩ := b
  obtain ⟨_, _, _, body'⟩ := b'
  obtain ⟨rfl, rfl, rfl, hbody⟩ := h
  refine Mirrors.ofExcept_bind (fun _ => ?_) fun _ _ h => h
  cases hbody with
  | values pending sealed => exact Mirrors.pure fun _ _ h => ⟨⟨⟨.refl _, rfl, rfl, rfl⟩, rfl⟩, h⟩
  | encoded pending sealed sizes =>
    refine Mirrors.bind (frame_mirrors key x) fun frame frame' => Mirrors.given ?_
    rintro rfl
    exact Mirrors.pure fun _ _ h => ⟨⟨⟨.refl _, rfl, rfl, rfl⟩, rfl⟩, h⟩
  | closed sizes checksum =>
    refine Mirrors.bind (frame_mirrors key x) fun frame frame' => Mirrors.given ?_
    rintro rfl
    exact Mirrors.pure fun _ _ h => ⟨⟨⟨.refl _, rfl, rfl, rfl⟩, rfl⟩, h⟩
  | @opened h h' sizes checksum hlevel =>
    refine Mirrors.bind (frame_mirrors key x) fun frame frame' => Mirrors.given ?_
    rintro rfl
    refine Mirrors.bind (Medium.write_mirrors hlevel _) fun r r' => Mirrors.given ?_
    obtain ⟨g, result⟩ := r
    obtain ⟨g', result'⟩ := r'
    rintro ⟨rfl, hlater⟩
    exact Mirrors.pure fun _ _ h => ⟨⟨⟨⟨rfl, rfl, rfl, .opened _ _ hlater.toLevel⟩, rfl,
      congrArg some hlater.file, congrArg some hlater.file'⟩, rfl⟩, h⟩

theorem commitPartitions_mirrors (h : b.Alike b') :
    Mirrors (Around b b') b.commitPartitions b'.commitPartitions
      (fun c c' m m' => Changes b b' c c' ∧ Around b b' m m') (Around b b') := by
  obtain ⟨id, store, state, body⟩ := b
  obtain ⟨_, _, _, body'⟩ := b'
  obtain ⟨rfl, rfl, rfl, hbody⟩ := h
  refine Mirrors.ofExcept_bind (fun _ => ?_) fun _ _ h => h
  cases hbody with
  | values pending sealed => exact Mirrors.pure fun _ _ h => ⟨⟨⟨.refl _, rfl, rfl, rfl⟩, rfl⟩, h⟩
  | encoded pending sealed sizes =>
    exact Mirrors.pure fun _ _ h => ⟨⟨⟨.refl _, rfl, rfl, rfl⟩, rfl⟩, h⟩
  | closed sizes checksum => exact Mirrors.fail fun _ _ h => h
  | @opened h h' sizes checksum hlevel =>
    refine Mirrors.bind (Medium.flush_mirrors hlevel) fun g g' => Mirrors.given fun hlater => ?_
    exact Mirrors.pure fun _ _ h => ⟨⟨⟨⟨rfl, rfl, rfl, .opened _ _ hlater.toLevel⟩, rfl,
      congrArg some hlater.file, congrArg some hlater.file'⟩,
      congrArg OpenFile.told hlater.buffer⟩, h⟩

theorem release_around (h : b.Alike b') (hm : Around b b' m m') :
    Around b b' (b.release m) (b'.release m') := by
  obtain ⟨id, store, state, body⟩ := b
  obtain ⟨_, _, _, body'⟩ := b'
  obtain ⟨rfl, rfl, rfl, hbody⟩ := h
  cases hbody with
  | values | encoded | closed => exact hm
  | opened sizes checksum hlevel => exact (Medium.Twin.flushed hm hlevel).2

theorem commit_mirrors (h : b.Alike b') :
    Mirrors (Around b b') b.commit b'.commit
      (fun r r' m m' => (r'.1 = r.1 ∧ r'.2.result = r.2.result ∧ r.2.block.Alike r'.2.block ∧
        r.2.block.id = b.id) ∧ Around b b' m m')
      (Around b b') := by
  have hsealed : ∀ c c' : Block α, Later b b' c c' →
      Block.Alike { c with state := .committed } { c' with state := .committed } :=
    fun _ _ hlater => ⟨hlater.alike.id, hlater.alike.store, rfl, hlater.alike.body⟩
  have hpartitions := commitPartitions_mirrors h
  obtain ⟨id, store, state, body⟩ := b
  obtain ⟨_, _, _, body'⟩ := b'
  obtain ⟨rfl, rfl, rfl, hbody⟩ := h
  unfold commit
  cases hbody with
  | values | encoded =>
    refine Mirrors.bind hpartitions fun c c' => Mirrors.given fun hc => ?_
    exact Mirrors.pure fun _ _ hm =>
      ⟨⟨hc.alike.sizes, hc.result, hsealed c.block c'.block hc.toLater, hc.id⟩, hm⟩
  | closed =>
    refine Mirrors.ofExcept_bind (fun _ => ?_) fun _ _ h => h
    exact Mirrors.pure fun _ _ hm => ⟨⟨rfl, rfl, ⟨rfl, rfl, rfl, .closed _ _⟩, rfl⟩, hm⟩
  | @opened h h' sizes checksum hlevel =>
    refine Mirrors.ofExcept_bind (fun _ => ?_) fun _ _ h => h
    refine Mirrors.bind (Medium.closeFile_mirrors hlevel) fun result result' => Mirrors.given ?_
    rintro rfl
    cases result' with
    | ok _ =>
      exact Mirrors.pure fun _ _ hm => ⟨⟨rfl, rfl, ⟨rfl, rfl, rfl, .closed _ _⟩, rfl⟩, hm⟩
    | error fault =>
      exact Mirrors.pure fun _ _ hm => ⟨⟨rfl, rfl, ⟨rfl, rfl, rfl, .closed _ _⟩, rfl⟩, hm⟩

theorem deleteFile_mirrors (h : b.Alike b') :
    Mirrors (Medium.Twin (fileName b.id) none none) b.deleteFile b'.deleteFile
      (fun _ _ => Medium.Twin (fileName b.id) none none)
      (Medium.Twin (fileName b.id) none none) := by
  unfold deleteFile
  rw [h.location]
  cases hlocation : b.location with
  | none => exact Mirrors.pure fun _ _ hm => hm
  | some name =>
    obtain rfl : name = fileName b.id := by
      rw [Block.location] at hlocation
      split at hlocation <;> cases hlocation
      rfl
    refine Mirrors.within fun m m' hm => ?_
    have hkept := SpillDir.remove_kept (fileName b.id) m.dir
    have hkept' := SpillDir.remove_kept (fileName b.id) m'.dir
    have hfile := hm.file
    have hlocked : m'.dir.locked = m.dir.locked := congrArg (·.locked) hm.refusals
    unfold SpillDir.remove at hkept hkept' ⊢
    cases hname : m.dir.names.lookup (fileName b.id) with
    | none =>
      cases hname' : m'.dir.names.lookup (fileName b.id) with
      | none => exact .error hm
      | some file' =>
        rw [hname, hname'] at hfile
        cases hfile
    | some file =>
      cases hname' : m'.dir.names.lookup (fileName b.id) with
      | none =>
        rw [hname, hname'] at hfile
        cases hfile
      | some file' =>
        dsimp only
        rw [hlocked]
        split
        · exact .error hm
        · next hfree =>
          simp only [hname, if_neg hfree] at hkept
          simp only [hname', hlocked, if_neg hfree] at hkept'
          refine .ok ⟨hm.codec, hm.steady, hm.refusals, hkept.formed hm.formed,
            hkept'.formed hm.formed', ?_,
            (fun _ hnone => by cases hnone), (fun _ hnone => by cases hnone)⟩
          dsimp only
          rw [lookup_filter_self, lookup_filter_self]
          rfl

/-- Whichever of two blocks is given up, its file is gone. -/
theorem spill_mirrors (h : b.Alike b') :
    Mirrors (Around b b') (do (← b.spill).deleteFile) (do (← b'.spill).deleteFile)
      (fun _ _ => Medium.Twin (fileName b.id) none none)
      (Medium.Twin (fileName b.id) none none) := by
  have hspill : Mirrors (Around b b') b.spill b'.spill
      (fun c c' m m' => (c.Alike c' ∧ c.id = b.id) ∧ Medium.Twin (fileName b.id) none none m m')
      (Medium.Twin (fileName b.id) none none) := by
    have hrelease : ∀ m m', Around b b' m m' → Around b b' (b.release m) (b'.release m') :=
      fun _ _ => release_around h
    obtain ⟨id, store, state, body⟩ := b
    obtain ⟨_, _, _, body'⟩ := b'
    obtain ⟨rfl, rfl, rfl, hbody⟩ := h
    refine Mirrors.ofExcept_bind (fun _ => ?_) fun _ _ h => h.letGo
    refine Mirrors.bind (Q := fun _ _ => Around _ _) (Mirrors.modify hrelease) fun _ _ => ?_
    refine Mirrors.pure fun _ _ hm => ⟨⟨⟨rfl, rfl, rfl, ?_⟩, rfl⟩, hm.letGo⟩
    cases hbody with
    | values => exact .values _ _
    | encoded => exact .encoded _ _ _
    | closed | opened => exact .closed _ _
  refine Mirrors.bind hspill fun c c' => Mirrors.given fun hc => ?_
  rw [← hc.2]
  exact deleteFile_mirrors hc.1

theorem ofFile_mirrors (id : BlockId) (store : StoreKind) :
    Mirrors (Medium.Twin (fileName id) none none) (ofFile (α := α) id store) (ofFile id store)
      (fun b b' m m' => (b.Alike b' ∧ b.id = id) ∧ Around b b' m m')
      (Medium.Twin (fileName id) none none) := by
  have hcreate : Mirrors (Medium.Twin (α := α) (fileName id) none none)
      (onDir (SpillDir.create (fileName id))) (onDir (SpillDir.create (fileName id)))
      (fun file file' => Medium.Twin (fileName id) (some file) (some file'))
      (Medium.Twin (fileName id) none none) := by
    refine Mirrors.within fun m m' hm => ?_
    have hblocked : m'.dir.blocked = m.dir.blocked := congrArg (·.blocked) hm.refusals
    by_cases hfree : m.dir.blocked = false ∧ SpillDir.isFileName (fileName id) = true
    · have hkept := SpillDir.create_kept (fileName id) m.dir
      have hkept' := SpillDir.create_kept (fileName id) m'.dir
      obtain ⟨file, d, hmade, hname, hempty⟩ := SpillDir.create_yields hfree.1 hfree.2
      obtain ⟨file', d', hmade', hname', hempty'⟩ :=
        SpillDir.create_yields (hblocked.trans hfree.1) hfree.2
      rw [hmade] at hkept ⊢
      rw [hmade'] at hkept' ⊢
      refine .ok ⟨hm.codec, hm.steady, ?_, hkept.formed hm.formed, hkept'.formed hm.formed', ?_,
        fun _ h => h ▸ hname, fun _ h => h ▸ hname'⟩
      · exact hkept'.refusals.trans (hm.refusals.trans hkept.refusals.symm)
      · dsimp only
        rw [hname, hname', Option.map_some, Option.map_some, (hempty hm.formed).2,
          (hempty' hm.formed').2]
    · have hrefused : ∀ d : SpillDir, d.blocked = m.dir.blocked →
          SpillDir.create (fileName id) d = (.error .io, d) := by
        intro d hd
        rw [SpillDir.create, if_pos]
        rw [hd]
        rcases not_and_or.mp hfree with htaken | hname
        · exact .inl (Bool.eq_true_of_not_eq_false htaken)
        · exact .inr hname
      rw [hrefused m.dir rfl, hrefused m'.dir hblocked]
      exact .error hm
  refine Mirrors.bind hcreate fun file file' => ?_
  exact Mirrors.pure fun _ _ hm => ⟨⟨⟨rfl, rfl, rfl, .opened _ _ ⟨rfl, rfl⟩⟩, rfl⟩, hm⟩

/-- The same is read from two blocks. -/
theorem readPartition_congr (h : b.Alike b') (hm : Medium.Twin (fileName b.id) none none m m')
    (key : PartitionKey) : b'.readPartition key m' = b.readPartition key m := by
  have hread : m'.dir.read (fileName b.id) = m.dir.read (fileName b.id) := by
    have hfile := hm.file
    rw [SpillDir.read, SpillDir.read]
    cases hname : m.dir.names.lookup (fileName b.id) with
    | none =>
      rw [hname, Option.map_none, Option.map_eq_none_iff] at hfile
      rw [hfile]
    | some file =>
      rw [hname, Option.map_some, Option.map_eq_some_iff] at hfile
      obtain ⟨file', hname', hcontent⟩ := hfile
      rw [hname']
      exact congrArg (fun content => Except.ok content.bytes) hcontent
  have hdecode : m'.decode = m.decode := by
    funext frames
    rw [Medium.decode, Medium.decode, hm.codec]
  obtain ⟨id, store, state, body⟩ := b
  obtain ⟨_, _, _, body'⟩ := b'
  obtain ⟨rfl, rfl, rfl, hbody⟩ := h
  cases hbody with
  | values | encoded =>
    simp only [Block.readPartition, Block.require, hdecode]
  | closed | opened =>
    simp only [Block.readPartition, Block.require, hdecode, hread]

end Block

end ShuffleBuffer
