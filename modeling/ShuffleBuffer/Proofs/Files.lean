import ShuffleBuffer.Proofs.Lookup
import ShuffleBuffer.Proofs.Steps
import ShuffleBuffer.SpillDir

/-! # Files of the spill directory

An open file that is only written at its end holds, with its buffer, everything that was written to
it without a fault; closed without a fault, it holds all of this. Who writes to a file changes no
other; who creates or removes a file under one name leaves the files of all other names alone. -/

namespace ShuffleBuffer

open Step

namespace SpillDir

/-- Names lead to different files that are there. -/
structure WellFormed (d : SpillDir) : Prop where
  inRange : ∀ {name file}, d.names.lookup name = some file → file < d.contents.length
  single : ∀ {name name' file}, d.names.lookup name = some file →
    d.names.lookup name' = some file → name = name'

theorem Works.blocked {d : SpillDir} (h : d.Works) : d.blocked = false := congrArg (·.blocked) h

theorem Works.locked {d : SpillDir} (h : d.Works) : d.locked = false := congrArg (·.locked) h

/-- A file takes everything. -/
theorem Works.room {d : SpillDir} (h : d.Works) (offset count : Nat) :
    d.room offset count = count := by
  rw [SpillDir.room, show d.limit = none from congrArg (·.limit) h]

theorem Works.sync {d : SpillDir} (h : d.Works) : d.sync = .ok () := by
  rw [SpillDir.sync, show d.unsynced = false from congrArg (·.unsynced) h]
  rfl

/-- Only the content of this file is another one. -/
structure Writes (file : FileId) (d d' : SpillDir) : Prop where
  refusals : d'.toRefusals = d.toRefusals
  names : d'.names = d.names
  length : d'.contents.length = d.contents.length
  others : ∀ other, other ≠ file → d'.content other = d.content other

variable {d d' d'' : SpillDir} {name other : String} {file : FileId}

theorem Writes.refl (file : FileId) (d : SpillDir) : Writes file d d :=
  ⟨rfl, rfl, rfl, fun _ _ => rfl⟩

theorem Writes.trans (h : Writes file d d') (h' : Writes file d' d'') : Writes file d d'' :=
  ⟨h'.refusals.trans h.refusals, h'.names.trans h.names, h'.length.trans h.length,
    fun other hne => (h'.others other hne).trans (h.others other hne)⟩

theorem content_setContent (h : file < d.contents.length) (content : FileContent) :
    (d.setContent file content).content file = content := by
  simp [SpillDir.content, setContent, List.getD, h]

theorem writes_setContent (d : SpillDir) (file : FileId) (content : FileContent) :
    Writes file d (d.setContent file content) := by
  refine ⟨rfl, rfl, by simp [setContent], fun other hne => ?_⟩
  simp [SpillDir.content, setContent, List.getD, Ne.symm hne]

/-- No name leads anywhere. -/
theorem WellFormed.of_unnamed (h : d.names = []) : d.WellFormed := by
  refine ⟨fun hname => ?_, fun hname _ => ?_⟩
  · rw [h] at hname
    cases hname
  · rw [h] at hname
    cases hname

theorem WellFormed.of_same (h : d.WellFormed) (hnames : d'.names = d.names)
    (hlength : d.contents.length ≤ d'.contents.length) : d'.WellFormed := by
  refine ⟨fun hname => ?_, fun hname hname' => ?_⟩
  · rw [hnames] at hname
    exact Nat.lt_of_lt_of_le (h.inRange hname) hlength
  · rw [hnames] at hname hname'
    exact h.single hname hname'

/-- A file that is there and does not have the name. -/
def Clear (name : String) (file : FileId) (d : SpillDir) : Prop :=
  file < d.contents.length ∧ d.names.lookup name ≠ some file

/-- A file that is there and has no other name, if it has one at all. -/
def Own (name : String) (file : FileId) (d : SpillDir) : Prop :=
  file < d.contents.length ∧ ∀ other, d.names.lookup other = some file → other = name

theorem Own.clear (h : Own other file d) (hne : other ≠ name) : Clear name file d :=
  ⟨h.1, fun hname => hne (h.2 name hname).symm⟩

/-- What every use of the directory keeps: files stay, and only new ones get names. -/
structure Kept (d d' : SpillDir) : Prop where
  refusals : d'.toRefusals = d.toRefusals
  formed : d.WellFormed → d'.WellFormed
  length : d.contents.length ≤ d'.contents.length
  names : ∀ {name file}, d'.names.lookup name = some file →
    d.names.lookup name = some file ∨ d.contents.length ≤ file

/-- What others do: the holder of the name finds its file as it was. -/
structure Apart (name : String) (d d' : SpillDir) : Prop where
  refusals : d'.toRefusals = d.toRefusals
  formed : d.WellFormed → d'.WellFormed
  length : d.contents.length ≤ d'.contents.length
  lookup : d'.names.lookup name = d.names.lookup name
  content : ∀ file, d.names.lookup name = some file → file < d.contents.length →
    d'.content file = d.content file

theorem Kept.refl (d : SpillDir) : Kept d d :=
  ⟨rfl, fun h => h, Nat.le_refl _, fun h => .inl h⟩

theorem Kept.trans (h : Kept d d') (h' : Kept d' d'') : Kept d d'' := by
  refine ⟨h'.refusals.trans h.refusals, fun hd => h'.formed (h.formed hd),
    Nat.le_trans h.length h'.length, fun hname => ?_⟩
  obtain hold | hnew := h'.names hname
  · exact h.names hold
  · exact .inr (Nat.le_trans h.length hnew)

theorem Kept.own (h : Kept d d') (hown : Own name file d) : Own name file d' := by
  refine ⟨Nat.lt_of_lt_of_le hown.1 h.length, fun other hother => ?_⟩
  obtain hold | hnew := h.names hother
  · exact hown.2 other hold
  · exact absurd hown.1 (Nat.not_lt.mpr hnew)

theorem Apart.refl (name : String) (d : SpillDir) : Apart name d d :=
  ⟨rfl, fun h => h, Nat.le_refl _, rfl, fun _ _ _ => rfl⟩

theorem Apart.trans (h : Apart name d d') (h' : Apart name d' d'') : Apart name d d'' := by
  refine ⟨h'.refusals.trans h.refusals, fun hd => h'.formed (h.formed hd),
    Nat.le_trans h.length h'.length, h'.lookup.trans h.lookup, fun file hname hlt => ?_⟩
  rw [h'.content file (h.lookup.trans hname) (Nat.lt_of_lt_of_le hlt h.length),
    h.content file hname hlt]

theorem Writes.kept (h : Writes file d d') : Kept d d' :=
  ⟨h.refusals, fun hd => hd.of_same h.names (Nat.le_of_eq h.length.symm),
    Nat.le_of_eq h.length.symm, fun hname => .inl (h.names ▸ hname)⟩

theorem Writes.apart (h : Writes file d d') (hclear : Clear name file d) : Apart name d d' := by
  refine ⟨h.refusals, fun hd => hd.of_same h.names (Nat.le_of_eq h.length.symm),
    Nat.le_of_eq h.length.symm, by rw [h.names], ?_⟩
  intro held hname _
  refine h.others held ?_
  rintro rfl
  exact hclear.2 hname

/-! ## Creating and removing -/

/-- Where files can be created, a new or emptied file gets the name. -/
theorem create_yields (hblocked : d.blocked = false) (hname : isFileName name = true) :
    Yields (create name) d fun file d' => d'.names.lookup name = some file ∧
      (d.WellFormed → file < d'.contents.length ∧ d'.content file = {}) := by
  unfold create Yields
  simp only [hblocked, hname, not_true_eq_false, or_self, if_false, Bool.false_eq_true]
  cases hfound : d.names.lookup name with
  | some file =>
    refine ⟨file, _, rfl, hfound, fun hd => ?_⟩
    have hlt := hd.inRange hfound
    exact ⟨by simpa [setContent] using hlt, content_setContent hlt {}⟩
  | none =>
    refine ⟨_, _, rfl, List.lookup_cons_self, fun _ => ?_⟩
    simp [SpillDir.content, List.getD]

theorem create_kept (name : String) (d : SpillDir) : Kept d (create name d).2 := by
  unfold create
  split
  · exact Kept.refl d
  · cases hfound : d.names.lookup name with
    | some file => exact (writes_setContent d file {}).kept
    | none =>
      refine ⟨rfl, fun hd => ⟨fun {other file} hother => ?_, fun {n n' file} hn hn' => ?_⟩,
        by simp, fun {other file} hother => ?_⟩
      · by_cases heq : other = name
        · subst heq
          rw [List.lookup_cons_self] at hother
          simp [← Option.some.inj hother]
        · rw [lookup_cons_ne heq] at hother
          simpa using Nat.lt_succ_of_lt (hd.inRange hother)
      · -- the new file is beyond all that had a name before
        by_cases heq : n = name
        · by_cases heq' : n' = name
          · exact heq.trans heq'.symm
          · subst heq
            rw [List.lookup_cons_self] at hn
            rw [lookup_cons_ne heq'] at hn'
            have hlt := hd.inRange hn'
            rw [← Option.some.inj hn] at hlt
            exact absurd hlt (Nat.lt_irrefl _)
        · rw [lookup_cons_ne heq] at hn
          by_cases heq' : n' = name
          · subst heq'
            rw [List.lookup_cons_self] at hn'
            have hlt := hd.inRange hn
            rw [← Option.some.inj hn'] at hlt
            exact absurd hlt (Nat.lt_irrefl _)
          · rw [lookup_cons_ne heq'] at hn'
            exact hd.single hn hn'
      · by_cases heq : other = name
        · subst heq
          rw [List.lookup_cons_self] at hother
          exact .inr (Nat.le_of_eq (Option.some.inj hother))
        · rw [lookup_cons_ne heq] at hother
          exact .inl hother

/-- The file that is created or emptied has the name and no other. -/
theorem create_own (hd : d.WellFormed) (hcreate : (create name d).1 = .ok file) :
    Own name file (create name d).2 := by
  have hformed := (create_kept name d).formed hd
  have hname : (create name d).2.names.lookup name = some file := by
    unfold create at hcreate ⊢
    split at hcreate
    · cases hcreate
    · next hfree =>
      rw [if_neg hfree]
      cases hfound : d.names.lookup name with
      | some found =>
        rw [hfound] at hcreate
        cases hcreate
        exact hfound
      | none =>
        rw [hfound] at hcreate
        cases hcreate
        exact List.lookup_cons_self
  exact ⟨hformed.inRange hname, fun other hother => hformed.single hother hname⟩

theorem create_apart (hne : other ≠ name) (hd : d.WellFormed) :
    Apart name d (create other d).2 := by
  have hkept := create_kept other d
  revert hkept
  unfold create
  split
  · exact fun _ => Apart.refl name d
  · cases hfound : d.names.lookup other with
    | some file =>
      intro _
      refine (writes_setContent d file {}).apart ⟨hd.inRange hfound, fun hname => hne ?_⟩
      exact hd.single hfound hname
    | none =>
      intro hkept
      refine ⟨rfl, hkept.formed, by simp, lookup_cons_ne (Ne.symm hne), fun file _ hlt => ?_⟩
      simp [SpillDir.content, List.getD, List.getElem?_append_left hlt]

theorem remove_yields (hworks : d.Works) (hname : d.names.lookup name = some file) :
    remove name d = (.ok (), { d with names := d.names.filter (·.1 ≠ name) }) := by
  simp only [remove, hname, hworks.locked, Bool.false_eq_true, if_false]

/-- A name that is taken away leads nowhere, all others lead where they did. -/
theorem remove_kept (name : String) (d : SpillDir) : Kept d (remove name d).2 := by
  unfold remove
  split
  · split
    · exact Kept.refl d
    · have hold : ∀ {n file}, (d.names.filter (·.1 ≠ name)).lookup n = some file →
          d.names.lookup n = some file := by
        intro n file hn
        by_cases heq : n = name
        · rw [heq, lookup_filter_self] at hn
          cases hn
        · rwa [lookup_filter_ne _ heq] at hn
      refine ⟨rfl, fun hd => ⟨fun hn => hd.inRange (hold hn), fun hn hn' => ?_⟩, Nat.le_refl _,
        fun hn => .inl (hold hn)⟩
      exact hd.single (hold hn) (hold hn')
  · exact Kept.refl d

theorem remove_apart (hne : other ≠ name) : Apart name d (remove other d).2 := by
  have hkept := remove_kept other d
  revert hkept
  unfold remove
  split
  · split
    · exact fun _ => Apart.refl name d
    · intro hkept
      exact ⟨rfl, hkept.formed, Nat.le_refl _, lookup_filter_ne _ (Ne.symm hne), fun _ _ _ => rfl⟩
  · exact fun _ => Apart.refl name d

end SpillDir

namespace OpenFile

open SpillDir

variable {d : SpillDir} {run : Bytes}

/-- The file holds `run`, as far as it is not in the buffer, and is written at its end. -/
structure Appends (h : OpenFile) (d : SpillDir) (run : Bytes) : Prop where
  there : h.file < d.contents.length
  atEnd : h.offset = (d.content h.file).size
  holds : (d.content h.file).bytes ++ h.buffer = run

theorem emit_file (h : OpenFile) (bytes : Bytes) (d : SpillDir) :
    (h.emit bytes d).1.file = h.file ∧ (h.emit bytes d).1.buffer = h.buffer ∧
      Writes h.file d (h.emit bytes d).2 := by
  unfold emit
  dsimp only
  split
  · exact ⟨rfl, rfl, Writes.refl _ d⟩
  · exact ⟨rfl, rfl, writes_setContent d _ _⟩

/-- What is taken of the bytes goes to the end of the file, and nothing is lost of the rest. -/
theorem emit_spec {h : OpenFile} (hthere : h.file < d.contents.length)
    (hend : h.offset = (d.content h.file).size) (bytes : Bytes) :
    (h.emit bytes d).1.offset = ((h.emit bytes d).2.content h.file).size ∧
      ((h.emit bytes d).2.content h.file).bytes ++ h.rest bytes d =
        (d.content h.file).bytes ++ bytes := by
  have hsplit := List.take_append_drop (d.room h.offset bytes.length) bytes
  unfold emit rest
  generalize bytes.take (d.room h.offset bytes.length) = taken at hsplit ⊢
  generalize bytes.drop (d.room h.offset bytes.length) = left at hsplit ⊢
  dsimp only
  split
  · next hempty =>
    rw [List.isEmpty_iff.mp hempty, List.nil_append] at hsplit
    exact ⟨hend, by rw [hsplit]⟩
  · simp only [content_setContent hthere]
    rw [FileContent.bytes_writeAt, hend, ← FileContent.length_bytes, splice_end, List.append_assoc]
    refine ⟨?_, congrArg _ hsplit⟩
    rw [← FileContent.length_bytes, FileContent.bytes_writeAt, splice_end, List.length_append]

theorem rest_eq_nil (h : OpenFile) (hworks : d.Works) (bytes : Bytes) : h.rest bytes d = [] := by
  rw [rest, hworks.room, List.drop_length]

theorem flush_file (h : OpenFile) (d : SpillDir) :
    (h.flush d).1.file = h.file ∧ Writes h.file d (h.flush d).2 :=
  ⟨(emit_file h h.buffer d).1, (emit_file h h.buffer d).2.2⟩

theorem write_file (h : OpenFile) (bytes : Bytes) (d : SpillDir) :
    (h.write bytes d).1.1.file = h.file ∧ Writes h.file d (h.write bytes d).2 := by
  obtain ⟨hfile, hwrites⟩ := flush_file h d
  unfold write
  split
  · exact ⟨rfl, Writes.refl _ d⟩
  · dsimp only
    split
    · exact ⟨hfile, hwrites⟩
    · split
      · exact ⟨hfile, hwrites⟩
      · obtain ⟨hfile', -, hwrites'⟩ := emit_file (h.flush d).1 bytes (h.flush d).2
        rw [hfile] at hfile' hwrites'
        exact ⟨hfile', hwrites.trans hwrites'⟩

theorem close_file (h : OpenFile) (d : SpillDir) : Writes h.file d (h.close d).2 := by
  obtain ⟨hfile, hwrites⟩ := flush_file h d
  have hwrites' := (flush_file (h.flush d).1 (h.flush d).2).2
  rw [hfile] at hwrites'
  exact hwrites.trans hwrites'

/-- A flush loses nothing, also where the file does not take all of the buffer. -/
theorem flush_spec {h : OpenFile} (happends : h.Appends d run) :
    (h.flush d).1.Appends (h.flush d).2 run := by
  obtain ⟨hoffset, hbytes⟩ := emit_spec happends.there happends.atEnd h.buffer
  obtain ⟨hfile, -, hwrites⟩ := emit_file h h.buffer d
  refine ⟨?_, ?_, ?_⟩
  · show (h.emit h.buffer d).1.file < (h.emit h.buffer d).2.contents.length
    rw [hfile, hwrites.length]
    exact happends.there
  · show (h.emit h.buffer d).1.offset =
      ((h.emit h.buffer d).2.content (h.emit h.buffer d).1.file).size
    rw [hfile]
    exact hoffset
  · show ((h.emit h.buffer d).2.content (h.emit h.buffer d).1.file).bytes ++
      h.rest h.buffer d = run
    rw [hfile, hbytes]
    exact happends.holds

theorem told_ok {rest : Bytes} (h : told rest = .ok ()) : rest = [] := by
  unfold told at h
  split at h
  · next hempty => exact List.isEmpty_iff.mp hempty
  · cases h

theorem flushed_flush (h : OpenFile) (hworks : d.Works) : (h.flush d).1.flushed = .ok () := by
  rw [flushed, flush, rest_eq_nil h hworks]
  rfl

/-- Bytes that are not refused come after all others. -/
theorem write_spec {h : OpenFile} (happends : h.Appends d run) {bytes : Bytes}
    (hok : (h.write bytes d).1.2 = .ok ()) :
    (h.write bytes d).1.1.Appends (h.write bytes d).2 (run ++ bytes) := by
  have hflushed := flush_spec happends
  unfold write at hok ⊢
  split at hok
  · next hfits =>
    rw [if_pos hfits]
    refine ⟨happends.there, happends.atEnd, ?_⟩
    rw [← happends.holds, List.append_assoc]
  · next hlarge =>
    rw [if_neg hlarge]
    dsimp only at hok ⊢
    split at hok
    · cases hok
    · next hempty =>
      have hholds := hflushed.holds
      rw [told_ok hempty, List.append_nil] at hholds
      split at hok
      · next hsmall =>
        rw [if_pos hsmall]
        exact ⟨hflushed.there, hflushed.atEnd, by rw [hholds]⟩
      · next hbig =>
        rw [if_neg hbig]
        obtain ⟨hoffset, hbytes⟩ := emit_spec hflushed.there hflushed.atEnd bytes
        obtain ⟨hfile, hbuffer, hwrites⟩ := emit_file (h.flush d).1 bytes (h.flush d).2
        rw [told_ok hok, List.append_nil] at hbytes
        refine ⟨?_, ?_, ?_⟩
        · rw [hfile, hwrites.length]
          exact hflushed.there
        · rw [hfile]
          exact hoffset
        · rw [hfile, hbytes, hbuffer, told_ok hempty, List.append_nil, hholds]

theorem write_works (h : OpenFile) (hworks : d.Works) (bytes : Bytes) :
    (h.write bytes d).1.2 = .ok () := by
  have hflushed := flushed_flush h hworks
  unfold write
  split
  · rfl
  · simp only [hflushed]
    split
    · rfl
    · rw [rest_eq_nil _ ((flush_file h d).2.refusals.trans hworks)]
      rfl

/-- A file that is closed without a fault holds everything. -/
theorem close_spec {h : OpenFile} (happends : h.Appends d run) (hok : (h.close d).1 = .ok ()) :
    ((h.close d).2.content h.file).bytes = run := by
  have hflushed := flush_spec happends
  have hclosed := flush_spec hflushed
  obtain ⟨hfile, -⟩ := flush_file h d
  obtain ⟨hfile', -⟩ := flush_file (h.flush d).1 (h.flush d).2
  have hempty : (h.flush d).1.buffer = [] := by
    cases hresult : (h.flush d).1.flushed with
    | ok _ => exact told_ok hresult
    | error fault =>
      have hfails : (h.close d).1 = .error fault := by
        simp only [close, hresult]
        rfl
      cases hok.symm.trans hfails
  have hempty' : ((h.flush d).1.flush (h.flush d).2).1.buffer = [] := by
    show (h.flush d).1.rest (h.flush d).1.buffer (h.flush d).2 = []
    rw [hempty, rest, List.drop_nil]
  have hholds := hclosed.holds
  rwa [hempty', List.append_nil, hfile', hfile] at hholds

theorem close_works (h : OpenFile) (hworks : d.Works) : (h.close d).1 = .ok () := by
  have hsync := Works.sync ((flush_file h d).2.refusals.trans hworks)
  simp only [close, flushed_flush h hworks, hsync]
  rfl

end OpenFile

end ShuffleBuffer
