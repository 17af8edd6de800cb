import ShuffleBuffer.Proofs.Blocks

/-! # The file that a block has open

A block writes to the file that it has open and to no other. Whatever becomes of it, its name, its
store and its kind stay, and no other file is opened. So it leaves all files alone that belong to
blocks of other names. -/

namespace ShuffleBuffer

open Step

variable {α β : Type}

namespace Block

/-- The file that the block has open. -/
def held (b : Block α) : Option FileId :=
  match b.body with
  | .file (some handle) _ _ => some handle.file
  | _ => none

/-- The same block, later; if it has a file open, it is the same file. -/
structure Becomes (b b' : Block α) : Prop where
  like : b.Like b'
  held : b'.held = none ∨ b'.held = b.held

/-- The file that the block has open belongs to its own name alone. -/
def Sound (b : Block α) (d : SpillDir) : Prop :=
  ∀ file, b.held = some file → SpillDir.Own (fileName b.id) file d

variable {b b' : Block α} {d d' : SpillDir} {file : FileId}

theorem location_of_held (h : b.held = some file) : b.location = some (fileName b.id) := by
  obtain ⟨id, store, state, body⟩ := b
  cases body with
  | values | encoded => cases h
  | file handle sizes checksum => rfl

theorem Sound.kept (h : b.Sound d) (hkept : SpillDir.Kept d d') : b.Sound d' :=
  fun file hfile => hkept.own (h file hfile)

theorem Sound.becomes (h : b.Sound d) (hb : b.Becomes b') : b'.Sound d := by
  intro file hfile
  rw [hb.like.id]
  obtain hnone | hsame := hb.held
  · rw [hnone] at hfile
    cases hfile
  · exact h file (hsame ▸ hfile)

end Block

namespace Medium

/-- At most this file is written. -/
def writing (file : Option FileId) : Change (Medium α) where
  rel m m' := m'.codec = m.codec ∧
    (m'.dir = m.dir ∨ ∃ f, file = some f ∧ SpillDir.Writes f m.dir m'.dir)
  refl _ := ⟨rfl, .inl rfl⟩
  trans := by
    intro m m' m'' h h'
    refine ⟨h'.1.trans h.1, ?_⟩
    obtain hsame | ⟨f, hf, hwrites⟩ := h.2
    · rw [← hsame]
      exact h'.2
    · obtain hsame' | ⟨f', hf', hwrites'⟩ := h'.2
      · rw [hsame']
        exact .inr ⟨f, hf, hwrites⟩
      · cases hf.symm.trans hf'
        exact .inr ⟨f, hf, hwrites.trans hwrites'⟩

variable {b : Block α} {m m' : Medium α} {file : FileId} {id : BlockId}

theorem kept_of_writing {file : Option FileId} (h : (writing file).rel m m') : Kept m m' := by
  refine ⟨h.1, ?_⟩
  obtain hsame | ⟨f, -, hwrites⟩ := h.2
  · rw [hsame]
    exact SpillDir.Kept.refl _
  · exact hwrites.kept

/-- A block without a file of this name leaves the file of this name alone. -/
theorem apart_of_writing (h : (writing b.held).rel m m') (hb : b.Sound m.dir)
    (hother : b.location ≠ some (Block.fileName id)) :
    SpillDir.Apart (Block.fileName id) m.dir m'.dir := by
  obtain hsame | ⟨f, hf, hwrites⟩ := h.2
  · rw [hsame]
    exact SpillDir.Apart.refl _ _
  · rw [Block.location_of_held hf] at hother
    exact hwrites.apart ((hb f hf).clear fun heq => hother (congrArg some heq))

theorem frame_writing {file : Option FileId} (key : PartitionKey) (x : α) :
    Along (writing file) (fun _ => True) (frame key x) fun _ _ => True := by
  refine Along.bind (M := fun _ _ => True) (Along.of_rel fun m _ => ⟨rfl, .inl rfl⟩) fun _ => ?_
  exact Along.bind (M := fun _ _ => True) (Along.ofExcept fun _ _ _ _ => trivial) fun _ =>
    Along.pure fun _ _ => trivial

/-- What is done with a file that goes on being open writes to no other. -/
theorem onFile_writing {x : SpillDir → β × SpillDir} {C : β → Prop}
    (hx : ∀ d, C (x d).1 ∧ SpillDir.Writes file d (x d).2) :
    Along (writing (α := α) (some file)) (fun _ => True) (onFile x) fun answer _ => C answer := by
  intro _ _ m _
  subst m
  exact ⟨⟨rfl, .inr ⟨file, rfl, (hx _).2⟩⟩, (hx _).1⟩

theorem closeFile_writing (handle : Option OpenFile) :
    Along (writing (α := α) (handle.map (·.file))) (fun _ => True) (closeFile handle)
      fun _ _ => True := by
  cases handle with
  | none => exact Along.pure fun _ _ => trivial
  | some handle =>
    exact Along.of_rel fun m _ => ⟨rfl, .inr ⟨_, rfl, OpenFile.close_file handle m.dir⟩⟩

end Medium

namespace Block

open Medium

theorem write_writing (b : Block α) (key : PartitionKey) (x : α) :
    Along (writing b.held) (fun _ => True) (b.write key x) fun c _ => b.Becomes c.block := by
  obtain ⟨id, store, state, body⟩ := b
  refine Along.bind (M := fun _ _ => True) (Along.ofExcept fun _ _ _ h => h) fun _ => ?_
  cases body with
  | values pending sealed => exact Along.pure fun _ _ => ⟨⟨rfl, rfl, rfl, rfl⟩, .inl rfl⟩
  | encoded pending sealed sizes =>
    refine Along.bind (frame_writing key x) fun _ => ?_
    exact Along.pure fun _ _ => ⟨⟨rfl, rfl, rfl, rfl⟩, .inl rfl⟩
  | file handle sizes checksum =>
    cases handle with
    | none =>
      refine Along.bind (frame_writing key x) fun _ => ?_
      exact Along.pure fun _ _ => ⟨⟨rfl, rfl, rfl, rfl⟩, .inl rfl⟩
    | some handle =>
      refine Along.bind (frame_writing key x) fun r => ?_
      refine Along.bind (onFile_writing (C := fun answer => answer.1.file = handle.file)
        fun d => OpenFile.write_file handle r.2 d) fun answer => ?_
      exact Along.pure fun _ h => ⟨⟨rfl, rfl, rfl, rfl⟩, .inr (congrArg some h)⟩

theorem commitPartitions_writing (b : Block α) :
    Along (writing b.held) (fun _ => True) b.commitPartitions fun c _ => b.Becomes c.block := by
  obtain ⟨id, store, state, body⟩ := b
  refine Along.bind (M := fun _ _ => True) (Along.ofExcept fun _ _ _ h => h) fun _ => ?_
  cases body with
  | values pending sealed => exact Along.pure fun _ _ => ⟨⟨rfl, rfl, rfl, rfl⟩, .inl rfl⟩
  | encoded pending sealed sizes =>
    exact Along.pure fun _ _ => ⟨⟨rfl, rfl, rfl, rfl⟩, .inl rfl⟩
  | file handle sizes checksum =>
    cases handle with
    | none => exact Along.fail
    | some handle =>
      refine Along.bind (onFile_writing (C := fun handle' => handle'.file = handle.file)
        fun d => OpenFile.flush_file handle d) fun handle' => ?_
      exact Along.pure fun _ h => ⟨⟨rfl, rfl, rfl, rfl⟩, .inr (congrArg some h)⟩

/-- Letting a block go flushes the file that it has open. -/
theorem release_writing (b : Block α) (m : Medium α) : (writing b.held).rel m (b.release m) := by
  obtain ⟨id, store, state, body⟩ := b
  cases body with
  | values | encoded => exact (writing none).refl m
  | file handle sizes checksum =>
    cases handle with
    | none => exact (writing none).refl m
    | some handle => exact ⟨rfl, .inr ⟨_, rfl, (OpenFile.flush_file handle m.dir).2⟩⟩

theorem commit_writing (b : Block α) :
    Along (writing b.held) (fun _ => True) b.commit fun r _ => b.Becomes r.2.block := by
  have hsealed : ∀ b' : Block α, b.Becomes b' → b.Becomes { b' with state := .committed } :=
    fun b' h => ⟨⟨h.like.id, h.like.store, h.like.location, h.like.keepsSizes⟩, h.held⟩
  unfold commit
  cases hbody : b.body with
  | values pending sealed =>
    exact Along.bind (commitPartitions_writing b) fun c => Along.pure fun _ h => hsealed c.block h
  | encoded pending sealed sizes =>
    exact Along.bind (commitPartitions_writing b) fun c => Along.pure fun _ h => hsealed c.block h
  | file handle sizes checksum =>
    refine Along.bind (M := fun _ _ => True) (Along.ofExcept fun _ _ _ h => h) fun _ => ?_
    have hclosed : ∀ state, b.Becomes { b with state, body := .file none sizes checksum } :=
      fun state => ⟨⟨rfl, rfl, by simp only [location, hbody], by simp only [keepsSizes, hbody]⟩,
        .inl rfl⟩
    have hheld : b.held = handle.map (·.file) := by
      rw [held, hbody]
      cases handle with
      | none | some => rfl
    rw [hheld]
    refine Along.bind (closeFile_writing handle) fun result => ?_
    cases result with
    | ok _ => exact Along.pure fun _ _ => hclosed _
    | error fault => exact Along.pure fun _ _ => hclosed _

theorem spill_writing (b : Block α) :
    Along (writing b.held) (fun _ => True) b.spill fun b' _ => b.Becomes b' := by
  refine Along.bind (M := fun _ _ => True) (Along.ofExcept fun _ _ _ h => h) fun _ => ?_
  refine Along.bind (M := fun _ _ => True)
    (Along.modify fun m _ => ⟨release_writing b m, trivial⟩) fun _ => ?_
  obtain ⟨id, store, state, body⟩ := b
  cases body with
  | values | encoded | file => exact Along.pure fun _ _ => ⟨⟨rfl, rfl, rfl, rfl⟩, .inl rfl⟩

/-! ## Deleting -/

theorem deleteFile_kept (b : Block α) (m : Medium α) : Medium.Kept m (b.deleteFile m).2 := by
  obtain ⟨id, store, state, body⟩ := b
  cases body with
  | values | encoded => exact Medium.Kept.refl m
  | file => exact ⟨rfl, SpillDir.remove_kept _ _⟩

/-- Deleting the file of one block leaves that of another alone. -/
theorem deleteFile_apart {b : Block α} {id : BlockId} (h : b.location ≠ some (fileName id))
    (m : Medium α) : SpillDir.Apart (fileName id) m.dir (b.deleteFile m).2.dir := by
  obtain ⟨id', store, state, body⟩ := b
  cases body with
  | values | encoded => exact SpillDir.Apart.refl _ _
  | file => exact SpillDir.remove_apart fun heq => h (congrArg some heq)

end Block

end ShuffleBuffer
