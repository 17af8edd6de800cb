import ShuffleBuffer.Proofs.ReadBack

/-! # Blocks that share a name

Writers of one task may come again, and then several blocks have one name: one is registered, others
are still open. A block in memory is read as it was committed until another one is registered or
it is removed. Blocks on disk share one file, which every new one of them empties, so the same holds
of them only as long as no other file is asked for under the name. -/

namespace ShuffleBuffer

open Estimate Step Executor

variable {σ α : Type} {id : BlockId} {n r : ℕ∞}

theorem WriterState.committed_eq_memory {store : StoreKind} :
    committed store = .committedMemory ↔ store.isMemoryTier = true := by
  cases store <;> simp [committed, StoreKind.isMemoryTier]

namespace Call

/-- The name of the writer that a call is about. -/
def writer? : Call σ α → Option String
  | .openWriter name _ _ _ _ => some name
  | .write name _ => some name
  | .close name => some name
  | .drop name => some name
  | .removeBlock _ => none
  | .disturb _ => none

/-- Only writers and removals touch the spill directory. -/
def Inside : Call σ α → Prop
  | .disturb _ => False
  | _ => True

variable {names : String → Prop} {call : Call σ α}

/-- Such calls use files as they should; they may be about any block, if its file and its
registration are not watched. -/
theorem Inside.within (h : call.Inside) (hnames : ∀ name, call.writer? = some name → names name)
    (hremove : 0 < n ∨ 0 < r → call ≠ .removeBlock id) :
    call.Within names (fun _ => True) (Sited (fun _ => True) id n r) (watched id n r) := by
  cases call with
  | openWriter name => exact ⟨hnames name rfl, trivial⟩
  | write name => exact hnames name rfl
  | close name => exact hnames name rfl
  | drop name => exact hnames name rfl
  | removeBlock other =>
    intro e he
    refine removeBlock_watched (fun hlive hsame => ?_) he.keyed
    exact hremove hlive (congrArg Call.removeBlock hsame)
  | disturb => exact h.elim

/-- While a writer is open, each call is about others or gives it an element. -/
theorem Inside.among {name : String} (h : call.Inside)
    (hmine : call.writer? = some name → ∃ x, call = .write name x)
    (hremove : 0 < n → call ≠ .removeBlock id) :
    call.Within (· ≠ name) (fun _ => True) (Sited (fun _ => True) id n 0) (watched id n 0) ∨
      ∃ x, call = .write name x := by
  by_cases hname : call.writer? = some name
  · exact .inr (hmine hname)
  · refine .inl (h.within (fun other hother heq => hname (heq ▸ hother)) fun hlive => ?_)
    exact hremove (hlive.resolve_right (lt_irrefl 0))

end Call

namespace Session

open Writer

/-- No open writer has the file of this name. -/
def Unheld (id : BlockId) (s : Session σ α) : Prop :=
  ∀ {name w b}, s.writer? name = some w → w.block = some b →
    b.location ≠ some (Block.fileName id)

/-- Whatever block is open has a file of its own, if any. -/
def Upkept (names : String → Prop) (id : BlockId) (s : Session σ α) : Prop :=
  Holders names (fun _ => True) (Sited (fun _ => True) id 0 0)
    (Executor.Stranger (fun _ => True) id 0 0) s

variable {names : String → Prop} {name : String} {s s' : Session σ α}

theorem Upkept.among (h : Upkept (fun _ => True) id s) : Upkept names id s :=
  ⟨h.suited, fun _ hw => h.writers trivial hw⟩

/-- The file of a name is watched from the last request on, if no writer has it open. -/
theorem Upkept.watched (h : Upkept names id s) (hn : n ≤ (s.executor.filings id + 1 : Nat))
    (hr : r ≤ (s.executor.registrations id + 1 : Nat))
    (hunheld : 0 < n → ∀ {name w b}, names name → s.writer? name = some w → w.block = some b →
      b.location ≠ some (Block.fileName id)) :
    Holders names (fun _ => True) (Sited (fun _ => True) id n r)
      (Executor.Stranger (fun _ => True) id n r) s := by
  have hsited : Sited (fun _ => True) id n r s.executor :=
    ⟨h.suited.formed, h.suited.keyed, fun _ => hn, fun _ => hr⟩
  refine ⟨hsited, fun hname hw => ⟨trivial, fun b hb => ⟨trivial, hsited, ?_, fun hlive => ?_⟩⟩⟩
  · exact ((h.writers hname hw).2 b hb).2.block.sound
  · exact hunheld (pos_of_gt hlive) hname hw hb

variable [Measured α] {task : TaskId} {edge : Edge} {destination : Destination}
  {p : Partitioner σ α} {store : StoreKind} {pattern : CommunicationPattern}
  {persistence : Persistence} {codec : Codec α} {xs : List α}

theorem run_upkept {calls : List (Call σ α)} (h : Upkept (fun _ => True) id s)
    (hcalls : ∀ call ∈ calls, call.Inside) :
    Watched id 0 0 s.executor (s.run calls).executor ∧ Upkept (fun _ => True) id (s.run calls) := by
  have hfollows := run_follows (neutral_watched (fun _ => True) id 0 0)
    (fun _ _ => Watched.of_same rfl rfl ⟨rfl, fun h => h⟩) h fun call hmem =>
      (hcalls call hmem).within (fun _ _ => trivial) fun hlive => absurd hlive (by simp)
  exact ⟨hfollows.executor, hfollows.holders⟩

/-- A new writer shares its file with nobody if nobody had it before. -/
theorem open_among (h : Upkept (fun _ => True) (.of edge.id task) s)
    (hedge : edge.Complete destination store pattern persistence)
    (hspace : Spacious (.of edge.id task) s.executor)
    (htracker : s.executor.tracker.validate = .ok ())
    (hestimator : s.executor.estimator.Usable)
    (hn : n ≤ ((perform (.openWriter name task edge destination p) s).2.executor.filings
      (.of edge.id task) + 1 : Nat))
    (hunheld : 0 < n → s.Unheld (.of edge.id task))
    (hspared : Spared n (idle task edge destination p store)
      (perform (.openWriter name task edge destination p) s).2) :
    Among (fun _ => True) n 0 name (idle task edge destination p store)
      s.executor.registry.medium.codec []
      (perform (.openWriter name task edge destination p) s).2 := by
  have hrequests := (run_traced s [.openWriter name task edge destination p]).executor
  rw [run_cons, run_nil] at hrequests
  obtain ⟨hbears, hmine⟩ := open_bears (n := n) (r := 0) (p := p) hedge hspace htracker hestimator
    fun {w e} hmake hkept => by
      rw [perform_openWriter hmake] at hrequests hn hspared
      have hsame : ({ s with executor := e }.dropWriter name).executor.requests = e.requests := by
        obtain ⟨medium, hdropped⟩ := executor_dropWriter { s with executor := e } name
        rw [hdropped]
      have hmade : Upkept (fun _ => True) (.of edge.id task) { s with executor := e } :=
        (h.onExecutor (neutral_watched _ _ 0 0).toQuiet
          (hkept.watched (hsame ▸ hrequests))).holders
      have hfilings : (({ s with executor := e }.dropWriter name).putWriter name w).executor.filings
          (.of edge.id task) = e.filings (.of edge.id task) := congrArg (List.countP _) hsame
      have hheld := hmade.watched (r := 0) (hfilings ▸ hn) (by simp) fun hlive _ _ _ _ hw hb =>
        hunheld hlive hw hb
      exact ⟨(dropWriter_follows (neutral_watched _ _ n 0).toQuiet hheld trivial).executor, hspared⟩
  refine ⟨Upkept.watched (h.among.mine hmine) hn (by simp) fun hlive _ _ _ hne hw hb => ?_, hbears⟩
  exact hunheld hlive ((hmine.others hne).symm.trans hw) hb

/-- Whatever comes later, a block can be read until its name is registered again or removed; one on
disk only while no new file is asked for under the name. -/
theorem run_recorded {calls : List (Call σ α)} {es : List (Entry α)} {info : BlockInfo}
    (hup : Upkept (fun _ => True) id s) (h : Recorded id codec es info s)
    (hcalls : ∀ call ∈ calls, call.Inside) (hremove : .removeBlock id ∉ calls)
    (hregistrations : (s.run calls).executor.registrations id = s.executor.registrations id)
    (hplace : info.location = none ∨ info.location = some (Block.fileName id) ∧ s.Unheld id ∧
      (s.run calls).executor.filings id = s.executor.filings id) :
    Recorded id codec es info (s.run calls) := by
  have hlive : ((s.run calls).executor.registrations id : ℕ∞) <
      (s.executor.registrations id + 1 : Nat) := by
    rw [hregistrations]
    exact Nat.cast_lt.mpr (Nat.lt_succ_self _)
  have hwatched : ∀ n : ℕ∞, n ≤ (s.executor.filings id + 1 : Nat) → (0 < n → s.Unheld id) →
      Watched id n (s.executor.registrations id + 1 : Nat) s.executor (s.run calls).executor := by
    intro n hn hunheld
    refine (run_follows (neutral_watched (fun _ => True) id _ _)
      (fun _ _ => Watched.of_same rfl rfl ⟨rfl, fun h => h⟩)
      (hup.watched hn le_rfl fun hlive _ _ _ _ hw hb => hunheld hlive hw hb)
      fun call hmem => ?_).executor
    exact (hcalls call hmem).within (fun _ _ => trivial) fun _ heq => hremove (heq ▸ hmem)
  obtain hmemory | ⟨hlocation, hunheld, hfilings⟩ := hplace
  · exact h.watched hup.suited.formed (hwatched 0 (by simp) fun hlive => absurd hlive (lt_irrefl 0))
      (.inl hmemory) hlive
  · refine h.watched hup.suited.formed (hwatched _ le_rfl fun _ => hunheld)
      (.inr ⟨hlocation, ?_⟩) hlive
    rw [hfilings]
    exact Nat.cast_lt.mpr (Nat.lt_succ_self _)

theorem perform_upkept {call : Call σ α} (h : Upkept (fun _ => True) id s) (hcall : call.Inside) :
    Upkept (fun _ => True) id (perform call s).2 :=
  (run_upkept h fun _ hmem => (List.mem_singleton.mp hmem) ▸ hcall).2

omit [Measured α] in
/-- A closed block is in memory, or in the file of its name. No writer holds that file then if the
closed one was alone in it, since a closed writer holds no block. -/
theorem Mine.located {w : Writer σ α} {es : List (Entry α)} {info : BlockInfo} {e : Executor α}
    (h : Mine name id s s') (hw : s'.writer? name = some w)
    (hcloses : Closes id store es info e (w, s'.executor))
    (hothers : ∀ {other w b}, info.store.isMemoryTier = false → other ≠ name →
      s.writer? other = some w → w.block = some b → b.location ≠ some (Block.fileName id)) :
    info.location = none ∨ info.location = some (Block.fileName id) ∧ s'.Unheld id := by
  cases hmemory : info.store.isMemoryTier with
  | true => exact .inl (hcloses.location.trans (if_pos hmemory))
  | false =>
    refine .inr ⟨hcloses.location.trans (if_neg (by simp [hmemory])), fun {other w' b} hw' hb => ?_⟩
    by_cases hsame : other = name
    · subst hsame
      cases hw.symm.trans hw'
      cases hcloses.unheld.symm.trans hb
    · exact hothers hmemory hsame ((h.others hsame).symm.trans hw') hb

/-- From the opening on, a writer keeps what it is given, whatever the others do: in memory, or in
a file that nobody else asks for or removes. -/
theorem open_run_among {calls : List (Call σ α)} (h : Upkept (fun _ => True) (.of edge.id task) s)
    (hedge : edge.Complete destination store pattern persistence)
    (hspace : Spacious (.of edge.id task) s.executor)
    (htracker : s.executor.tracker.validate = .ok ())
    (hestimator : s.executor.estimator.Usable) (hcalls : ∀ call ∈ calls, call.Inside)
    (hmine : ∀ call ∈ calls, call.writer? = some name → ∃ x, call = .write name x)
    (hencodes : ∀ x ∈ Call.given name calls, s.executor.registry.medium.codec.Encodes x) :
    let opened := (perform (.openWriter name task edge destination p) s).2
    n ≤ (opened.executor.filings (.of edge.id task) + 1 : Nat) →
    (0 < n → s.Unheld (.of edge.id task) ∧ .removeBlock (.of edge.id task) ∉ calls) →
    Spared n (idle task edge destination p store) (opened.run calls) →
    Among (fun _ => True) n 0 name (idle task edge destination p store)
      s.executor.registry.medium.codec (Call.given name calls) (opened.run calls) := by
  intro opened hn hwatch hspared
  -- the trace only grows, so what is not asked for by the end was not before
  have hgrows : opened.executor.filings (.of edge.id task) ≤
      (opened.run calls).executor.filings (.of edge.id task) :=
    filings_le (run_traced opened calls).executor _
  have hopened := open_among h hedge hspace htracker hestimator hn (fun hlive => (hwatch hlive).1)
    (hspared.imp_right (lt_of_le_of_lt (Nat.cast_le.mpr hgrows)))
  refine run_among hopened (fun call hmem => (hcalls call hmem).among (hmine call hmem) ?_) hspared
    hencodes
  exact fun hlive heq => (hwatch hlive).2 (heq ▸ hmem)

/-- A writer is opened, given elements and closed, and any writers of any names and blocks are at
work before, in between and afterwards, also on the same block. From the close on, every key of the
block gives back the elements for which the partitioner answered it, until the block is removed or
another one is registered under its name.

This holds of a block in memory without more. For one on disk, nobody else may have its file open
when it is created, and no other file may be asked for under its name from then on. -/
theorem run_keeps_reading {e : Executor α}
    (hedge : edge.Complete destination store pattern persistence)
    (hfiles : Spacious (.of edge.id task) e) (hready : e.Ready)
    (before during later : List (Call σ α))
    (hinside : ∀ call ∈ before ++ during ++ later, call.Inside)
    (hduring : ∀ call ∈ during, call.writer? = some name → ∃ x, call = .write name x)
    (hlater : .removeBlock (.of edge.id task) ∉ later) {encoding : α → Bytes}
    (hcodec : e.registry.medium.codec.Faithful encoding (Call.given name during)) :
    let id := BlockId.of edge.id task
    let s := Session.run { executor := e } before
    let opened := (perform (.openWriter name task edge destination p) s).2
    let written := opened.run during
    let closed := (perform (.close name) written).2
    let s' := closed.run later
    s'.executor.registrations id = closed.executor.registrations id →
    (store.isMemoryTier = true ∧
        (∃ w, closed.writer? name = some w ∧ w.state = .committedMemory) ∨
      store = .localFile ∧ s.Unheld id ∧ .removeBlock id ∉ during ∧
        s'.executor.filings id = opened.executor.filings id ∨
      store ≠ .localFile ∧ written.Unheld id ∧
        s'.executor.filings id = closed.executor.filings id) →
    (perform (.close name) written).1 = .ok () ∧
    ∀ key, s'.executor.registry.readPartition id key =
      .ok (p.part key (Call.given name during)) := by
  intro id s opened written closed s' hregistrations hplace
  simp only [List.mem_append] at hinside
  have hencodes : ∀ x ∈ Call.given name during, e.registry.medium.codec.Encodes x :=
    fun x hx earlier => ⟨encoding x, (hcodec x hx).1 earlier, (hcodec x hx).2.1⟩
  have hstart : Upkept (fun _ => True) id ({ executor := e } : Session σ α) :=
    ⟨⟨hfiles.formed, hready.keyed, fun _ => by simp, fun _ => by simp⟩, nofun⟩
  obtain ⟨hbegun, hups⟩ := run_upkept hstart fun call hmem => hinside call (.inl (.inl hmem))
  have hupo : Upkept (fun _ => True) id opened := perform_upkept hups trivial
  have hupw := (run_upkept hupo fun call hmem => hinside call (.inl (.inr hmem))).2
  have hupc : Upkept (fun _ => True) id closed := perform_upkept hupw trivial
  have hspace : Spacious id s.executor := ⟨hbegun.medium.dir.refusals.trans hfiles.free,
    hbegun.medium.dir.formed hfiles.formed, hfiles.named⟩
  -- the trace only grows, so its ends tell what is asked for in between
  have hwritten : opened.executor.filings id ≤ written.executor.filings id :=
    filings_le (run_traced opened during).executor id
  have hclosed : written.executor.filings id ≤ closed.executor.filings id :=
    filings_le (run_traced written [.close name]).executor id
  have hended : closed.executor.filings id ≤ s'.executor.filings id :=
    filings_le (run_traced closed later).executor id
  -- a file that is written to directly is watched from the opening on
  obtain ⟨n, hn, hwatch, hspared⟩ : ∃ n : ℕ∞, n ≤ (opened.executor.filings id + 1 : Nat) ∧
      (0 < n → s.Unheld id ∧ .removeBlock id ∉ during) ∧
      Spared n (idle task edge destination p store) written := by
    obtain ⟨hmemory, -⟩ | ⟨-, hunheld, hremove, hfilings⟩ | ⟨hstore, -, -⟩ := hplace
    · exact ⟨0, by simp, fun h => absurd h (lt_irrefl 0), .inl hmemory⟩
    · refine ⟨_, le_rfl, fun _ => ⟨hunheld, hremove⟩, .inr (Nat.cast_lt.mpr ?_)⟩
      show written.executor.filings id < opened.executor.filings id + 1
      omega
    · exact ⟨0, by simp, fun h => absurd h (lt_irrefl 0),
        .inl (StoreKind.isMemoryTier_of_ne hstore)⟩
  have hamong := open_run_among hups hedge hspace (hbegun.able.tracker ▸ hready.tracker)
    (hbegun.able.usable hready.estimator) (fun call hmem => hinside call (.inl (.inr hmem)))
    hduring (hbegun.medium.codec ▸ hencodes) hn hwatch hspared
  rw [hbegun.medium.codec] at hamong
  obtain ⟨hok, hmine, w, es, info, hw, hmakes, hcloses, hrecorded⟩ :=
    close_bears hamong.bears hedge hencodes
  have hplaced : info.location = none ∨ info.location = some (Block.fileName id) ∧
      closed.Unheld id ∧ s'.executor.filings id = closed.executor.filings id := by
    obtain ⟨-, w', hw', hstate⟩ | ⟨rfl, -, -, hfilings⟩ | ⟨-, hunheld, hfilings⟩ := hplace
    · cases hw.symm.trans hw'
      have hstore : info.store.isMemoryTier = true :=
        WriterState.committed_eq_memory.mp (hcloses.state.symm.trans hstate)
      exact .inl (hcloses.location.trans (if_pos hstore))
    · have hlive : (written.executor.filings id : ℕ∞) < n := hspared.resolve_left nofun
      refine (hmine.located hw hcloses fun _ hne hw hb => ?_).imp_right fun h => ⟨h.1, h.2, by omega⟩
      exact ((hamong.others.writers hne hw).2 _ hb).2.block.other hlive
    · exact (hmine.located hw hcloses fun _ _ hw hb => hunheld hw hb).imp_right
        fun h => ⟨h.1, h.2, hfilings⟩
  have hkept := run_recorded hupc hrecorded (fun call hmem => hinside call (.inr hmem)) hlater
    hregistrations hplaced
  refine ⟨hok, fun key => ?_⟩
  rw [hkept.readPartition (hmakes.restores hcodec) key, hmakes.part key]

/-- A block in memory, with retries of its task that are not closed. -/
theorem run_keeps_reading_retried :
    let edge : Edge := {
      id := ⟨"e"⟩
      store := some .serializedMemory
      pattern := some .oneToOne
      persistence := some .keep }
    let e : Executor UInt64 := {
      registry := { medium := { codec := .json } }
      pool := .ofCapacity 100
      estimator := .ofOptions {} }
    let retry (name : String) : Call UInt32 UInt64 :=
      .openWriter name ⟨"t"⟩ edge ⟨⟨"v"⟩, none⟩ .intact
    let s := Session.run { executor := e }
      [retry "w", .write "w" 7, retry "x", .close "w", .write "x" 8, retry "y"]
    s.executor.registry.readPartition ⟨"e-t"⟩ 0 = .ok [7] := by
  intro edge e retry s
  have hedge : edge.Complete ⟨⟨"v"⟩, none⟩ .serializedMemory .oneToOne .keep :=
    ⟨rfl, rfl, rfl, rfl, by decide⟩
  have hfiles : Spacious (.of edge.id ⟨"t"⟩) e := ⟨rfl, .of_unnamed rfl, by decide⟩
  have hready : e.Ready := ⟨fun _ h => absurd h List.not_mem_nil, by decide,
    SizeEstimator.usable_ofOptions (by decide)⟩
  have hinside : ∀ call ∈ [] ++ [.write "w" 7, retry "x"] ++ [.write "x" 8, retry "y"],
      call.Inside := by
    simp [Call.Inside, retry]
  have hduring : ∀ call ∈ [.write "w" 7, retry "x"], call.writer? = some "w" →
      ∃ x, call = .write "w" x := by
    simp [Call.writer?, retry]
  have hlater : .removeBlock (.of edge.id ⟨"t"⟩) ∉ [.write "x" 8, retry "y"] := by
    simp [retry]
  have hgiven : Call.given "w" [.write "w" 7, retry "x"] = [7] := by
    simp [Call.given, retry]
  have hcodec : e.registry.medium.codec.Faithful JsonElement.write
      (Call.given "w" [.write "w" 7, retry "x"]) := by
    intro x hx
    rw [hgiven, List.mem_singleton] at hx
    subst hx
    exact ⟨fun _ => rfl, by decide, by decide⟩
  have hstate : ((Session.run { executor := e }
      [retry "w", .write "w" 7, retry "x", .close "w"]).writer? "w").map Writer.state =
        some .committedMemory := by
    decide +kernel
  have hmain := run_keeps_reading (p := Partitioner.intact) hedge hfiles hready [] _ _
    hinside hduring hlater hcodec (by decide +kernel)
    (.inl ⟨rfl, Option.map_eq_some_iff.mp hstate⟩)
  have hread := hmain.2 0
  have hid : BlockId.of edge.id ⟨"t"⟩ = ⟨"e-t"⟩ := rfl
  have hpart : Partitioner.part .intact 0 [(7 : UInt64)] = [7] := by decide
  rw [hgiven, hpart, hid] at hread
  simp only [s, retry, run_cons, run_nil] at hread ⊢
  exact hread

/-- On disk, the retry alone empties the file that is registered. -/
theorem reopening_empties_file :
    let edge : Edge := {
      id := ⟨"e"⟩
      store := some .localFile
      pattern := some .oneToOne
      persistence := some .keep }
    let e : Executor UInt64 := {
      registry := { medium := { codec := .json } }
      pool := .ofCapacity 100
      estimator := .ofOptions {} }
    let retry (name : String) : Call UInt32 UInt64 :=
      .openWriter name ⟨"t"⟩ edge ⟨⟨"v"⟩, none⟩ .intact
    let written := Session.run { executor := e } [retry "w", .write "w" 7]
    let closed := (perform (.close "w") written).2
    let s := (perform (retry "x") closed).2
    (perform (.close "w") written).1 = .ok () ∧
      closed.executor.registry.readPartition ⟨"e-t"⟩ 0 = .ok [7] ∧
      s.executor.registrations ⟨"e-t"⟩ = closed.executor.registrations ⟨"e-t"⟩ ∧
      s.executor.registry.readPartition ⟨"e-t"⟩ 0 = .ok [] := by
  decide +kernel

end Session

end ShuffleBuffer
