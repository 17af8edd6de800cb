import ShuffleBuffer.Proofs.Bystanders
import ShuffleBuffer.Proofs.Neighbours

/-! # Duplicate groups

The edges of a duplicate group carry the same data, so only the representative's output is kept.
Writers on the other edges are counted when they are opened, and there is nothing else that they do.
So a group leaves one block behind, the one that the representative's writer leaves alone, and this
block expects the readers of all edges of the group. -/

namespace ShuffleBuffer

open Estimate Step

variable {σ α : Type}

/-! ## Edges -/

namespace Edge

variable {edge : Edge} {group : DuplicateGroup}

theorem isDuplicateOmitted_iff (hgroup : edge.group = some group) (hsize : 1 < group.size) :
    edge.isDuplicateOmitted = true ↔ edge.id ≠ group.representative := by
  simp only [isDuplicateOmitted, hgroup, Bool.and_eq_true, decide_eq_true_eq, bne_iff_ne,
    and_iff_right hsize, ne_comm]

theorem duplicateMultiplier_eq (hgroup : edge.group = some group) (hsize : 1 < group.size) :
    edge.duplicateMultiplier = group.size := by
  rw [duplicateMultiplier, hgroup]
  exact if_neg (UInt32.not_le.mpr hsize)

end Edge

/-- The outputs of one task on different edges are different blocks. -/
theorem BlockId.edge_of_eq {edge edge' : EdgeId} {task : TaskId}
    (h : BlockId.of edge task = .of edge' task) : edge = edge' := by
  have htext := congrArg BlockId.text h
  simp only [of, String.append_left_inj] at htext
  exact congrArg EdgeId.mk htext

/-! ## Members -/

/-- A writer on an edge of a group: some elements are written to it, and it is closed. -/
structure Member (σ α : Type) where
  name : String
  edge : Edge
  destination : Destination
  partitioner : Partitioner σ α
  elements : List α

/-- What the member does for a task. -/
def Member.program (task : TaskId) (m : Member σ α) : Program σ α where
  task
  edge := m.edge
  destination := m.destination
  partitioner := m.partitioner
  calls := m.elements.map .write ++ [.close]

namespace Member

variable {m : Member σ α} {task : TaskId} {calls : List (Call σ α)}

theorem countP_program (task : TaskId) (m : Member σ α) :
    ((m.program task).under m.name).countP Call.omits =
      if m.edge.isDuplicateOmitted then 1 else 0 := by
  have hasked : ((m.program task).calls.map (WriterCall.under m.name)).countP
      (Call.omits (σ := σ) (α := α)) = 0 := by
    refine List.countP_eq_zero.mpr fun call hcall => ?_
    obtain ⟨c, -, rfl⟩ := List.mem_map.mp hcall
    cases c <;> exact Bool.false_ne_true
  rw [Program.under, List.countP_cons, hasked, Nat.zero_add]
  rfl

/-- Where each member makes at most one such call, as many are made as members that make it. -/
theorem countP_members {members : List (Member σ α)} (hnames : (members.map Member.name).Nodup)
    {p : Call σ α → Bool} {q : Member σ α → Bool} {calls : List (Call σ α)}
    (hcalls : ∀ call ∈ calls, ∃ m ∈ members, call.writer? = some m.name)
    (hcounts : ∀ m ∈ members, (Call.about m.name calls).countP p = if q m then 1 else 0) :
    calls.countP p = members.countP q := by
  induction members generalizing calls with
  | nil =>
    obtain rfl : calls = [] := List.eq_nil_iff_forall_not_mem.mpr fun call hcall => by
      obtain ⟨m, hm, -⟩ := hcalls call hcall
      cases hm
    rfl
  | cons m members ih =>
    obtain ⟨hfresh, hnames⟩ := List.nodup_cons.mp hnames
    have hne : ∀ m' ∈ members, m'.name ≠ m.name := fun m' hm' hsame =>
      hfresh (hsame ▸ List.mem_map_of_mem hm')
    -- the others' calls are left when those of the first member are taken out
    have hrest : (calls.filter fun call => !decide (call.writer? = some m.name)).countP p =
        members.countP q := by
      refine ih hnames (fun call hcall => ?_) fun m' hm' => ?_
      · obtain ⟨hmem, hother⟩ := List.mem_filter.mp hcall
        obtain ⟨m', hm', hwriter⟩ := hcalls call hmem
        obtain rfl | hm' := List.mem_cons.mp hm'
        · simp [hwriter] at hother
        · exact ⟨m', hm', hwriter⟩
      · rw [← hcounts m' (.tail _ hm'), Call.about, List.filter_filter, Call.about]
        refine congrArg _ (List.filter_congr fun call _ => ?_)
        by_cases hwriter : call.writer? = some m'.name
        · simp [hwriter, hne m' hm']
        · simp [hwriter]
    rw [List.countP_eq_countP_filter_add _ _ (·.writer? = some m.name), hrest, List.countP_cons,
      Nat.add_comm]
    exact congrArg _ (hcounts m List.mem_cons_self)

/-- The calls of a member stand between calls of others. -/
theorem split (h : Call.about m.name calls = (m.program task).under m.name) :
    ∃ before during later,
      calls = before ++ .openWriter m.name task m.edge m.destination m.partitioner ::
        (during ++ .close m.name :: later) ∧
      (∀ call ∈ before, call.writer? ≠ some m.name) ∧
      (∀ call ∈ during, call.writer? = some m.name → ∃ x, call = .write m.name x) ∧
      Call.given m.name during = m.elements ∧
      ∀ call ∈ later, call.writer? ≠ some m.name := by
  have hmine : Call.about m.name calls =
      .openWriter m.name task m.edge m.destination m.partitioner ::
        (m.elements.map (Call.write m.name) ++ [.close m.name]) := by
    rw [h, Program.under, program, List.map_append, List.map_map]
    rfl
  obtain ⟨before, rest, rfl, hbefore, -, hrest⟩ := List.filter_eq_cons_iff.mp hmine
  obtain ⟨during, rest, rfl, hduring, hrest⟩ := List.filter_eq_append_iff.mp hrest
  obtain ⟨between, later, rfl, hbetween, -, hlater⟩ := List.filter_eq_cons_iff.mp hrest
  refine ⟨before, during ++ between, later, by rw [List.append_assoc], ?_,
    fun call hcall hname => ?_, ?_, ?_⟩
  · exact fun call hcall hname => hbefore call hcall (decide_eq_true hname)
  · obtain hcall | hcall := List.mem_append.mp hcall
    · have hmem : call ∈ Call.about m.name during :=
        List.mem_filter.mpr ⟨hcall, decide_eq_true hname⟩
      rw [show Call.about m.name during = _ from hduring] at hmem
      obtain ⟨x, -, rfl⟩ := List.mem_map.mp hmem
      exact ⟨x, rfl⟩
    · exact absurd (decide_eq_true hname) (hbetween call hcall)
  · have hnone : Call.about m.name between = [] :=
      List.filter_eq_nil_iff.mpr fun call hcall => hbetween call hcall
    rw [← Call.given_about, Call.about_append, hnone, List.append_nil,
      show Call.about m.name during = _ from hduring, Call.given_writes]
  · exact fun call hcall hname =>
      List.filter_eq_nil_iff.mp hlater call hcall (decide_eq_true hname)

end Member

/-! ## Groups -/

/-- Writers on some edges of a group, one on each. -/
structure DuplicateGroup.Members (group : DuplicateGroup) (members : List (Member σ α)) : Prop where
  names : (members.map Member.name).Nodup
  edges : (members.map (·.edge.id)).Nodup
  grouped : ∀ m ∈ members, m.edge.group = some group
  stored : ∀ m ∈ members, m.edge.store ≠ none

namespace DuplicateGroup.Members

variable {group : DuplicateGroup} {members : List (Member σ α)} {m m' : Member σ α}
  {task : TaskId} {calls : List (Call σ α)}

theorem of_find {name : String} (h : members.find? (·.name = name) = some m) :
    m ∈ members ∧ m.name = name :=
  ⟨List.mem_of_find?_eq_some h, by simpa using List.find?_some h⟩

def programs (h : group.Members members) (task : TaskId) : Programs σ α where
  program name := (members.find? (·.name = name)).map (·.program task)
  distinct hp hp' hid := by
    obtain ⟨m, hm, rfl⟩ := Option.map_eq_some_iff.mp hp
    obtain ⟨m', hm', rfl⟩ := Option.map_eq_some_iff.mp hp'
    obtain ⟨hmem, rfl⟩ := of_find hm
    obtain ⟨hmem', rfl⟩ := of_find hm'
    exact congrArg Member.name
      (List.inj_on_of_nodup_map h.edges hmem' hmem (BlockId.edge_of_eq hid))

theorem program_of_mem (h : group.Members members) (hm : m ∈ members) :
    (h.programs task).program m.name = some (m.program task) := by
  refine Option.map_eq_some_iff.mpr ⟨m, ?_, rfl⟩
  obtain ⟨m', hm'⟩ := Option.isSome_iff_exists.mp
    (List.find?_isSome (p := (·.name = m.name)).mpr ⟨m, hm, decide_eq_true rfl⟩)
  obtain ⟨hmem', hname⟩ := of_find hm'
  rw [hm', List.inj_on_of_nodup_map h.names hmem' hm hname]

/-- Each call is made on the writer of a member. -/
theorem mem_of_interleaved (h : group.Members members)
    (hcalls : (h.programs task).Interleaved calls) {call : Call σ α} (hcall : call ∈ calls) :
    ∃ m ∈ members, call ∈ (m.program task).under m.name := by
  obtain ⟨name, p, hp, hmem⟩ := hcalls.mem hcall
  obtain ⟨m, hm, rfl⟩ := Option.map_eq_some_iff.mp hp
  obtain ⟨hmember, rfl⟩ := of_find hm
  exact ⟨m, hmember, hmem⟩

/-- Calls that are what each member does, and nothing else, are an interleaving. -/
theorem interleaved_of_about (h : group.Members members)
    (hcalls : ∀ call ∈ calls, ∃ m ∈ members, call.writer? = some m.name)
    (hmembers : ∀ m ∈ members, Call.about m.name calls = (m.program task).under m.name) :
    (h.programs task).Interleaved calls := by
  refine ⟨fun call hcall hnobody => ?_, fun name => ?_⟩
  · obtain ⟨m, -, hwriter⟩ := hcalls call hcall
    cases hnobody.symm.trans hwriter
  · show _ = Option.elim (Option.map _ (members.find? (·.name = name))) _ _
    cases hfind : members.find? (·.name = name) with
    | some m =>
      obtain ⟨hm, rfl⟩ := of_find hfind
      exact hmembers m hm
    | none =>
      refine List.filter_eq_nil_iff.mpr fun call hcall hname => ?_
      obtain ⟨m, hm, hwriter⟩ := hcalls call hcall
      obtain rfl : m.name = name :=
        Option.some.inj (hwriter.symm.trans (of_decide_eq_true hname))
      exact List.find?_eq_none.mp hfind m hm (decide_eq_true rfl)

/-- All edges but one are omitted. -/
theorem countP_omits (h : group.Members members) (hsize : 1 < group.size) (hmember : m ∈ members)
    (hrepresents : m.edge.id = group.representative)
    (hcalls : (h.programs task).Interleaved calls) :
    calls.countP Call.omits = members.length - 1 := by
  have hall : calls.countP Call.omits = members.countP (·.edge.isDuplicateOmitted) := by
    refine Member.countP_members h.names (fun call hcall => ?_) fun m hm => ?_
    · obtain ⟨m, hm, hmem⟩ := h.mem_of_interleaved hcalls hcall
      exact ⟨m, hm, (Program.under_of_mem hmem).writer⟩
    · rw [hcalls.about_some (h.program_of_mem hm), Member.countP_program]
  have hone : members.countP (fun m => ¬ m.edge.isDuplicateOmitted = true) = 1 := by
    have hcount := List.count_eq_one_of_mem h.edges (List.mem_map_of_mem hmember)
    rw [List.count, List.countP_map] at hcount
    rw [← hcount]
    refine List.countP_congr fun m' hm' => ?_
    simp [Edge.isDuplicateOmitted_iff (h.grouped m' hm') hsize, hrepresents]
  have hlength := List.length_eq_countP_add_countP (l := members) (·.edge.isDuplicateOmitted)
  rw [hall]
  simp only [decide_not, Bool.decide_eq_true] at hone hlength
  omega

theorem idle_of_omits (h : group.Members members) (hcalls : (h.programs task).Interleaved calls)
    {call : Call σ α} (hcall : call ∈ calls) (homits : call.omits = true) : call.Idle := by
  obtain ⟨m, hm, hmem⟩ := h.mem_of_interleaved hcalls hcall
  obtain rfl | hasked := List.mem_cons.mp hmem
  · exact ⟨homits, h.stored m hm⟩
  · obtain ⟨c, -, rfl⟩ := List.mem_map.mp hasked
    cases c <;> trivial

/-- Whoever does not write the representative's output has nothing to do, and has another block. -/
theorem idle_of_other (h : group.Members members) (hsize : 1 < group.size) (hmember : m ∈ members)
    (hrepresents : m.edge.id = group.representative)
    (hcalls : (h.programs task).Interleaved calls) {call : Call σ α} (hcall : call ∈ calls)
    (hother : call.writer? ≠ some m.name) :
    call.Idle ∧ call.Foreign m.name (.of m.edge.id task) := by
  obtain ⟨m', hm', hmem⟩ := h.mem_of_interleaved hcalls hcall
  have hwriter : call.writer? = some m'.name := (Program.under_of_mem hmem).writer
  have hname : m'.name ≠ m.name := fun hsame => hother (hwriter.trans (congrArg some hsame))
  have hedge : m'.edge.id ≠ m.edge.id := fun hsame =>
    hname (congrArg Member.name (List.inj_on_of_nodup_map h.edges hm' hmember hsame))
  obtain rfl | hasked := List.mem_cons.mp hmem
  · refine ⟨⟨?_, h.stored m' hm'⟩, hname, fun hsame => hedge (BlockId.edge_of_eq hsame)⟩
    exact (Edge.isDuplicateOmitted_iff (h.grouped m' hm') hsize).mpr (hrepresents ▸ hedge)
  · obtain ⟨c, -, rfl⟩ := List.mem_map.mp hasked
    cases c <;> exact ⟨trivial, hname⟩

end DuplicateGroup.Members

/-! ## Runs -/

namespace Session

open Writer Executor

variable [Measured α] {task : TaskId} {store : StoreKind} {pattern : CommunicationPattern}
  {persistence : Persistence} {calls : List (Call σ α)}

/-- However the writers of a group are interleaved, the representative's block is registered, once,
and with the reads of its edge. -/
theorem run_enters {m : Member σ α} {e : Executor α} (hready : e.Ready)
    (hedge : m.edge.Complete m.destination store pattern persistence)
    (hfiles : Spacious (.of m.edge.id task) e)
    (hcodec : ∀ x ∈ m.elements, e.registry.medium.codec.Encodes x)
    (hmine : Call.about m.name calls = (m.program task).under m.name)
    (hothers : ∀ call ∈ calls, call.writer? ≠ some m.name →
      call.Idle ∧ call.Foreign m.name (.of m.edge.id task)) :
    let left := (Session.run (σ := σ) { executor := e } calls).executor
    ∃ entry : RegisteredBlock α,
      m.destination.expectedReads m.edge = .ok entry.info.expectedReads ∧
      left.registry.blocks = (.of m.edge.id task, entry) ::
        e.registry.blocks.filter (·.1 ≠ .of m.edge.id task) ∧
      ∀ id, left.registrations id =
        e.registrations id + if id = .of m.edge.id task then 1 else 0 := by
  intro left
  obtain ⟨before, during, later, rfl, hbefore, hduring, hgiven, hlater⟩ := Member.split hmine
  rw [← hgiven] at hcodec
  obtain ⟨hbears, hlone, hnone⟩ := run_carries_lone (p := m.partitioner) hready hedge hfiles hbefore
    hduring (fun call hcall => hothers call (by
      simp only [List.mem_append, List.mem_cons] at hcall ⊢
      tauto)) hcodec
  have hregular := (Regular.start (σ := σ) hready.estimator).run
    (before ++ .openWriter m.name task m.edge m.destination m.partitioner :: during)
  obtain ⟨entry, hreads, hblocks, hregistrations⟩ := close_enters hbears hregular hedge hcodec
  -- nothing is entered after the close either
  have hclosed : Lone m.name (perform (.close m.name) (Session.run { executor := e } (before ++
      .openWriter m.name task m.edge m.destination m.partitioner :: during))).2 :=
    hlone.perform (.inl rfl)
  have hafter := run_unentered hclosed fun call hcall =>
    .inr ⟨hlater call hcall, (hothers call (by simp [hcall]) (hlater call hcall)).1⟩
  have hleft : left = ((perform (.close m.name) (Session.run (σ := σ) { executor := e }
      (before ++ .openWriter m.name task m.edge m.destination m.partitioner :: during))).2.run
        later).executor := by
    rw [← run_cons, ← run_append, List.append_assoc, List.cons_append]
  rw [hleft]
  refine ⟨entry, hreads, ?_, fun id => ?_⟩
  · rw [unentered_blocks hafter, ← unentered_blocks hnone]
    exact hblocks
  · rw [unentered_registrations hafter, ← unentered_registrations hnone]
    exact hregistrations id

/-- Writers are opened for one task on edges of a group of more than one, among them the one that
represents the group, are given elements and closed. However their calls are interleaved:

* each call of another writer succeeds, gives it no block and leaves the executor as it is, with all
  blocks, charges and registrations, except that its opening is counted;
* one registration is asked for, under the name of the representative's block, and this block is
  registered, with as many reads to expect as all edges of the group have readers, as far as a word
  holds them;
* one omitted duplicate is counted for each writer but the representative's. -/
theorem run_group {group : DuplicateGroup} {members : List (Member σ α)} {m : Member σ α}
    {e : Executor α} (hmembers : group.Members members) (hsize : 1 < group.size)
    (hmember : m ∈ members) (hrepresents : m.edge.id = group.representative)
    (hpattern : m.edge.pattern = some pattern)
    (hpersistence : m.edge.persistence = some persistence)
    (hreaders : 0 < m.destination.readers pattern) (hready : e.Ready)
    (hfiles : Spacious (.of m.edge.id task) e)
    (hcodec : ∀ x ∈ m.elements, e.registry.medium.codec.Encodes x)
    (hcalls : (hmembers.programs task).Interleaved calls) :
    let start : Session σ α := { executor := e }
    let left := (start.run calls).executor
    (∀ before call after, calls = before ++ call :: after → call.writer? ≠ some m.name →
      let s := start.run before
      (perform call s).1 = .ok () ∧ (perform call s).2.Lone m.name ∧
        (perform call s).2.executor = { s.executor with metrics :=
          if call.omits then s.executor.metrics.duplicateOmitted else s.executor.metrics }) ∧
    (∀ id, left.registrations id =
      e.registrations id + if id = .of m.edge.id task then 1 else 0) ∧
    (∃ entry : RegisteredBlock α,
      left.registry.blocks = (.of m.edge.id task, entry) ::
        e.registry.blocks.filter (·.1 ≠ .of m.edge.id task) ∧
      entry.info.expectedReads.toNat =
        min (2 ^ 32 - 1) (m.destination.readers pattern * group.size.toNat)) ∧
    left.metrics.duplicatesOmitted = e.metrics.duplicatesOmitted + .ofNat (members.length - 1) := by
  intro start left
  have hgroup := hmembers.grouped m hmember
  have hothers : ∀ call ∈ calls, call.writer? ≠ some m.name →
      call.Idle ∧ call.Foreign m.name (.of m.edge.id task) := fun call hcall =>
    hmembers.idle_of_other hsize hmember hrepresents hcalls hcall
  have hown : m.edge.isDuplicateOmitted = false := by
    rw [← Bool.not_eq_true, Edge.isDuplicateOmitted_iff hgroup hsize, not_not]
    exact hrepresents
  have hmine := hcalls.about_some (hmembers.program_of_mem hmember)
  obtain ⟨store, hstore⟩ := Option.ne_none_iff_exists'.mp (hmembers.stored m hmember)
  have hedge : m.edge.Complete m.destination store pattern persistence :=
    ⟨hown, hstore, hpattern, hpersistence, hreaders⟩
  refine ⟨fun before call after hsplit hother => ?_, ?_⟩
  · have hbefore : (start.run before).Lone m.name := (Lone.start e).run fun call hcall =>
      or_iff_not_imp_left.mpr fun hname => (hothers call (by simp [hsplit, hcall]) hname).1
    exact perform_idle hbefore (hothers call (by simp [hsplit]) hother).1 hother
  · obtain ⟨entry, hreads, hblocks, hregistrations⟩ :=
      run_enters hready hedge hfiles hcodec hmine hothers
    refine ⟨hregistrations, ⟨entry, hblocks, ?_⟩, ?_⟩
    · obtain ⟨reads, hasked, hexpected⟩ := hedge.expectedReads
      rw [hreads] at hasked
      rw [Except.ok.inj hasked, hexpected, Edge.duplicateMultiplier_eq hgroup hsize]
      exact Nat.min_comm _ _
    · rw [← hmembers.countP_omits hsize hmember hrepresents hcalls]
      exact run_omits (.start hready.estimator) fun call => hmembers.idle_of_omits hcalls

/-- Three edges to four tasks each, and the writers of two of them are faster. -/
theorem run_group_three :
    let group : DuplicateGroup := ⟨"g", 3, ⟨"a"⟩⟩
    let member (name : String) (elements : List UInt64) : Member UInt32 UInt64 := {
      name
      edge := {
        id := ⟨name⟩
        store := some .memoryFile
        pattern := some .broadcast
        persistence := some .keep
        group := some group }
      destination := ⟨⟨"v"⟩, some 4⟩
      partitioner := .intact
      elements }
    let e : Executor UInt64 := {
      registry := { medium := { codec := .json } }
      pool := .ofCapacity 150
      estimator := .ofOptions {} }
    let opening (name : String) : Call UInt32 UInt64 :=
      ((member name []).program ⟨"t"⟩).opening name
    let calls := [opening "b", .write "b" 7, opening "a", .write "a" 7, .close "b", .write "a" 8,
      opening "c", .close "c", .close "a"]
    let left := (Session.run { executor := e } calls).executor
    (perform (.write "b" 7) (Session.run { executor := e } [opening "b"])).1 = .ok () ∧
      left.registrations ⟨"a-t"⟩ = 1 ∧ left.registrations ⟨"b-t"⟩ = 0 ∧
      (left.registry.info? ⟨"a-t"⟩).map (·.expectedReads.toNat) = some 12 ∧
      left.metrics.duplicatesOmitted = 2 := by
  intro group member e opening calls left
  have hmembers : group.Members [member "a" [7, 8], member "b" [7], member "c" []] :=
    ⟨by decide, by decide, by simp [member], by simp [member]⟩
  have hcalls : (hmembers.programs ⟨"t"⟩).Interleaved calls :=
    hmembers.interleaved_of_about (by simp [calls, opening, Program.opening, Call.writer?, member])
      (by
        intro m hm
        simp only [List.mem_cons, List.not_mem_nil, or_false] at hm
        obtain rfl | rfl | rfl := hm <;> rfl)
  have hcodec : ∀ x ∈ [(7 : UInt64), 8], e.registry.medium.codec.Encodes x := by
    intro x hx earlier
    simp only [List.mem_cons, List.not_mem_nil, or_false] at hx
    obtain rfl | rfl := hx <;> exact ⟨_, rfl, by decide⟩
  have hready : e.Ready := ⟨fun _ h => absurd h List.not_mem_nil, by decide,
    SizeEstimator.usable_ofOptions (by decide)⟩
  obtain ⟨hothers, hregistrations, ⟨entry, hblocks, hreads⟩, hcount⟩ :=
    run_group (m := member "a" [7, 8]) hmembers (by decide) List.mem_cons_self rfl rfl rfl
      (by decide) hready ⟨rfl, .of_unnamed rfl, by decide⟩ hcodec hcalls
  refine ⟨(hothers [opening "b"] (.write "b" 7) _ rfl (by decide)).1, ?_, ?_, ?_, ?_⟩
  · rw [hregistrations]
    decide
  · rw [hregistrations]
    decide
  · have hid : BlockId.of (member "a" [7, 8]).edge.id ⟨"t"⟩ = ⟨"a-t"⟩ := rfl
    rw [Registry.info?, Registry.entry?, hblocks, hid, List.lookup_cons_self]
    exact congrArg some (hreads.trans (by decide))
  · rw [hcount]
    rfl

end Session

end ShuffleBuffer
