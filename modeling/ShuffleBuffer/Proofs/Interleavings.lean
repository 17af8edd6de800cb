import ShuffleBuffer.Proofs.Solo

/-! # Interleavings of writers

Several writers on blocks of different names share an executor, and each of them runs a program of
its own. If the codec answers to an element as it always does, nobody sees how their programs are
interleaved, closes apart: those look at what the earlier ones have left of the pool. -/

namespace ShuffleBuffer

open Estimate Step

variable {σ α : Type}

/-- A writer is opened for the output of a task on an edge; then come its calls. -/
structure Program (σ α : Type) where
  task : TaskId
  edge : Edge
  destination : Destination
  partitioner : Partitioner σ α
  calls : List (WriterCall α)

namespace Program

def id (p : Program σ α) : BlockId := .of p.edge.id p.task

def opening (name : String) (p : Program σ α) : Call σ α :=
  .openWriter name p.task p.edge p.destination p.partitioner

/-- The program as it is run by the writer of this name. -/
def under (name : String) (p : Program σ α) : List (Call σ α) :=
  p.opening name :: p.calls.map (WriterCall.under name)

variable {name : String} {p : Program σ α} {call : Call σ α}

theorem opens_of_mem (h : call ∈ p.calls.map (WriterCall.under name)) (other : String) :
    call.opens? ≠ some other := by
  obtain ⟨asked, -, rfl⟩ := List.mem_map.mp h
  cases asked <;> nofun

theorem under_of_mem (h : call ∈ p.under name) : call.Under name p.id := by
  obtain rfl | h := List.mem_cons.mp h
  · exact ⟨rfl, rfl⟩
  · obtain ⟨asked, -, rfl⟩ := List.mem_map.mp h
    cases asked <;> rfl

theorem under_once (name : String) (p : Program σ α) : (p.under name).Pairwise fun call other =>
    ∀ n, call.opens? = some n → other.opens? ≠ some n := by
  refine List.pairwise_cons.mpr ⟨fun other hmem n _ => opens_of_mem hmem n, ?_⟩
  exact List.pairwise_iff_forall_sublist.mpr fun hsub n _ =>
    opens_of_mem (hsub.subset (.tail _ List.mem_cons_self)) n

end Program

/-- The programs of some writers by the writers' names. No two of them are on blocks of the same
name. -/
structure Programs (σ α : Type) where
  program : String → Option (Program σ α)
  distinct : ∀ {name name' p p'}, program name = some p → program name' = some p' →
    p'.id = p.id → name' = name

namespace Programs

variable {ps : Programs σ α} {calls : List (Call σ α)} {name : String} {p : Program σ α}

def allotment (ps : Programs σ α) : Allotment where
  block name := (ps.program name).map Program.id
  single h h' := by
    obtain ⟨p, hp, hid⟩ := Option.map_eq_some_iff.mp h
    obtain ⟨p', hp', hid'⟩ := Option.map_eq_some_iff.mp h'
    exact ps.distinct hp hp' (hid'.trans hid.symm)

/-- In these calls every writer runs its program, and nobody else does anything. -/
structure Interleaved (ps : Programs σ α) (calls : List (Call σ α)) : Prop where
  named : ∀ call ∈ calls, call.writer? ≠ none
  about : ∀ name, Call.about name calls = (ps.program name).elim [] (·.under name)

theorem Interleaved.about_some (h : ps.Interleaved calls) (hp : ps.program name = some p) :
    Call.about name calls = p.under name := by
  rw [h.about, hp, Option.elim_some]

/-- Each call belongs to a program. -/
theorem Interleaved.mem (h : ps.Interleaved calls) {call : Call σ α} (hmem : call ∈ calls) :
    ∃ name p, ps.program name = some p ∧ call ∈ p.under name := by
  obtain ⟨name, hname⟩ := Option.ne_none_iff_exists'.mp (h.named call hmem)
  have hmine : call ∈ Call.about name calls := List.mem_filter.mpr ⟨hmem, decide_eq_true hname⟩
  rw [h.about] at hmine
  cases hp : ps.program name with
  | none =>
    rw [hp] at hmine
    cases hmine
  | some p =>
    rw [hp] at hmine
    exact ⟨name, p, hp, hmine⟩

/-- Before anything is done, all calls of an interleaving are to come. -/
theorem Interleaved.pending (h : ps.Interleaved calls) (e : Executor α) :
    Session.Pending ps.allotment { executor := e } calls := by
  refine ⟨fun call hmem => ?_, fun call _ => ?_, ?_⟩
  · obtain ⟨name, p, hp, hcall⟩ := h.mem hmem
    exact ⟨name, p.id, congrArg (Option.map Program.id) hp, Program.under_of_mem hcall⟩
  · cases call with
    | openWriter => rfl
    | write | close | drop | removeBlock | disturb => trivial
  · refine List.pairwise_iff_forall_sublist.mpr fun {call other} hsub n hopens hopens' => ?_
    -- both calls open the same writer, so they stand like this in its program
    have hmine := hsub.filter (·.writer? = some n)
    rw [List.filter_cons_of_pos (by simp [Call.writer_of_opens hopens]),
      List.filter_cons_of_pos (by simp [Call.writer_of_opens hopens']), List.filter_nil] at hmine
    obtain ⟨name, p, hp, hcall⟩ := h.mem (hsub.subset List.mem_cons_self)
    obtain rfl : name = n := Option.some.inj
      ((Program.under_of_mem hcall).writer.symm.trans (Call.writer_of_opens hopens))
    rw [show calls.filter _ = p.under name from h.about_some hp] at hmine
    exact List.pairwise_iff_forall_sublist.mp (p.under_once name) hmine name hopens hopens'

/-- Nobody opens a writer that was closed. -/
theorem Interleaved.last (h : ps.Interleaved calls) (hp : ps.program name = some p)
    {before after : List (Call σ α)} (hcalls : calls = before ++ .close name :: after) :
    ∀ call ∈ after, call.opens? ≠ some name := by
  subst hcalls
  have hmine := h.about_some hp
  rw [Call.about_append, Call.about_mine rfl, Program.under] at hmine
  intro call hmem hopens
  have hcall : call ∈ Call.about name after :=
    List.mem_filter.mpr ⟨hmem, decide_eq_true (Call.writer_of_opens hopens)⟩
  cases hbefore : Call.about name before with
  | nil =>
    rw [hbefore] at hmine
    cases (List.cons.inj hmine).1
  | cons opening before' =>
    rw [hbefore] at hmine
    have hasked : call ∈ p.calls.map (WriterCall.under name) := by
      rw [← (List.cons.inj hmine).2]
      exact List.mem_append_right _ (.tail _ hcall)
    exact Program.opens_of_mem hasked name hopens

/-- One interleaving becomes any other by exchanges, if closes come one after the other alike. -/
theorem Interleaved.exchange {calls' : List (Call σ α)} (h : ps.Interleaved calls)
    (h' : ps.Interleaved calls') (hcloses : calls'.filter Call.isClose = calls.filter Call.isClose) :
    Call.Exchange calls calls' := by
  refine .of_filter (fun writer => ?_) hcloses
  cases writer with
  | some name => exact (h'.about name).trans (h.about name).symm
  | none =>
    have hnobody : ∀ {calls : List (Call σ α)}, (∀ call ∈ calls, call.writer? ≠ none) →
        calls.filter (·.writer? = none) = [] := fun h =>
      List.filter_eq_nil_iff.mpr fun call hmem => by simpa using h call hmem
    rw [hnobody h'.named, hnobody h.named]

/-- Two writers. -/
def pair (name : String) (p : Program σ α) (other : String) (q : Program σ α) (hid : q.id ≠ p.id) :
    Programs σ α where
  program n := if n = name then some p else if n = other then some q else none
  distinct := by
    intro n n' r r' hr hr' hsame
    split_ifs at hr hr' <;> simp_all

theorem interleaved_pair {other : String} {q : Program σ α} {hid : q.id ≠ p.id}
    (hne : other ≠ name)
    (hwriters : ∀ call ∈ calls, call.writer? = some name ∨ call.writer? = some other)
    (hp : Call.about name calls = p.under name) (hq : Call.about other calls = q.under other) :
    (pair name p other q hid).Interleaved calls := by
  refine ⟨fun call hmem hnobody => ?_, fun n => ?_⟩
  · obtain hcall | hcall := hwriters call hmem <;> cases hnobody.symm.trans hcall
  · by_cases hn : n = name
    · simp [pair, hn, hp]
    by_cases hn' : n = other
    · simp [pair, hn', hne, hq]
    · have hothers : Call.about n calls = [] := by
        refine List.filter_eq_nil_iff.mpr fun call hmem => ?_
        obtain hcall | hcall := hwriters call hmem <;> simp [hcall, Ne.symm hn, Ne.symm hn']
      simp [pair, hn, hn', hothers]

end Programs

namespace Session

variable [Measured α] {e : Executor α} {ps : Programs σ α} {calls calls' : List (Call σ α)}

/-- However the programs of writers on blocks of different names are interleaved, as long as closes
come one after the other alike, each call answers the same, the same blocks are registered, with the
same to read from them, and the same has been charged, created and counted. So each writer answers
what it answers alone, and leaves the same block behind, if its first close finds the same pool. -/
theorem run_interleaved (hsteady : e.registry.medium.codec.Steady)
    (hformed : e.registry.medium.dir.WellFormed) (hkeyed : e.registry.Keyed)
    (husable : e.estimator.Usable) (hcalls : ps.Interleaved calls) (hcalls' : ps.Interleaved calls')
    (hcloses : calls'.filter Call.isClose = calls.filter Call.isClose) :
    let start : Session σ α := { executor := e }
    let left := (start.run calls).executor
    let left' := (start.run calls').executor
    (∀ name, answers name calls' start = answers name calls start) ∧
      (∀ id, left'.registry.info? id = left.registry.info? id ∧
        ∀ key, left'.registry.readPartition id key = left.registry.readPartition id key) ∧
      left'.registry.replacements = left.registry.replacements ∧
      left'.pool = left.pool ∧ left'.registry.created = left.registry.created ∧
      left'.metrics = left.metrics ∧
      ∀ name p pool, ps.program name = some p →
        (∀ found ∈ foundPool name calls start, found = pool) →
        let alone : Session σ α := { executor := { e with pool } }
        let leftAlone := (alone.run (p.under name)).executor
        answers name (p.under name) alone = answers name calls start ∧
          leftAlone.registry.info? p.id = left.registry.info? p.id ∧
          ∀ key, leftAlone.registry.readPartition p.id key =
            left.registry.readPartition p.id key := by
  intro start left left'
  have hallotted : ∀ pool, Allotted ps.allotment ({ executor := { e with pool } } : Session σ α) :=
    fun _ => ⟨hformed, hkeyed, nofun⟩
  have hlanes : ∀ id pool, Twin ps.allotment (fun g g' => g' = { g with pool }) id start
      { executor := { e with pool } } :=
    fun id pool => ⟨Executor.twin_withPool id hsteady hformed husable pool, fun _ => .none⟩
  have halike : Alike ps.allotment start start :=
    ⟨hallotted e.pool, hallotted e.pool, fun id => (hlanes id e.pool).sharing trivial, rfl⟩
  have hpending := hcalls.pending e
  obtain ⟨hanswers, hleft⟩ := run_exchange (hcalls.exchange hcalls' hcloses) halike hpending
  have hshared := hleft.shared
  refine ⟨hanswers, fun id => ⟨(hleft.lane id).executor.info,
    (hleft.lane id).executor.readPartition hleft.allotted.keyed⟩,
    congrArg Shared.replacements hshared, congrArg Shared.pool hshared,
    congrArg Shared.created hshared, congrArg Shared.metrics hshared, fun name p pool hp hfinds => ?_⟩
  have hpools : Twin ps.allotment (fun _ g => g.pool = pool) p.id start
      { executor := { e with pool } } := (hlanes p.id pool).sharing rfl
  obtain ⟨hanswers', hlane⟩ := run_solo (congrArg (Option.map Program.id) hp) (hallotted e.pool)
    hpending (fun _ _ => hcalls.last hp) hfinds hpools
  rw [hcalls.about_some hp] at hanswers' hlane
  exact ⟨hanswers', hlane.executor.info, hlane.executor.readPartition hleft.allotted.keyed⟩

/-- Two writers share a pool that has enough for one of them only. -/
theorem run_interleaved_pair :
    let edge : Edge := {
      id := ⟨"e"⟩
      store := some .memoryFile
      pattern := some .oneToOne
      persistence := some .keep }
    let e : Executor UInt64 := {
      registry := { medium := { codec := .json }, returnsCharges := true }
      pool := .ofCapacity 150
      estimator := .ofOptions {} }
    let program (task : String) (calls : List (WriterCall UInt64)) : Program UInt32 UInt64 :=
      ⟨⟨task⟩, edge, ⟨⟨"v"⟩, none⟩, .intact, calls⟩
    let p := program "t" [.write 7, .close]
    let q := program "u" [.write 8, .write 9, .close]
    let start : Session UInt32 UInt64 := { executor := e }
    let left := (start.run
      [p.opening "a", .write "a" 7, .close "a", q.opening "b", .write "b" 8, .write "b" 9,
        .close "b"]).executor
    let left' := (start.run
      [q.opening "b", .write "b" 8, p.opening "a", .write "a" 7, .write "b" 9, .close "a",
        .close "b"]).executor
    let alone := Session.run { executor := { e with pool := ⟨150, 38, [(⟨"e-t"⟩, 112)]⟩ } }
      (q.under "b")
    left.pool = ⟨150, 38, [(⟨"e-t"⟩, 112)]⟩ ∧ left'.pool = left.pool ∧
      left'.metrics = left.metrics ∧ left'.registry.info? ⟨"e-u"⟩ = left.registry.info? ⟨"e-u"⟩ ∧
      alone.executor.registry.readPartition ⟨"e-u"⟩ 0 = .ok [8, 9] := by
  intro edge e program p q start left left' alone
  have hid : q.id ≠ p.id := by decide
  have hcalls : (Programs.pair "a" p "b" q hid).Interleaved [p.opening "a", .write "a" 7,
      .close "a", q.opening "b", .write "b" 8, .write "b" 9, .close "b"] :=
    Programs.interleaved_pair (by decide) (by simp [Program.opening, Call.writer?]) rfl rfl
  have hcalls' : (Programs.pair "a" p "b" q hid).Interleaved [q.opening "b", .write "b" 8,
      p.opening "a", .write "a" 7, .write "b" 9, .close "a", .close "b"] :=
    Programs.interleaved_pair (by decide) (by simp [Program.opening, Call.writer?]) rfl rfl
  obtain ⟨-, hreaders, -, hpool, -, hmetrics, halone⟩ := run_interleaved (e := e)
    (fun _ _ _ => rfl) (.of_unnamed rfl) (List.forall_mem_nil _)
    (SizeEstimator.usable_ofOptions (by decide)) hcalls hcalls' rfl
  have hfound : ∀ found ∈ foundPool "b" [p.opening "a", .write "a" 7, .close "a", q.opening "b",
      .write "b" 8, .write "b" 9, .close "b"] start, found = ⟨150, 38, [(⟨"e-t"⟩, 112)]⟩ := by
    decide +kernel
  have hread := (halone "b" q _ rfl hfound).2.2 0
  have hnamed : q.id = ⟨"e-u"⟩ := by decide
  rw [hnamed] at hread
  have hleft : left.pool = ⟨150, 38, [(⟨"e-t"⟩, 112)]⟩ := by decide +kernel
  have hreads : left.registry.readPartition ⟨"e-u"⟩ 0 = .ok [8, 9] := by decide +kernel
  simp only [left, left', alone, start] at hleft hreads ⊢
  exact ⟨hleft, hpool, hmetrics, (hreaders _).1, hread.trans hreads⟩

/-- A codec that gives out tells whose turn it was. And where the codec takes no element at all, a
writer that would be admitted alone fails once the pool is taken. -/
theorem sharing_shows :
    let edge (store : StoreKind) : Edge := {
      id := ⟨"e"⟩
      store := some store
      pattern := some .oneToOne
      persistence := some .keep }
    let program (store : StoreKind) (task : String) (x : UInt64) : Program UInt32 UInt64 :=
      ⟨⟨task⟩, edge store, ⟨⟨"v"⟩, none⟩, .intact, [.write x, .close]⟩
    let start (codec : Codec UInt64) : Session UInt32 UInt64 := {
      executor := {
        registry := { medium := { codec } }
        pool := .ofCapacity 150
        estimator := .ofOptions {} } }
    let p := program .serializedMemory "t" 7
    let q := program .serializedMemory "u" 8
    let calls := p.under "a" ++ q.under "b"
    let calls' := [q.opening "b", .write "b" 8] ++ p.under "a" ++ [.close "b"]
    let worn := start (Codec.json.failingEncode 2)
    let p' := program .memoryFile "t" 7
    let q' := program .memoryFile "u" 8
    let closed := start { Codec.json with encode := fun _ _ => .error .codec }
    ((∃ hid, (Programs.pair "a" p "b" q hid).Interleaved calls ∧
        (Programs.pair "a" p "b" q hid).Interleaved calls') ∧
      calls'.filter Call.isClose = calls.filter Call.isClose ∧
      answers "a" calls worn = [.ok (), .ok (), .ok ()] ∧
      answers "a" calls' worn = [.ok (), .error .codec, .ok ()] ∧
      (worn.run calls).executor.registry.readPartition ⟨"e-t"⟩ 0 = .ok [7] ∧
      (worn.run calls').executor.registry.readPartition ⟨"e-t"⟩ 0 = .ok []) ∧
    answers "b" (q'.under "b") closed = [.ok (), .ok (), .ok ()] ∧
    answers "b" (p'.under "a" ++ q'.under "b") closed = [.ok (), .ok (), .error .codec] := by
  intro edge program start p q calls calls' worn p' q' closed
  refine ⟨⟨⟨by decide, ?_, ?_⟩, rfl, by decide +kernel⟩, by decide +kernel⟩
  · exact Programs.interleaved_pair (by decide)
      (by simp [calls, p, q, program, Program.under, Program.opening, WriterCall.under, Call.writer?])
      rfl rfl
  · exact Programs.interleaved_pair (by decide)
      (by simp [calls', p, q, program, Program.under, Program.opening, WriterCall.under,
        Call.writer?]) rfl rfl

end Session

end ShuffleBuffer
