import ShuffleBuffer.Proofs.Callers
import ShuffleBuffer.Proofs.Interleavings

/-! # Two writers side by side

A block is known by one text, in which a hyphen joins the names of its edge and its task. Names may
hold hyphens themselves, so it can be that two pairs of names give one block. Where they do not, two
writers leave two blocks behind, and each block gives back what its own writer was given. -/

namespace ShuffleBuffer

open Estimate Step

variable {σ α : Type}

/-! ## Names -/

/-- What follows a hyphen in the name of the second edge stands in front of a hyphen in the name of
the first task, and apart from this the names are alike. -/
def BlockId.Clash (edge : EdgeId) (task : TaskId) (edge' : EdgeId) (task' : TaskId) : Prop :=
  ∃ middle, edge'.text = edge.text ++ "-" ++ middle ∧ task.text = middle ++ "-" ++ task'.text

/-- What one name has more than the other begins with a hyphen, if it is anything at all. -/
theorem clash_of_longer {edge edge' task task' : String} {rest : List Char}
    (hedge : edge'.toList = edge.toList ++ rest)
    (htask : '-' :: task.toList = rest ++ '-' :: task'.toList) :
    edge = edge' ∧ task = task' ∨
      ∃ middle : String, edge' = edge ++ "-" ++ middle ∧ task = middle ++ "-" ++ task' := by
  have hhyphen : "-".toList = ['-'] := rfl
  obtain ⟨rfl, hsame⟩ | ⟨middle, rfl, hmiddle⟩ := List.cons_eq_append_iff.mp htask
  · rw [List.append_nil] at hedge
    exact .inl ⟨String.toList_inj.mp hedge.symm, String.toList_inj.mp (List.cons.inj hsame).2.symm⟩
  · refine .inr ⟨.ofList middle, String.toList_inj.mp ?_, String.toList_inj.mp ?_⟩
    · simp [hedge, hhyphen]
    · simp [hmiddle, hhyphen]

/-- A text can be taken apart at any of its hyphens, so this is all that pairs of one block name can
have in common. -/
theorem BlockId.of_eq_iff {edge edge' : EdgeId} {task task' : TaskId} :
    BlockId.of edge task = .of edge' task' ↔
      edge = edge' ∧ task = task' ∨ Clash edge task edge' task' ∨ Clash edge' task' edge task := by
  obtain ⟨edge⟩ := edge
  obtain ⟨edge'⟩ := edge'
  obtain ⟨task⟩ := task
  obtain ⟨task'⟩ := task'
  simp only [of, Clash, BlockId.mk.injEq, EdgeId.mk.injEq, TaskId.mk.injEq]
  constructor
  · intro hsame
    -- one edge's name is the beginning of the other's
    have hsame := congrArg String.toList hsame
    simp only [String.append_assoc, String.toList_append] at hsame
    obtain ⟨rest, hedge, htask⟩ | ⟨rest, hedge, htask⟩ := List.append_eq_append_iff.mp hsame
    · exact (clash_of_longer hedge htask).imp_right .inl
    · exact (clash_of_longer hedge htask).imp (fun h => ⟨h.1.symm, h.2.symm⟩) .inr
  · rintro (⟨rfl, rfl⟩ | ⟨middle, rfl, rfl⟩ | ⟨middle, rfl, rfl⟩)
    · rfl
    · simp only [String.append_assoc]
    · simp only [String.append_assoc]

/-- Two pairs of names that are not the same and do not clash give two blocks. -/
theorem BlockId.of_ne {edge edge' : EdgeId} {task task' : TaskId}
    (hpair : (edge', task') ≠ (edge, task)) (hclash : ¬ Clash edge task edge' task')
    (hclash' : ¬ Clash edge' task' edge task) : BlockId.of edge' task' ≠ .of edge task := by
  intro hsame
  obtain ⟨hedge, htask⟩ | hany | hany := of_eq_iff.mp hsame
  · exact hpair (Prod.ext hedge htask)
  · exact hclash' hany
  · exact hclash hany

namespace WriterCall

/-- What is written before the first close. -/
def written : List (WriterCall α) → List α
  | .write x :: calls => x :: written calls
  | .close :: _ => []
  | [] => []

theorem written_append {calls : List (WriterCall α)} (h : .close ∉ calls)
    (later : List (WriterCall α)) (name : String) :
    written (calls ++ .close :: later) =
      Call.given name (calls.map (WriterCall.under (σ := σ) name)) := by
  induction calls with
  | nil => rfl
  | cons call calls ih =>
    obtain ⟨hfirst, hrest⟩ := not_or.mp fun hmem => h (List.mem_cons.mpr hmem)
    cases call with
    | write x =>
      rw [List.cons_append, written, ih hrest, List.map_cons, under, Call.given, if_pos rfl]
    | close => exact absurd rfl hfirst

end WriterCall

theorem Call.given_about (name : String) (calls : List (Call σ α)) :
    Call.given name (Call.about name calls) = Call.given name calls := by
  induction calls with
  | nil => rfl
  | cons call calls ih =>
    by_cases hname : call.writer? = some name
    · rw [Call.about_mine hname]
      cases call with
      | write other x => simp only [Call.given, ih]
      | openWriter | close | drop | removeBlock | disturb => simpa only [Call.given] using ih
    · rw [Call.about_other hname, ih]
      cases call with
      | write other x => exact (if_neg fun hsame => hname (congrArg some hsame)).symm
      | openWriter | close | drop | removeBlock | disturb => rfl

theorem Call.given_writes (name : String) (xs : List α) :
    Call.given name (xs.map (Call.write (σ := σ) name)) = xs := by
  induction xs with
  | nil => rfl
  | cons x xs ih => rw [List.map_cons, Call.given, if_pos rfl, ih]

section About

variable {name : String} {asked : List (WriterCall α)} {calls during later : List (Call σ α)}

theorem asked_of_about (h : Call.about name calls = asked.map (WriterCall.under name)) :
    ∀ call ∈ calls, call.writer? = some name → ∃ c, call = WriterCall.under name c := by
  intro call hcall hname
  have hmem : call ∈ asked.map (WriterCall.under name) :=
    h ▸ List.mem_filter.mpr ⟨hcall, decide_eq_true hname⟩
  obtain ⟨c, -, hsame⟩ := List.mem_map.mp hmem
  exact ⟨c, hsame.symm⟩

theorem foreign_or_asked {id : BlockId}
    (h : Call.about name calls = asked.map (WriterCall.under name))
    (hothers : ∀ call ∈ calls, call.writer? ≠ some name → call.Foreign name id) :
    ∀ call ∈ calls, call.Foreign name id ∨ ∃ c, call = WriterCall.under name c := by
  intro call hcall
  by_cases hname : call.writer? = some name
  · exact .inr (asked_of_about h call hcall hname)
  · exact .inl (hothers call hcall hname)

/-- What the writer of a name is given up to its first close. -/
theorem given_of_about
    (h : Call.about name (during ++ .close name :: later) = asked.map (WriterCall.under name))
    (hunclosed : .close name ∉ during) :
    Call.given name during = WriterCall.written asked := by
  rw [Call.about_append, Call.about_mine rfl] at h
  obtain ⟨first, second, rfl, hfirst, hsecond⟩ := List.map_eq_append_iff.mp h.symm
  obtain ⟨c, second, rfl, hc, -⟩ := List.map_eq_cons_iff.mp hsecond
  obtain rfl : c = .close := by
    cases c with
    | write => cases hc
    | close => rfl
  have hnone : .close ∉ first := fun hmem => by
    have hcall : .close name ∈ Call.about name during :=
      hfirst ▸ List.mem_map_of_mem (f := WriterCall.under name) hmem
    exact hunclosed (List.mem_filter.mp hcall).1
  rw [WriterCall.written_append hnone _ name, hfirst, Call.given_about]

end About

/-! ## Up to the close -/

/-- An edge whose reads can be counted has readers. -/
theorem Destination.readers_of_expectedReads {edge : Edge} {dst : Destination} {reads : UInt32}
    (h : dst.expectedReads edge = .ok reads) :
    ∃ pattern, edge.pattern = some pattern ∧ 0 < dst.readers pattern := by
  cases hpattern : edge.pattern with
  | none => simp [expectedReads, Edge.requiredPattern, Edge.require, hpattern, bind, Except.bind] at h
  | some pattern =>
    refine ⟨pattern, rfl, ?_⟩
    rw [expectedReads, Edge.requiredPattern, hpattern, Edge.require] at h
    have hmany : ∀ n, dst.requiredParallelism edge = .ok n →
        0 < (dst.parallelism.getD 0).toNat := by
      intro n hn
      unfold requiredParallelism at hn
      split at hn
      · cases hn
      · next hnonzero heq =>
        rw [heq, Option.getD_some, Nat.pos_iff_ne_zero]
        exact fun hzero => hnonzero (UInt32.toNat_inj.mp hzero)
      · cases hn
    cases pattern with
    | oneToOne => exact Nat.one_pos
    | broadcast | shuffle =>
      simp only [bind, Except.bind] at h
      cases hn : dst.requiredParallelism edge with
      | error fault =>
        rw [hn] at h
        cases h
      | ok n => exact hmany n hn

namespace Writer

open Executor

/-- A writer of this edge whose block is not committed. -/
structure Unclosed (edge : Edge) (destination : Destination) (w : Writer σ α) : Prop where
  stage : Stage w
  uncommitted : w.state.isCommitted = false
  store : edge.store = some w.store
  omitted : edge.isDuplicateOmitted = true → w.state = .noOp
  edge : w.edge = edge
  destination : w.destination = destination

variable {edge : Edge} {destination : Destination} {w : Writer σ α} {e : Executor α}

/-- Where a close gets to the block, the edge has all that a writer needs. -/
theorem Unclosed.complete (h : Unclosed edge destination w) (hclosable : w.closable = true) :
    ∃ store pattern persistence, edge.Complete destination store pattern persistence := by
  obtain ⟨persistence, reads, -, hstate, hpersistence, hreads, -⟩ := of_closable hclosable
  rw [expectedReads, h.edge, h.destination] at hreads
  obtain ⟨pattern, hpattern, hreaders⟩ := Destination.readers_of_expectedReads hreads
  refine ⟨w.store, pattern, persistence, ?_, h.store, hpattern, h.edge ▸ hpersistence, hreaders⟩
  refine eq_false_of_ne_true fun homitted => ?_
  cases hstate.symm.trans (h.omitted homitted)

variable [Measured α]

/-- Before a close gets to the block, calls leave a writer as it is in all this. -/
theorem Unclosed.step (h : Unclosed edge destination w) (c : WriterCall α) :
    c = .close ∧ w.closable = true ∨ Unclosed edge destination (c.step (w, e)).2.1 := by
  cases c with
  | write x =>
    have hwrote := (write_stands (w := w) (e := e) x).1
    have halike := hwrote.alike
    refine .inr ⟨h.stage.wrote hwrote, ?_, ?_, fun homitted => ?_, halike.edge.trans h.edge,
      halike.destination.trans h.destination⟩
    · exact (congrArg WriterState.isCommitted halike.state).trans h.uncommitted
    · exact h.store.trans (congrArg some halike.store.symm)
    · exact halike.state.trans (h.omitted homitted)
  | close =>
    cases hclosable : w.closable with
    | true => exact .inl ⟨rfl, rfl⟩
    | false =>
      refine .inr ?_
      rw [WriterCall.step, close_idle hclosable]
      exact h

theorem make_unclosed (task : TaskId) (edge : Edge) (destination : Destination)
    (p : Partitioner σ α) :
    Leads (· = e) (make task edge destination p) (fun w _ => Unclosed edge destination w)
      fun _ => True := by
  have hdeclares : Leads (· = e) (make task edge destination p) (fun w _ => w.edge = edge ∧
      w.destination = destination ∧ (edge.isDuplicateOmitted = true → w.state = .noOp))
      fun _ => True := by
    refine Leads.bind (Q := fun _ _ => True) (Leads.ofExcept (fun _ _ _ _ => trivial)
      fun _ _ => trivial) fun store => ?_
    split
    · exact Leads.bind (Q := fun _ _ => True) (Leads.of_apply fun _ _ => trivial) fun _ =>
        Leads.pure fun _ _ => ⟨rfl, rfl, fun _ => rfl⟩
    · next hown =>
      refine Leads.bind (Q := fun _ _ => True) (Leads.of_apply fun _ _ => trivial) fun b => ?_
      by_cases hspills : store.spillsToDisk = true
      · simp only [if_pos hspills]
        refine Leads.bind (Q := fun _ _ => True) (Leads.of_apply fun _ _ => trivial) fun t => ?_
        exact Leads.pure fun _ _ => ⟨rfl, rfl, fun homitted => absurd homitted hown⟩
      · simp only [if_neg hspills]
        refine Leads.bind (Q := fun _ _ => True) (Leads.of_apply fun _ _ => trivial) fun t => ?_
        exact Leads.pure fun _ _ => ⟨rfl, rfl, fun homitted => absurd homitted hown⟩
  intro e' he'
  subst he'
  have hmade := hdeclares e' rfl
  have hopens := make_opens task edge destination p e' rfl
  generalize make task edge destination p e' = made at hmade hopens
  obtain ⟨result, e''⟩ := made
  cases result with
  | error fault => trivial
  | ok w =>
    obtain ⟨hedge, hdestination, homitted⟩ := hmade
    have hopened : Opened edge (.of edge.id task) e'.account w e''.account := hopens
    have hstage := Stage.of_opened hopened
    generalize e''.account = a at hopened
    cases hopened with
    | writing hstore _ hstate =>
      exact ⟨hstage, by rw [hstate]; rfl, hstore, homitted, hedge, hdestination⟩
    | omitted hstore _ hstate =>
      exact ⟨hstage, by rw [hstate]; rfl, hstore, homitted, hedge, hdestination⟩

end Writer

namespace Session

open Executor Writer

variable [Measured α] {s s' : Session σ α} {name : String} {calls : List (Call σ α)}

/-- A writer has just been opened under a name that nobody had. -/
theorem opening_unclosed {p : Program σ α} (hnew : s.writer? name = none) :
    ∀ w, (perform (p.opening name) s).2.writer? name = some w → Unclosed p.edge p.destination w := by
  intro w hw
  have hmade := make_unclosed (e := s.executor) p.task p.edge p.destination p.partitioner _ rfl
  have hperforms := performs (p.opening name) s
  generalize (perform (p.opening name) s).2 = s' at hperforms hw
  generalize hopening : p.opening name = call at hperforms
  cases hperforms with
  | opened hmake =>
    cases hopening
    rw [hmake] at hmade
    cases (writer_putWriter _ _ _).symm.trans hw
    exact hmade
  | unopened =>
    cases hopening
    cases hnew.symm.trans hw
  | called c | absent c => cases c <;> cases hopening
  | dropped | removed | disturbed => cases hopening

/-- A writer that is committed in the end was closed, and its edge had all that was needed. -/
theorem run_closes {edge : Edge} {destination : Destination}
    (hs : ∀ w, s.writer? name = some w → Unclosed edge destination w)
    (hcalls : ∀ call ∈ calls, call.writer? = some name → ∃ c, call = WriterCall.under name c)
    {w : Writer σ α} (hw : (s.run calls).writer? name = some w) (hdone : w.state.isCommitted = true) :
    .close name ∈ calls ∧ ∃ store pattern persistence,
      edge.Complete destination store pattern persistence := by
  induction calls generalizing s with
  | nil =>
    have hopen := (hs w hw).uncommitted
    rw [hdone] at hopen
    cases hopen
  | cons call calls ih =>
    have hlater : ∀ call ∈ calls, call.writer? = some name → ∃ c, call = WriterCall.under name c :=
      fun later hlater => hcalls later (.tail _ hlater)
    have hnext : (∀ w, (perform call s).2.writer? name = some w → Unclosed edge destination w) →
        .close name ∈ call :: calls ∧ ∃ store pattern persistence,
          edge.Complete destination store pattern persistence := fun h =>
      (ih h hlater hw).imp_left (.tail _)
    by_cases hname : call.writer? = some name
    · obtain ⟨c, rfl⟩ := hcalls call List.mem_cons_self hname
      cases hv : s.writer? name with
      | none =>
        rw [perform_under_none hv] at hnext
        exact hnext hs
      | some v =>
        rw [perform_under hv] at hnext
        obtain ⟨rfl, hclosable⟩ | hopen := (hs v hv).step (e := s.executor) c
        · exact ⟨List.mem_cons_self, (hs v hv).complete hclosable⟩
        · refine hnext fun v' hv' => ?_
          cases (writer_putWriter _ _ _).symm.trans hv'
          exact hopen
    · refine hnext fun v hv => hs v ?_
      rwa [writer_perform hname] at hv

/-! ## After the close -/

/-- The writer of this name is committed, and its entries are registered. -/
structure Finished (name : String) (id : BlockId) (codec : Codec α) (es : List (Entry α))
    (s : Session σ α) : Prop where
  registered : ∃ info bytes, Registered name id codec es info bytes s
  writer : ∃ w, s.writer? name = some w ∧ w.state.isCommitted = true

variable {id : BlockId} {codec : Codec α} {es : List (Entry α)}

omit [Measured α] in
theorem Finished.aside (h : Finished name id codec es s) (haside : Aside name id s s') :
    Finished name id codec es s' := by
  obtain ⟨info, bytes, hregistered⟩ := h.registered
  obtain ⟨w, hw, hcommitted⟩ := h.writer
  exact ⟨⟨info, bytes, hregistered.aside haside⟩, w, haside.writer.trans hw, hcommitted⟩

/-- A late call is refused. -/
theorem Finished.late (h : Finished name id codec es s) (c : WriterCall α) :
    Finished name id codec es (perform (c.under name) s).2 := by
  obtain ⟨info, bytes, hregistered⟩ := h.registered
  obtain ⟨w, hw, hcommitted⟩ := h.writer
  rw [perform_under hw, step_committed (s := (w, s.executor)) hcommitted]
  refine h.aside ⟨(watched id ⊤ ⊤).refl _, (writer_putWriter _ _ _).trans hw.symm, ?_⟩
  refine ⟨hregistered.strangers.formed, hregistered.strangers.keyed, fun hne hv => ?_⟩
  exact hregistered.strangers.writers hne ((writer_putWriter_ne _ _ hne).symm.trans hv)

theorem Finished.run (h : Finished name id codec es s)
    (hcalls : ∀ call ∈ calls, call.Foreign name id ∨ ∃ c, call = WriterCall.under name c) :
    Finished name id codec es (s.run calls) := by
  induction calls generalizing s with
  | nil => exact h
  | cons call calls ih =>
    have hlater := fun later hlater => hcalls later (List.mem_cons_of_mem _ hlater)
    obtain hforeign | ⟨c, rfl⟩ := hcalls call List.mem_cons_self
    · obtain ⟨info, bytes, hregistered⟩ := h.registered
      have haside : Aside name id s (s.run [call]) := run_foreign hregistered.strangers
        fun other hother => List.mem_singleton.mp hother ▸ hforeign
      exact ih (h.aside haside) hlater
    · exact ih (h.late c) hlater

/-- A writer runs its program, and others are about other blocks. If it is committed in the end, what
it was given before its first close is registered. -/
theorem run_finishes {p : Program σ α} {e : Executor α} (hready : e.Ready)
    (hfiles : Spacious p.id e) {encoding : α → Bytes}
    (hcodec : e.registry.medium.codec.Faithful encoding (WriterCall.written p.calls))
    (hmine : Call.about name calls = p.under name)
    (hothers : ∀ call ∈ calls, call.writer? ≠ some name → call.Foreign name p.id)
    {w : Writer σ α} (hw : (Session.run { executor := e } calls).writer? name = some w)
    (hdone : w.state.isCommitted = true) :
    ∃ es, Makes p.partitioner (WriterCall.written p.calls) e.registry.medium.codec es ∧
      Finished name p.id e.registry.medium.codec es (Session.run { executor := e } calls) := by
  have hencodes : ∀ x ∈ WriterCall.written p.calls, e.registry.medium.codec.Encodes x :=
    fun x hx earlier => ⟨encoding x, (hcodec x hx).1 earlier, (hcodec x hx).2.1⟩
  -- until the writer is opened, the calls are about others
  obtain ⟨before, rest, rfl, hbefore, -, hrest⟩ := List.filter_eq_cons_iff.mp hmine
  have hstart : Strangers (σ := σ) name p.id { executor := e } :=
    ⟨hfiles.formed, hready.keyed, nofun⟩
  have hbegun := run_foreign hstart fun call hcall => hothers call
    (List.mem_append_left _ hcall) fun hname => hbefore call hcall (decide_eq_true hname)
  rw [run_append, run_cons] at hw ⊢
  generalize Session.run { executor := e } before = s at hbegun hw ⊢
  obtain ⟨⟨hsame, hdir⟩, -, -, hable⟩ := hbegun.executor
  have hrest' : ∀ call ∈ rest, call.Foreign name p.id ∨ ∃ c, call = WriterCall.under name c :=
    foreign_or_asked hrest fun call hcall => hothers call (by simp [hcall])
  -- it is closed, and then its edge is complete
  obtain ⟨hclose, store, pattern, persistence, hedge⟩ :=
    run_closes (opening_unclosed hbegun.writer) (asked_of_about hrest) hw hdone
  obtain ⟨during, later, rfl, hunclosed⟩ := List.eq_append_cons_of_mem hclose
  have hgiven : Call.given name during = WriterCall.written p.calls :=
    given_of_about hrest hunclosed
  have hopen := open_carrying (p := p.partitioner) hbegun.strangers hbegun.writer hedge
    ⟨hdir.refusals.trans hfiles.free, hdir.formed hfiles.formed, hfiles.named⟩
    (by rw [hable.tracker]; exact hready.tracker) (hable.usable hready.estimator)
  rw [hsame] at hopen
  have hencodable : ∀ x ∈ Call.given name during, e.registry.medium.codec.Encodes x :=
    hgiven ▸ hencodes
  have hcarrying := run_carrying hopen ?_ hencodable
  · rw [List.nil_append, hgiven] at hcarrying
    obtain ⟨-, es, info, hmakes, hregistered⟩ := close_registered hcarrying hedge hencodes
    obtain ⟨-, -, v, _, _, hv, -, hcloses, -⟩ := close_bears hcarrying.bears hedge hencodes
    rw [run_append, run_cons]
    refine ⟨es, hmakes, Finished.run ⟨⟨info, _, hregistered⟩, v, hv, ?_⟩ fun call hcall =>
      hrest' call (by simp [hcall])⟩
    rw [hcloses.state]
    exact WriterState.isCommitted_committed _
  · intro call hcall
    obtain hforeign | ⟨c, rfl⟩ := hrest' call (by simp [hcall])
    · exact .inl hforeign
    · cases c with
      | write x => exact .inr ⟨x, rfl⟩
      | close => exact absurd hcall hunclosed

/-! ## What is registered -/

/-- No name is registered twice, and only names that were allotted are. -/
structure Enrolled (a : Allotment) (s : Session σ α) : Prop where
  once : (s.executor.registry.blocks.map Prod.fst).Nodup
  known : ∀ id ∈ s.executor.registry.blocks.map Prod.fst, ∃ name, a.block name = some id

variable {a : Allotment}

omit [Measured α] in
theorem Enrolled.enter (h : Enrolled a s) (hname : a.block name = some id)
    {entry : RegisteredBlock α}
    (hblocks : s'.executor.registry.blocks =
      (id, entry) :: s.executor.registry.blocks.filter (·.1 ≠ id)) : Enrolled a s' := by
  refine ⟨hblocks ▸ names_replace h.once id entry, fun other hother => ?_⟩
  rw [hblocks] at hother
  obtain rfl | hold := List.mem_cons.mp hother
  · exact ⟨name, hname⟩
  · exact h.known other ((List.filter_sublist.map _).subset hold)

theorem Enrolled.perform (h : Enrolled a s) (hs : s.Allotted a) (hstages : s.Each Stage)
    {call : Call σ α} (hcall : call.Under name id) :
    Enrolled a (perform call s).2 := by
  have hkept : ∀ {s' : Session σ α}, s'.executor.registry.blocks = s.executor.registry.blocks →
      Enrolled a s' := fun hsame => ⟨hsame ▸ h.once, hsame ▸ h.known⟩
  have hperforms := performs call s
  generalize (Session.perform call s).2 = s' at hperforms
  cases hperforms with
  | @opened other task edge destination p w e _ hopens =>
    have hsame : e.account.blocks = s.executor.account.blocks := by
      generalize e.account = a at hopens
      cases hopens <;> rfl
    obtain ⟨medium, hdropped⟩ := executor_dropWriter { s with executor := e } other
    refine hkept ?_
    show (Session.dropWriter other _).executor.registry.blocks = _
    rw [hdropped]
    exact hsame
  | unopened _ hsame => exact hkept (congrArg Account.blocks hsame)
  | @called other w c hw =>
    cases c with
    | write x =>
      obtain ⟨-, m, ha, -⟩ := write_stands (w := w) (e := s.executor) x
      exact hkept (congrArg Account.blocks ha)
    | close =>
      have hends := close_ends (hstages other w hw) s.executor
      have hmine := (hs.writers hw).1
      simp only [WriterCall.step]
      generalize close (w, s.executor) = closed at hends
      cases hends with
      | idle => exact hkept rfl
      | @committed w' e' _ hcommitted =>
        generalize haccount : e'.account = account at hcommitted
        generalize w.refused s.executor.pool = refused at hcommitted
        cases hcommitted with
        | kept => exact h.enter hmine (congrArg Account.blocks haccount)
        | spilled => exact h.enter hmine (congrArg Account.blocks haccount)
      | failed _ ha => exact hkept (congrArg Account.blocks ha)
  | absent => exact h
  | dropped | removed | disturbed => exact hcall.elim

theorem Enrolled.run (h : Enrolled a s) (hs : s.Allotted a) (hstages : s.Each Stage)
    (hcalls : ∀ call ∈ calls, ∃ name id, a.block name = some id ∧ call.Under name id) :
    Enrolled a (s.run calls) ∧ (s.run calls).Allotted a := by
  induction calls generalizing s with
  | nil => exact ⟨h, hs⟩
  | cons call calls ih =>
    obtain ⟨name, id, hname, hcall⟩ := hcalls call List.mem_cons_self
    exact ih (h.perform hs hstages hcall) (hs.perform hname hcall) (perform_stages hstages call)
      fun later hlater => hcalls later (List.mem_cons_of_mem _ hlater)

/-! ## Side by side -/

omit [Measured α] in
theorem Programs.block_pair {other : String} {p q : Program σ α} {hid : q.id ≠ p.id} {n : String}
    (h : (Programs.pair name p other q hid).allotment.block n = some id) :
    id = p.id ∨ id = q.id := by
  obtain ⟨found, hfound, rfl⟩ := Option.map_eq_some_iff.mp h
  simp only [Programs.pair] at hfound
  split_ifs at hfound
  · cases hfound
    exact .inl rfl
  · cases hfound
    exact .inr rfl

/-- In an interleaving, a writer that is committed in the end has registered what it was given. -/
theorem interleaved_finishes {ps : Programs σ α} {e : Executor α} {encoding : α → Bytes}
    (hready : e.Ready) (hcalls : ps.Interleaved calls) {p : Program σ α}
    (hp : ps.program name = some p) (hfiles : Spacious p.id e)
    (hcodec : e.registry.medium.codec.Faithful encoding (WriterCall.written p.calls))
    {w : Writer σ α} (hw : (Session.run { executor := e } calls).writer? name = some w)
    (hdone : w.state.isCommitted = true) :
    let r := (Session.run { executor := e } calls).executor.registry
    p.id ∈ r.blocks.map Prod.fst ∧
      ∀ key, r.readPartition p.id key = .ok (p.partitioner.part key (WriterCall.written p.calls)) := by
  intro r
  have hothers : ∀ call ∈ calls, call.writer? ≠ some name → call.Foreign name p.id := by
    intro call hcall hne
    obtain ⟨other, q, hq, hmem⟩ := hcalls.mem hcall
    have hother : other ≠ name := fun hsame => hne (hsame ▸ (Program.under_of_mem hmem).writer)
    have hid : q.id ≠ p.id := fun hsame => hother (ps.distinct hp hq hsame)
    obtain rfl | hasked := List.mem_cons.mp hmem
    · exact ⟨hother, hid⟩
    · obtain ⟨c, -, rfl⟩ := List.mem_map.mp hasked
      cases c <;> exact hother
  obtain ⟨es, hmakes, hfinished⟩ :=
    run_finishes hready hfiles hcodec (hcalls.about_some hp) hothers hw hdone
  obtain ⟨info, bytes, hregistered⟩ := hfinished.registered
  obtain ⟨block, -, hentry, -⟩ := hregistered.block
  refine ⟨List.mem_map_of_mem (mem_of_lookup hentry), fun key => ?_⟩
  rw [hregistered.readPartition (hmakes.restores hcodec) key, hmakes.part key]

/-- Two writers share an executor that has nothing registered yet, and their calls follow one another
in any order. The names of their edges and tasks differ, and no hyphen in them makes one text of two
pairs. Once both are committed, two blocks are registered, and under the name of each writer's block
every key gives back the elements for which its own partitioner answered it, of those that it was
given before its first close, in the order of their writes. -/
theorem run_side_by_side {e : Executor α} (hready : e.Ready) (hempty : e.registry.blocks = [])
    {name other : String} (hne : other ≠ name) {p q : Program σ α}
    (hpair : (q.edge.id, q.task) ≠ (p.edge.id, p.task))
    (hclash : ¬ BlockId.Clash p.edge.id p.task q.edge.id q.task)
    (hclash' : ¬ BlockId.Clash q.edge.id q.task p.edge.id p.task)
    (hfiles : Spacious p.id e) (hfiles' : Spacious q.id e) {encoding : α → Bytes}
    (hcodec : e.registry.medium.codec.Faithful encoding (WriterCall.written p.calls))
    (hcodec' : e.registry.medium.codec.Faithful encoding (WriterCall.written q.calls))
    (hwriters : ∀ call ∈ calls, call.writer? = some name ∨ call.writer? = some other)
    (hp : Call.about name calls = p.under name) (hq : Call.about other calls = q.under other) :
    let s := Session.run { executor := e } calls
    let r := s.executor.registry
    ∀ w v, s.writer? name = some w → s.writer? other = some v → w.state.isCommitted = true →
      v.state.isCommitted = true →
      r.blocks.length = 2 ∧
      (∀ key, r.readPartition w.id key =
        .ok (p.partitioner.part key (WriterCall.written p.calls))) ∧
      ∀ key, r.readPartition v.id key =
        .ok (q.partitioner.part key (WriterCall.written q.calls)) := by
  intro s r w v hw hv hdone hdone'
  have hid : q.id ≠ p.id := BlockId.of_ne hpair hclash hclash'
  have hcalls : (Programs.pair name p other q hid).Interleaved calls :=
    Programs.interleaved_pair hne hwriters hp hq
  generalize hps : Programs.pair name p other q hid = ps at hcalls
  have hfirst : ps.program name = some p := by
    rw [← hps]
    exact if_pos rfl
  have hsecond : ps.program other = some q := by
    rw [← hps]
    simp [Programs.pair, hne]
  obtain ⟨hmine, hreads⟩ := interleaved_finishes hready hcalls hfirst hfiles hcodec hw hdone
  obtain ⟨hmine', hreads'⟩ := interleaved_finishes hready hcalls hsecond hfiles' hcodec' hv hdone'
  have hstart : Enrolled ps.allotment ({ executor := e } : Session σ α) := by
    refine ⟨?_, ?_⟩ <;> simp [hempty]
  have hstages : ({ executor := e } : Session σ α).Each Stage := by
    intro name w hw
    cases hw
  have hopened : ({ executor := e } : Session σ α).Allotted ps.allotment :=
    ⟨hfiles.formed, hready.keyed, fun hw => by cases hw⟩
  obtain ⟨⟨honce, hknown⟩, hallotted⟩ := hstart.run hopened hstages (hcalls.pending e).known
  have hnames : ∀ n id, ps.allotment.block n = some id → id = p.id ∨ id = q.id := by
    rw [← hps]
    exact fun _ _ => Programs.block_pair
  have hnamed : w.id = p.id := Option.some.inj
    ((hallotted.writers hw).1.symm.trans (congrArg (Option.map Program.id) hfirst))
  have hnamed' : v.id = q.id := Option.some.inj
    ((hallotted.writers hv).1.symm.trans (congrArg (Option.map Program.id) hsecond))
  rw [hnamed, hnamed']
  refine ⟨?_, hreads, hreads'⟩
  have hkeys : (r.blocks.map Prod.fst).Perm [p.id, q.id] := by
    refine (List.perm_ext_iff_of_nodup honce (by simp [Ne.symm hid])).mpr fun id => ⟨?_, ?_⟩
    · intro hmem
      obtain ⟨n, hn⟩ := hknown id hmem
      simpa using hnames n id hn
    · intro hmem
      obtain rfl | hmem := List.mem_cons.mp hmem
      · exact hmine
      · exact List.mem_singleton.mp hmem ▸ hmine'
  rw [← List.length_map (f := Prod.fst), hkeys.length_eq]
  rfl

/-- Names with hyphens in them. -/
theorem run_side_by_side_hyphens :
    let edge (name : String) (store : StoreKind) : Edge := {
      id := ⟨name⟩
      store := some store
      pattern := some .oneToOne
      persistence := some .keep }
    let p : Program UInt32 UInt64 :=
      ⟨⟨"c"⟩, edge "a-b" .localFile, ⟨⟨"v"⟩, none⟩, .intact, [.write 7, .close]⟩
    let q : Program UInt32 UInt64 :=
      ⟨⟨"c"⟩, edge "a" .memoryFile, ⟨⟨"v"⟩, none⟩, .intact, [.write 8, .write 9, .close]⟩
    let e : Executor UInt64 := {
      registry := { medium := { codec := .json } }
      pool := .ofCapacity 100
      estimator := .ofOptions {} }
    let r := (Session.run { executor := e } [p.opening "x", q.opening "y", .write "y" 8,
      .write "x" 7, .write "y" 9, .close "y", .close "x"]).executor.registry
    r.blocks.length = 2 ∧ r.readPartition ⟨"a-b-c"⟩ 0 = .ok [7] ∧
      r.readPartition ⟨"a-c"⟩ 0 = .ok [8, 9] := by
  intro edge p q e r
  have hx : ((Session.run { executor := e } [p.opening "x", q.opening "y", .write "y" 8,
      .write "x" 7, .write "y" 9, .close "y", .close "x"]).writer? "x").map (fun w =>
        (w.id, w.state)) = some (⟨"a-b-c"⟩, .committedDisk) := by
    decide +kernel
  have hy : ((Session.run { executor := e } [p.opening "x", q.opening "y", .write "y" 8,
      .write "x" 7, .write "y" 9, .close "y", .close "x"]).writer? "y").map (fun w =>
        (w.id, w.state)) = some (⟨"a-c"⟩, .committedDisk) := by
    decide +kernel
  obtain ⟨w, hw, hfound⟩ := Option.map_eq_some_iff.mp hx
  obtain ⟨hid, hstate⟩ := Prod.mk.inj hfound
  obtain ⟨v, hv, hfound'⟩ := Option.map_eq_some_iff.mp hy
  obtain ⟨hid', hstate'⟩ := Prod.mk.inj hfound'
  have hclash : p.id ≠ q.id := by decide
  have hready : e.Ready := ⟨fun _ h => absurd h List.not_mem_nil, by decide,
    SizeEstimator.usable_ofOptions (by decide)⟩
  have hcodec : ∀ xs ⊆ [7, 8, 9], e.registry.medium.codec.Faithful JsonElement.write xs := by
    intro xs hxs x hx
    have hmem := hxs hx
    simp only [List.mem_cons, List.not_mem_nil, or_false] at hmem
    rcases hmem with rfl | rfl | rfl
    · exact ⟨fun _ => rfl, by decide, by decide⟩
    · exact ⟨fun _ => rfl, by decide, by decide⟩
    · exact ⟨fun _ => rfl, by decide, by decide⟩
  obtain ⟨hcount, hreads, hreads'⟩ := run_side_by_side hready rfl (by decide) (by decide)
    (fun h => hclash (BlockId.of_eq_iff.mpr (.inr (.inl h))))
    (fun h => hclash (BlockId.of_eq_iff.mpr (.inr (.inr h)))) ⟨rfl, .of_unnamed rfl, by decide⟩
    ⟨rfl, .of_unnamed rfl, by decide⟩ (hcodec _ (by simp [p, WriterCall.written]))
    (hcodec _ (by simp [q, WriterCall.written])) (by simp [Program.opening, Call.writer?]) rfl rfl
    w v hw hv (by rw [hstate]; rfl) (by rw [hstate']; rfl)
  refine ⟨hcount, ?_, ?_⟩
  · have hread := hreads 0
    rw [hid] at hread
    exact hread
  · have hread := hreads' 0
    rw [hid'] at hread
    exact hread

/-- Names that clash: both writers are closed, but one block is registered for both of them, and the
elements of the first one are lost. -/
theorem clashing_names_share_block :
    let edge (name : String) : Edge := {
      id := ⟨name⟩
      store := some .memory
      pattern := some .oneToOne
      persistence := some .keep }
    let p : Program UInt32 UInt64 :=
      ⟨⟨"c"⟩, edge "a-b", ⟨⟨"v"⟩, none⟩, .intact, [.write 7, .close]⟩
    let q : Program UInt32 UInt64 :=
      ⟨⟨"b-c"⟩, edge "a", ⟨⟨"v"⟩, none⟩, .intact, [.write 8, .close]⟩
    let e : Executor UInt64 := {
      registry := { medium := { codec := .json } }
      pool := .ofCapacity 100
      estimator := .ofOptions {} }
    let s := Session.run { executor := e } (p.under "x" ++ q.under "y")
    (q.edge.id, q.task) ≠ (p.edge.id, p.task) ∧
      BlockId.Clash q.edge.id q.task p.edge.id p.task ∧
      s.writers.map (fun entry => (entry.1, entry.2.id, entry.2.state)) =
        [("y", ⟨"a-b-c"⟩, .committedMemory), ("x", ⟨"a-b-c"⟩, .committedMemory)] ∧
      s.executor.registry.blocks.length = 1 ∧
      s.executor.registry.readPartition ⟨"a-b-c"⟩ 0 = .ok [8] := by
  intro edge p q e s
  exact ⟨by decide, ⟨"b", rfl, rfl⟩, by decide +kernel, by decide +kernel, by decide +kernel⟩

end Session

end ShuffleBuffer
