import ShuffleBuffer.Proofs.Counters
import ShuffleBuffer.Proofs.Lanes

/-! # Writers that do nothing

A writer on an edge whose output another one carries is counted when it is opened, and there is
nothing else that it does. So if all writers but one are of this kind, the one is as if it were
alone: it carries what it is given, and its close, and nothing before or after, enters a block. -/

namespace ShuffleBuffer

open Estimate Step

variable {σ α : Type}

namespace Call

/-- The call opens a writer on an edge whose output another one carries. -/
def omits : Call σ α → Bool
  | .openWriter _ _ edge _ _ => edge.isDuplicateOmitted
  | _ => false

/-- A call on a writer on such an edge. -/
def Idle : Call σ α → Prop
  | .openWriter _ _ edge _ _ => edge.isDuplicateOmitted = true ∧ edge.store ≠ none
  | .write .. | .close .. => True
  | .drop .. | .removeBlock .. | .disturb .. => False

end Call

namespace Writer

open Executor

variable [Measured α] {task : TaskId} {edge : Edge} {destination : Destination}
  {p : Partitioner σ α} {store : StoreKind}

/-- A writer that does nothing is made of nothing, and counted. -/
theorem make_omitted (homitted : edge.isDuplicateOmitted = true) (hstore : edge.store = some store)
    (e : Executor α) :
    make task edge destination p e =
      (.ok { idle task edge destination p store with state := .noOp },
        { e with metrics := e.metrics.duplicateOmitted }) := by
  have hrequired : edge.requiredStore = .ok store := by
    rw [Edge.requiredStore, hstore, Edge.require]
  simp only [make, hrequired, bind_apply, Step.ofExcept, homitted]
  rfl

/-- Only on an omitted edge does a new writer do nothing. -/
theorem make_noOp_iff (task : TaskId) (edge : Edge) (destination : Destination)
    (p : Partitioner σ α) :
    Leads (fun _ => True) (make task edge destination p)
      (fun w _ => w.state = .noOp ↔ edge.isDuplicateOmitted = true) fun _ => True := by
  have htrivial : ∀ {β : Type} (x : Step (Executor α) β),
      Leads (fun _ => True) x (fun _ _ => True) fun _ => True :=
    fun x => Leads.of_apply fun _ _ => trivial
  refine Leads.bind (htrivial _) fun store => ?_
  split
  · next homitted =>
    exact Leads.bind (htrivial _) fun _ => Leads.pure fun _ _ => iff_of_true rfl homitted
  · next hown =>
    refine Leads.bind (htrivial _) fun b => ?_
    by_cases hspills : store.spillsToDisk = true
    · simp only [if_pos hspills]
      exact Leads.bind (htrivial _) fun t => Leads.pure fun _ _ => iff_of_false nofun hown
    · simp only [if_neg hspills]
      exact Leads.bind (htrivial _) fun t => Leads.pure fun _ _ => iff_of_false nofun hown

end Writer

namespace Executor

/-- Nothing is registered and no replacement told, whatever is counted. -/
def unentered : Change (Executor α) where
  rel e e' := ∃ metrics, e'.account = { e.account with metrics }
  refl e := ⟨e.metrics, rfl⟩
  trans h h' := by
    obtain ⟨_, hfirst⟩ := h
    obtain ⟨metrics, hsecond⟩ := h'
    exact ⟨metrics, hsecond.trans (by rw [hfirst])⟩

variable {e e' : Executor α}

theorem unentered_blocks (h : unentered.rel e e') : e'.registry.blocks = e.registry.blocks := by
  obtain ⟨_, h⟩ := h
  exact congrArg Account.blocks h

theorem unentered_registrations (h : unentered.rel e e') (id : BlockId) :
    e'.registrations id = e.registrations id := by
  obtain ⟨_, h⟩ := h
  exact congrFun (congrArg Account.registrations h) id

end Executor

namespace Session

open Writer Executor

variable [Measured α] {s : Session σ α} {name other : String} {call : Call σ α}
  {calls : List (Call σ α)}

/-! ## One writer among writers that do nothing -/

/-- Whoever has another name does nothing. -/
def Lone (name : String) (s : Session σ α) : Prop :=
  ∀ other w, other ≠ name → s.writer? other = some w → w.state = .noOp ∧ w.block = none

omit [Measured α] in
theorem Lone.start (e : Executor α) : Lone name ({ executor := e } : Session σ α) := by
  intro _ _ _ hw
  cases hw

omit [Measured α] in
/-- There is nothing to let go with a writer that does nothing. -/
theorem Lone.dropWriter (h : s.Lone name) (hne : other ≠ name) :
    (s.dropWriter other).executor = s.executor := by
  unfold Session.dropWriter
  cases hw : s.writer? other with
  | none => rfl
  | some w => simp only [(h other w hne hw).2]

omit [Measured α] in
theorem Lone.putWriter (h : s.Lone name) {w : Writer σ α}
    (hw : w.state = .noOp ∧ w.block = none) : (s.putWriter other w).Lone name := by
  intro n v hn hv
  by_cases hsame : n = other
  · subst hsame
    cases (writer_putWriter _ _ _).symm.trans hv
    exact hw
  · exact h n v hn ((writer_putWriter_ne _ _ hsame).symm.trans hv)

/-- The calls of the others succeed, and nothing comes of them but that a new one is counted. -/
theorem perform_idle (h : s.Lone name) (hidle : call.Idle) (hother : call.writer? ≠ some name) :
    (perform call s).1 = .ok () ∧ (perform call s).2.Lone name ∧
      (perform call s).2.executor = { s.executor with metrics :=
        if call.omits then s.executor.metrics.duplicateOmitted else s.executor.metrics } := by
  have hasked : ∀ (other : String) (c : WriterCall α), other ≠ name →
      (perform (c.under other) s).1 = .ok () ∧ (perform (c.under other) s).2.Lone name ∧
        (perform (c.under other) s).2.executor = s.executor := by
    intro other c hne
    cases hw : s.writer? other with
    | none =>
      rw [perform_under_none hw]
      exact ⟨rfl, h, rfl⟩
    | some w =>
      rw [perform_under hw, step_noOp (s := (w, s.executor)) (h other w hne hw).1]
      exact ⟨rfl, Lone.putWriter (s := s) h (h other w hne hw), rfl⟩
  cases call with
  | openWriter other task edge destination p =>
    obtain ⟨homitted, hstored⟩ := hidle
    obtain ⟨store, hstore⟩ := Option.ne_none_iff_exists'.mp hstored
    have hne : other ≠ name := fun hsame => hother (congrArg some hsame)
    rw [perform_openWriter (make_omitted homitted hstore s.executor)]
    refine ⟨rfl, Lone.putWriter (fun n v hn hv => ?_) ⟨rfl, rfl⟩, ?_⟩
    · by_cases hsame : n = other
      · rw [hsame, writer_dropWriter] at hv
        cases hv
      · rw [writer_dropWriter_ne _ hsame] at hv
        exact h n v hn hv
    · have hkept := Lone.dropWriter (s := { s with executor := { s.executor with
        metrics := s.executor.metrics.duplicateOmitted } }) h hne
      rw [Call.omits, if_pos homitted]
      exact hkept
  | write other x => exact hasked other (.write x) fun hsame => hother (congrArg some hsame)
  | close other => exact hasked other .close fun hsame => hother (congrArg some hsame)
  | drop | removeBlock | disturb => exact hidle.elim

theorem Lone.perform (h : s.Lone name) (hcall : call.writer? = some name ∨ call.Idle) :
    (perform call s).2.Lone name := by
  by_cases hmine : call.writer? = some name
  · intro n w hn hw
    refine h n w hn ((writer_perform (fun hsame => hn ?_) s).symm.trans hw)
    exact Option.some.inj (hsame.symm.trans hmine)
  · exact (perform_idle h (hcall.resolve_left hmine) hmine).2.1

theorem Lone.run (h : s.Lone name)
    (hcalls : ∀ call ∈ calls, call.writer? = some name ∨ call.Idle) : (s.run calls).Lone name := by
  induction calls generalizing s with
  | nil => exact h
  | cons call calls ih =>
    exact ih (h.perform (hcalls call List.mem_cons_self)) fun call hcall =>
      hcalls call (.tail _ hcall)

/-! ## What is counted and entered -/

/-- The openings of writers on omitted edges are counted, and nothing else along with them. -/
theorem perform_omits (h : s.Regular) (hidle : call.omits = true → call.Idle) :
    (perform call s).2.executor.metrics.duplicatesOmitted =
      s.executor.metrics.duplicatesOmitted + if call.omits then 1 else 0 := by
  have hperforms := performs call s
  generalize (Session.perform call s).2 = s' at hperforms
  cases hperforms with
  | @opened name task edge destination p w e hmake hopens =>
    have hstate : w.state = .noOp ↔ edge.isDuplicateOmitted = true :=
      (make_noOp_iff task edge destination p).succeeds trivial (congrArg Prod.fst hmake)
    have hcount : e.metrics.duplicatesOmitted = s.executor.metrics.duplicatesOmitted +
        if w.state = .noOp then 1 else 0 := Law.duplicatesOmitted.weigh_opened hopens
    obtain ⟨medium, hdropped⟩ := executor_dropWriter { s with executor := e } name
    show (Session.dropWriter name _).executor.metrics.duplicatesOmitted = _
    rw [hdropped]
    exact hcount.trans (congrArg _ (if_congr hstate rfl rfl))
  | @unopened name task edge destination p fault e hmake hsame =>
    have hown : ¬ edge.isDuplicateOmitted = true := by
      intro homitted
      obtain ⟨store, hstore⟩ := Option.ne_none_iff_exists'.mp (hidle homitted).2
      cases (make_omitted homitted hstore s.executor).symm.trans hmake
    rw [Call.omits, if_neg hown, UInt64.add_zero]
    exact congrArg (fun a : Account α => a.metrics.duplicatesOmitted) hsame
  | @called name w c hw =>
    -- no call makes a writer do nothing, or something
    have hweight : Law.duplicatesOmitted.weigh (c.step (w, s.executor)).2.1 =
        Law.duplicatesOmitted.weigh w := by
      obtain hsame | ⟨hopen, hdone⟩ := (h.stages name w hw).step_state (s := (w, s.executor)) c
      · simp only [Law.weigh, Law.duplicatesOmitted, hsame]
      · have hopen : w.state = .writing := hopen
        have hbusy : (c.step (w, s.executor)).2.1.state ≠ .noOp := fun hsame => by
          rw [hsame] at hdone
          cases hdone
        simp [Law.weigh, Law.duplicatesOmitted, hopen, hbusy]
    have hcount := step_counts Law.duplicatesOmitted (h.stages name w hw) h.usable (.inl rfl) hw c
    rw [offered_nothing (fun _ _ => rfl), hweight, add_zero,
      show Law.duplicatesOmitted.sample = 0 from rfl, nsmul_zero, add_zero] at hcount
    rw [show (c.under name : Call σ α).omits = false by cases c <;> rfl]
    exact (add_right_cancel hcount).trans (UInt64.add_zero _).symm
  | absent c => cases c <;> exact (UInt64.add_zero _).symm
  | dropped name =>
    obtain ⟨medium, hdropped⟩ := executor_dropWriter s name
    rw [hdropped]
    exact (UInt64.add_zero _).symm
  | removed id =>
    obtain ⟨-, hsame⟩ | ⟨removed, -, hremoved⟩ := removeBlock_cases id s.executor
    · rw [hsame]
      exact (UInt64.add_zero _).symm
    · rw [hremoved]
      exact (UInt64.add_zero _).symm
  | disturbed dir => exact (UInt64.add_zero _).symm

theorem run_omits (h : s.Regular) (hidle : ∀ call ∈ calls, call.omits = true → call.Idle) :
    (s.run calls).executor.metrics.duplicatesOmitted =
      s.executor.metrics.duplicatesOmitted + .ofNat (calls.countP Call.omits) := by
  induction calls generalizing s with
  | nil => exact (UInt64.add_zero _).symm
  | cons call calls ih =>
    rw [run_cons, ih (h.perform call) fun call hcall => hidle call (.tail _ hcall),
      perform_omits h (hidle call List.mem_cons_self), List.countP_cons, UInt64.add_assoc,
      Nat.add_comm, UInt64.ofNat_add]
    split <;> rfl

/-- Only a close enters a block. -/
theorem perform_unentered (hclose : call.isClose = false) (hwriter : call.writer? ≠ none) :
    unentered.rel s.executor (perform call s).2.executor := by
  have hdropped : ∀ (s : Session σ α) (name : String),
      (s.dropWriter name).executor.account = s.executor.account := by
    intro s name
    obtain ⟨medium, hdropped⟩ := executor_dropWriter s name
    rw [hdropped]
    rfl
  have hperforms := performs call s
  generalize (Session.perform call s).2 = s' at hperforms
  cases hperforms with
  | @opened name _ _ _ _ w e _ hopens =>
    have haccount : (({ s with executor := e }.dropWriter name).putWriter name w).executor.account =
        e.account := hdropped _ _
    generalize e.account = a at hopens haccount
    cases hopens with
    | writing => exact ⟨_, haccount⟩
    | omitted => exact ⟨_, haccount⟩
  | unopened _ hsame => exact ⟨_, hsame⟩
  | @called name w c hw =>
    cases c with
    | write x =>
      obtain ⟨-, m, haccount, -⟩ := write_stands (w := w) (e := s.executor) x
      exact ⟨m, haccount⟩
    | close => cases hclose
  | absent => exact unentered.refl _
  | dropped name => exact ⟨_, hdropped s name⟩
  | removed | disturbed => exact absurd rfl hwriter

theorem run_unentered (h : s.Lone name)
    (hcalls : ∀ call ∈ calls, call.writer? = some name ∧ call.isClose = false ∨
      call.writer? ≠ some name ∧ call.Idle) :
    unentered.rel s.executor (s.run calls).executor := by
  induction calls generalizing s with
  | nil => exact unentered.refl _
  | cons call calls ih =>
    have hcall := hcalls call List.mem_cons_self
    have hnext := h.perform (hcall.imp And.left And.right)
    refine unentered.trans ?_ (ih hnext fun call hcall => hcalls call (.tail _ hcall))
    obtain ⟨hmine, hclose⟩ | ⟨hother, hidle⟩ := hcall
    · exact perform_unentered hclose (by rw [hmine]; nofun)
    · rw [(perform_idle h hidle hother).2.2]
      exact ⟨_, rfl⟩

variable {task : TaskId} {edge : Edge} {destination : Destination} {p : Partitioner σ α}
  {store : StoreKind} {pattern : CommunicationPattern} {persistence : Persistence}
  {codec : Codec α} {xs : List α}

/-- A close that succeeds enters one block, with the reads that the edge lets expect. -/
theorem close_enters (h : Bears name (idle task edge destination p store) codec xs s)
    (hregular : s.Regular) (hedge : edge.Complete destination store pattern persistence)
    (hxs : ∀ x ∈ xs, codec.Encodes x) :
    ∃ entry : RegisteredBlock α, destination.expectedReads edge = .ok entry.info.expectedReads ∧
      (perform (.close name) s).2.executor.registry.blocks =
        (.of edge.id task, entry) :: s.executor.registry.blocks.filter (·.1 ≠ .of edge.id task) ∧
      ∀ id, (perform (.close name) s).2.executor.registrations id =
        s.executor.registrations id + if id = .of edge.id task then 1 else 0 := by
  obtain ⟨hok, -, w', es, info, hw', -, hcloses, -⟩ := close_bears h hedge hxs
  obtain ⟨-, -, -, w, hw, hcarries⟩ := h
  obtain ⟨hid, hstate, hasked⟩ := hcarries.writing
  obtain ⟨_, -, -, -, block, -, -, hblocks⟩ := hcloses.registers
  have hends := close_ends (hregular.stages name w hw) s.executor
  rw [perform_close hw] at hok hw' hblocks hcloses ⊢
  generalize close (w, s.executor) = closed at hends hok hw' hblocks hcloses ⊢
  obtain rfl : closed.2.1 = w' := Option.some.inj ((writer_putWriter _ _ _).symm.trans hw')
  cases hends with
  | idle =>
    have hdone := congrArg WriterState.isCommitted (hstate.symm.trans hcloses.state)
    rw [WriterState.isCommitted_committed] at hdone
    cases hdone
  | committed hclosable hcommitted =>
    refine ⟨⟨block, info⟩, ?_, hblocks, fun id => ?_⟩
    · rw [← hasked, ← hcommitted.expectedReads]
      exact hcloses.reads
    · have hregistrations := hcommitted.registrations id
      rw [hid] at hregistrations
      exact hregistrations.trans (congrArg _ (if_congr eq_comm rfl rfl))
  | failed => cases hok

/-- Until it is closed, the representative's writer carries what it was given, as if there were no
others, and nothing is entered. -/
theorem run_carries_lone {e : Executor α} {before during : List (Call σ α)} (hready : e.Ready)
    (hedge : edge.Complete destination store pattern persistence)
    (hfiles : Spacious (.of edge.id task) e)
    (hbefore : ∀ call ∈ before, call.writer? ≠ some name)
    (hduring : ∀ call ∈ during, call.writer? = some name → ∃ x, call = .write name x)
    (hothers : ∀ call ∈ before ++ during, call.writer? ≠ some name →
      call.Idle ∧ call.Foreign name (.of edge.id task))
    (hcodec : ∀ x ∈ Call.given name during, e.registry.medium.codec.Encodes x) :
    let s := Session.run { executor := e }
      (before ++ .openWriter name task edge destination p :: during)
    Bears name (idle task edge destination p store) e.registry.medium.codec
      (Call.given name during) s ∧ s.Lone name ∧ unentered.rel e s.executor := by
  intro s
  have hbegun : ∀ call ∈ before, call.Idle ∧ call.Foreign name (.of edge.id task) :=
    fun call hcall => hothers call (List.mem_append_left _ hcall) (hbefore call hcall)
  have hgoing : ∀ call ∈ during, (call.writer? ≠ some name ∧ call.Idle ∧
      call.Foreign name (.of edge.id task)) ∨ ∃ x, call = .write name x := by
    intro call hcall
    by_cases hname : call.writer? = some name
    · exact .inr (hduring call hcall hname)
    · exact .inl ⟨hname, hothers call (List.mem_append_right _ hcall) hname⟩
  have hcarrying := run_open_carrying (p := p) hedge hfiles hready
    (fun call hcall => (hbegun call hcall).2)
    (fun call hcall => (hgoing call hcall).imp_left fun h => h.2.2) hcodec
  have hcalls : ∀ call ∈ before ++ .openWriter name task edge destination p :: during,
      call.writer? = some name ∧ call.isClose = false ∨ call.writer? ≠ some name ∧ call.Idle := by
    intro call hcall
    obtain hcall | rfl | hcall := by simpa only [List.mem_append, List.mem_cons] using hcall
    · exact .inr ⟨hbefore call hcall, (hbegun call hcall).1⟩
    · exact .inl ⟨rfl, rfl⟩
    · obtain ⟨hname, hidle, -⟩ | ⟨x, rfl⟩ := hgoing call hcall
      · exact .inr ⟨hname, hidle⟩
      · exact .inl ⟨rfl, rfl⟩
  have hlone : s.Lone name :=
    (Lone.start e).run fun call hcall => (hcalls call hcall).imp And.left And.right
  exact ⟨hcarrying.bears, hlone, run_unentered (.start e) hcalls⟩

end Session

end ShuffleBuffer
