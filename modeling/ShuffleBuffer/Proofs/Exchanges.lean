import ShuffleBuffer.Proofs.Lanes
import ShuffleBuffer.Proofs.Retries

/-! # Calls that change places

Neighbouring calls are free of each other if they come from different writers and are not both
closes. Any two orders of calls in which each writer's calls, and all closes, come one after the
other alike are linked by exchanges of such neighbours. An exchange is not seen: every call answers
as before, and the sessions that are left have the same lanes and share the same. -/

namespace ShuffleBuffer

open Estimate Step

variable {σ α : Type}

namespace Call

/-- The name that a call gives to a new writer. -/
def opens? : Call σ α → Option String
  | .openWriter name .. => some name
  | _ => none

theorem writer_of_opens {call : Call σ α} {name : String} (h : call.opens? = some name) :
    call.writer? = some name := by
  cases call with
  | openWriter => exact h
  | write | close | drop | removeBlock | disturb => cases h

/-- The calls of one writer. -/
def about (name : String) (calls : List (Call σ α)) : List (Call σ α) :=
  calls.filter (·.writer? = some name)

/-- Calls of different writers, not both of them closes. -/
structure Free (call other : Call σ α) : Prop where
  writer : other.writer? ≠ call.writer?
  close : call.isClose = true → other.isClose = false

theorem Under.writer {call : Call σ α} {name : String} {id : BlockId} (h : call.Under name id) :
    call.writer? = some name := by
  cases call with
  | openWriter => exact congrArg some h.1
  | write | close => exact congrArg some h
  | drop | removeBlock | disturb => exact h.elim

theorem Under.close {call : Call σ α} {name : String} {id : BlockId} (h : call.Under name id)
    (hclose : call.isClose = true) : call = .close name := by
  cases call with
  | close => exact congrArg Call.close h
  | openWriter | write | drop | removeBlock | disturb => cases hclose

theorem about_mine {call : Call σ α} {name : String} (h : call.writer? = some name)
    (calls : List (Call σ α)) : about name (call :: calls) = call :: about name calls :=
  List.filter_cons_of_pos (decide_eq_true h)

theorem about_other {call : Call σ α} {name : String} (h : call.writer? ≠ some name)
    (calls : List (Call σ α)) : about name (call :: calls) = about name calls :=
  List.filter_cons_of_neg (by simpa using h)

theorem about_append (name : String) (before after : List (Call σ α)) :
    about name (before ++ after) = about name before ++ about name after := List.filter_append ..

/-- The same calls, after neighbours that are free of each other have changed places. -/
inductive Exchange : List (Call σ α) → List (Call σ α) → Prop
  | refl (calls : List (Call σ α)) : Exchange calls calls
  | cons (call : Call σ α) {calls calls' : List (Call σ α)} :
      Exchange calls calls' → Exchange (call :: calls) (call :: calls')
  | swap {call other : Call σ α} (calls : List (Call σ α)) :
      Free call other → Exchange (call :: other :: calls) (other :: call :: calls)
  | trans {calls calls' calls'' : List (Call σ α)} :
      Exchange calls calls' → Exchange calls' calls'' → Exchange calls calls''

variable {call : Call σ α} {calls calls' before : List (Call σ α)}

theorem Exchange.perm (h : Exchange calls calls') : calls.Perm calls' := by
  induction h with
  | refl => exact .refl _
  | cons call _ ih => exact ih.cons call
  | swap => exact .swap _ _ _
  | trans _ _ ih ih' => exact ih.trans ih'

/-- A call gets behind others that are free of it. -/
theorem Exchange.behind (h : ∀ other ∈ before, Free call other) (after : List (Call σ α)) :
    Exchange (call :: (before ++ after)) (before ++ call :: after) := by
  induction before with
  | nil => exact .refl _
  | cons other before ih =>
    refine .trans (.swap _ (h other List.mem_cons_self)) (.cons other ?_)
    exact ih fun other hmem => h other (.tail _ hmem)

/-- Exchanges lead from one order of calls to any other that each writer and all closes together
find the same. -/
theorem Exchange.of_filter
    (hwriters : ∀ writer, calls'.filter (·.writer? = writer) = calls.filter (·.writer? = writer))
    (hcloses : calls'.filter isClose = calls.filter isClose) : Exchange calls calls' := by
  induction calls generalizing calls' with
  | nil =>
    cases calls' with
    | nil => exact .refl _
    | cons call _ => simpa using hwriters call.writer?
  | cons call calls ih =>
    -- the call stands somewhere in the other order, behind none of its writer's calls
    have hmine := hwriters call.writer?
    rw [List.filter_cons_of_pos (by simp)] at hmine
    obtain ⟨before, after, rfl, hbefore, -, hafter⟩ := List.filter_eq_cons_iff.mp hmine
    have hothers : ∀ other ∈ before, other.writer? ≠ call.writer? := fun other hmem => by
      simpa using hbefore other hmem
    have hquiet : call.isClose = true → before.filter isClose = [] := by
      intro hclose
      rw [List.filter_append, List.filter_cons_of_pos hclose, List.filter_cons_of_pos hclose]
        at hcloses
      cases hfirst : before.filter isClose with
      | nil => rfl
      | cons other _ =>
        rw [hfirst] at hcloses
        have hmem : other ∈ before.filter isClose := hfirst ▸ List.mem_cons_self
        refine absurd ?_ (hothers other (List.mem_filter.mp hmem).1)
        rw [(List.cons.inj hcloses).1]
    have hfree : ∀ other ∈ before, Free call other := by
      refine fun other hmem => ⟨hothers other hmem, fun hclose => ?_⟩
      simpa using List.filter_eq_nil_iff.mp (hquiet hclose) other hmem
    refine .trans (.cons call (ih (fun writer => ?_) ?_)) (.behind hfree after)
    · by_cases hwriter : call.writer? = writer
      · subst hwriter
        rw [List.filter_append, List.filter_eq_nil_iff.mpr hbefore, List.nil_append, hafter]
      · have hrest := hwriters writer
        rwa [List.filter_append, List.filter_cons_of_neg (by simpa using hwriter),
          List.filter_cons_of_neg (by simpa using hwriter), ← List.filter_append] at hrest
    · by_cases hclose : call.isClose = true
      · rw [List.filter_append, List.filter_cons_of_pos hclose, List.filter_cons_of_pos hclose,
          hquiet hclose] at hcloses
        rw [List.filter_append, hquiet hclose]
        exact (List.cons.inj hcloses).2
      · rwa [List.filter_append, List.filter_cons_of_neg hclose,
          List.filter_cons_of_neg hclose, ← List.filter_append] at hcloses

end Call

/-! ## What is shared runs ahead -/

theorem Metrics.exists_plus (m m' : Metrics) : ∃ δ, m' = m.plus δ := by
  refine ⟨{
    admissionsGranted := m'.admissionsGranted - m.admissionsGranted
    admissionsDenied := m'.admissionsDenied - m.admissionsDenied
    bytesAdmitted := m'.bytesAdmitted - m.bytesAdmitted
    bytesSpilled := m'.bytesSpilled - m.bytesSpilled
    memoryCommits := m'.memoryCommits - m.memoryCommits
    fileCommits := m'.fileCommits - m.fileCommits
    committedBytes := m'.committedBytes - m.committedBytes
    duplicatesOmitted := m'.duplicatesOmitted - m.duplicatesOmitted
    trackerSamples := m'.trackerSamples - m.trackerSamples }, ?_⟩
  simp [plus]

theorem Metrics.plus_right_comm (m δ δ' : Metrics) : (m.plus δ).plus δ' = (m.plus δ').plus δ := by
  simp [plus, add_right_comm]

namespace Shared

/-- What was created and counted, after so much more. -/
structure Ahead (κ : UInt64) (δ : Metrics) (g g' : Shared) : Prop where
  created : g'.created = g.created + κ
  metrics : g'.metrics = g.metrics.plus δ

/-- And nothing else has happened. -/
structure Onward (κ : UInt64) (δ : Metrics) (g g' : Shared) : Prop extends Ahead κ δ g g' where
  pool : g'.pool = g.pool
  replacements : g'.replacements = g.replacements

theorem exists_ahead (g g' : Shared) : ∃ κ δ, Ahead κ δ g g' := by
  obtain ⟨δ, hmetrics⟩ := Metrics.exists_plus g.metrics g'.metrics
  exact ⟨g'.created - g.created, δ, by simp, hmetrics⟩

variable {κ κ' : UInt64} {δ δ' : Metrics} {g g₁ g₂ g₁₂ g₂₁ : Shared}

theorem counts_ahead (κ : UInt64) (δ : Metrics) : Counts (Ahead κ δ) where
  created h := ⟨by simp only [h.created, add_right_comm], h.metrics⟩
  counted hf h := ⟨h.created, by simp only [h.metrics, hf _ _]⟩

theorem settles_onward (κ : UInt64) (δ : Metrics) : Settles (Onward κ δ) where
  created h := { h with toAhead := (counts_ahead κ δ).created h.toAhead }
  counted hf h := { h with toAhead := (counts_ahead κ δ).counted hf h.toAhead }
  pool h := h.pool
  moved _ h := ⟨⟨h.created, h.metrics⟩, rfl, h.replacements⟩
  replaced _ h := ⟨⟨h.created, h.metrics⟩, h.pool, by simp only [h.replacements]⟩

theorem settles_eq : Settles fun g g' : Shared => g' = g where
  created := by rintro g _ rfl; rfl
  counted := by rintro g _ f - rfl; rfl
  pool := by rintro g _ rfl; rfl
  moved := by rintro g _ pool rfl; rfl
  replaced := by rintro g _ r rfl; rfl

/-- Nothing but counting is done. -/
theorem counts_still (pool : Pool) (replacements : List Replacement) :
    Counts fun g _ : Shared => g.pool = pool ∧ g.replacements = replacements where
  created h := h
  counted _ h := h

/-- Two ways to the same, if one of them only counts on. -/
theorem Onward.meets (h₂ : Onward κ δ g g₂) (h₂₁ : Onward κ δ g₁ g₂₁) (h₁ : Ahead κ' δ' g g₁)
    (h₁₂ : Ahead κ' δ' g₂ g₁₂) (hpool : g₁₂.pool = g₁.pool)
    (hreplacements : g₁₂.replacements = g₁.replacements) : g₂₁ = g₁₂ := by
  have hcreated : g₂₁.created = g₁₂.created := by
    rw [h₂₁.created, h₁.created, h₁₂.created, h₂.created, add_right_comm]
  have hmetrics : g₂₁.metrics = g₁₂.metrics := by
    rw [h₂₁.metrics, h₁.metrics, h₁₂.metrics, h₂.metrics, Metrics.plus_right_comm]
  obtain ⟨pool, replacements, created, metrics⟩ := g₂₁
  obtain ⟨pool', replacements', created', metrics'⟩ := g₁₂
  exact congr (congr (congr (congrArg Shared.mk (h₂₁.pool.trans hpool.symm))
    (h₂₁.replacements.trans hreplacements.symm)) hcreated) hmetrics

end Shared

namespace Session

variable {a : Allotment} {name other : String} {id id' : BlockId} {s s' s'' : Session σ α}
  {call call' : Call σ α} {calls calls' calls'' : List (Call σ α)}

/-- Sessions that nobody tells apart: all their lanes are the same, and so is what is shared. -/
structure Alike (a : Allotment) (s s' : Session σ α) : Prop where
  allotted : s.Allotted a
  allotted' : s'.Allotted a
  lane : ∀ id, Twin a (fun _ _ => True) id s s'
  shared : s'.executor.shared = s.executor.shared

theorem Alike.symm (h : Alike a s s') : Alike a s' s :=
  ⟨h.allotted', h.allotted, fun id => (h.lane id).symm, h.shared.symm⟩

theorem Alike.trans (h : Alike a s s') (h' : Alike a s' s'') : Alike a s s'' :=
  ⟨h.allotted, h'.allotted', fun id => (h.lane id).trans (h'.lane id), h'.shared.trans h.shared⟩

variable [Measured α]

/-- A call sees no difference between such sessions, and makes none. -/
theorem Alike.perform (h : Alike a s s') (hname : a.block name = some id)
    (hcall : call.Under name id) (hunused : s.Unused call) :
    (perform call s').1 = (perform call s).1 ∧
      Alike a (perform call s).2 (perform call s').2 := by
  obtain ⟨hresult, hmine⟩ := perform_twin Shared.settles_eq.toCounts (fun _ => Shared.settles_eq)
    hname hcall hunused ((h.lane id).sharing h.shared)
  refine ⟨hresult, h.allotted.perform hname hcall, h.allotted'.perform hname hcall,
    fun other => ?_, hmine.executor.shared⟩
  by_cases hother : other = id
  · subst hother
    exact hmine.sharing trivial
  · have haside := (h.lane other).aside h.allotted' hname hcall hother
    exact (haside.symm.aside h.allotted hname hcall hother).symm

/-- A name that is not given to a writer is not given by another call, either. -/
theorem Unused.perform (h : s.Unused call') (hs : s.Allotted a) (hname : a.block name = some id)
    (hcall : call.Under name id) (hopens : ∀ n, call.opens? = some n → call'.opens? ≠ some n) :
    (Session.perform call s).2.Unused call' := by
  cases call' with
  | openWriter n =>
    have habsent : s.writer? n = none := h
    by_cases hsame : n = name
    · subst hsame
      cases call with
      | openWriter other =>
        obtain rfl : other = n := hcall.1
        exact absurd rfl (hopens _ rfl)
      | write other | close other =>
        obtain rfl : other = n := hcall
        simp [Session.perform, callWriter, habsent, Unused]
      | drop | removeBlock | disturb => exact hcall.elim
    · exact (hs.writer_ne hname hcall hsame).trans habsent
  | write | close | drop | removeBlock | disturb => trivial

/-- Only closes move the pool and tell of replacements. -/
theorem Alike.quiet (h : Alike a s s) (hname : a.block name = some id)
    (hcall : call.Under name id) (hunused : s.Unused call) (hclose : call.isClose = false) :
    (Session.perform call s).2.executor.pool = s.executor.pool ∧
      (Session.perform call s).2.executor.registry.replacements =
        s.executor.registry.replacements :=
  (perform_twin (Shared.counts_still s.executor.pool s.executor.registry.replacements)
    (by simp [hclose]) hname hcall hunused ((h.lane id).sharing ⟨rfl, rfl⟩)).2.executor.shared

/-- The calls that are still to come: each is one of the writers', and no name is given twice. -/
structure Pending (a : Allotment) (s : Session σ α) (calls : List (Call σ α)) : Prop where
  known : ∀ call ∈ calls, ∃ name id, a.block name = some id ∧ call.Under name id
  unused : ∀ call ∈ calls, s.Unused call
  once : calls.Pairwise fun call other => ∀ name, call.opens? = some name → other.opens? ≠ some name

omit [Measured α] in
theorem Pending.perm (h : Pending a s calls) (hperm : calls.Perm calls') : Pending a s calls' := by
  refine ⟨fun call hmem => h.known call (hperm.mem_iff.mpr hmem),
    fun call hmem => h.unused call (hperm.mem_iff.mpr hmem), h.once.perm hperm ?_⟩
  exact fun hother name hopens hsame => hother name hsame hopens

theorem Pending.perform (h : Pending a s (call :: calls)) (hs : s.Allotted a) :
    Pending a (Session.perform call s).2 calls := by
  obtain ⟨name, id, hname, hcall⟩ := h.known call List.mem_cons_self
  obtain ⟨hopens, honce⟩ := List.pairwise_cons.mp h.once
  refine ⟨fun other hmem => h.known other (.tail _ hmem), fun other hmem => ?_, honce⟩
  exact (h.unused other (.tail _ hmem)).perform hs hname hcall (hopens other hmem)

omit [Measured α] in
theorem Pending.left (h : Pending a s (calls ++ calls')) : Pending a s calls :=
  ⟨fun call hmem => h.known call (List.mem_append_left _ hmem),
    fun call hmem => h.unused call (List.mem_append_left _ hmem),
    h.once.sublist (List.sublist_append_left _ _)⟩

theorem Pending.run (h : Pending a s (calls ++ calls')) (hs : s.Allotted a) :
    Pending a (s.run calls) calls' := by
  induction calls generalizing s with
  | nil => exact h
  | cons call calls ih =>
    obtain ⟨name, id, hname, hcall⟩ := h.known call List.mem_cons_self
    exact ih (h.perform hs) (hs.perform hname hcall)

/-- What a call of one writer does and what another one's does are the same in either order, if the
other one is no close. -/
theorem Alike.swap (h : Alike a s s) (hcalls : Pending a s (call :: call' :: calls))
    (hwriter : call'.writer? ≠ call.writer?) (hclose : call'.isClose = false) :
    (Session.perform call (Session.perform call' s).2).1 = (Session.perform call s).1 ∧
      (Session.perform call' (Session.perform call s).2).1 = (Session.perform call' s).1 ∧
      Alike a (s.run [call, call']) (s.run [call', call]) := by
  obtain ⟨name, id, hname, hcall⟩ := hcalls.known call List.mem_cons_self
  obtain ⟨name', id', hname', hcall'⟩ := hcalls.known call' (.tail _ List.mem_cons_self)
  have hunused := hcalls.unused call List.mem_cons_self
  have hunused' := hcalls.unused call' (.tail _ List.mem_cons_self)
  have hid : id' ≠ id := by
    rintro rfl
    rw [hcall.writer, hcall'.writer, a.single hname hname'] at hwriter
    exact hwriter rfl
  have hs := h.allotted
  have hfirst := hs.perform hname hcall
  have hfirst' := hs.perform hname' hcall'
  -- seen from either writer, the other one has only counted on
  obtain ⟨κ, δ, hahead⟩ := Shared.exists_ahead s.executor.shared
    (Session.perform call' s).2.executor.shared
  obtain ⟨κ', δ', hahead'⟩ := Shared.exists_ahead s.executor.shared
    (Session.perform call s).2.executor.shared
  obtain ⟨hpool, hreplacements⟩ := h.quiet hname' hcall' hunused' hclose
  have honward : Shared.Onward κ δ s.executor.shared (Session.perform call' s).2.executor.shared :=
    ⟨hahead, hpool, hreplacements⟩
  have hsettles := Shared.settles_onward κ δ
  obtain ⟨hresult, hlane⟩ := perform_twin hsettles.toCounts (fun _ => hsettles) hname hcall hunused
    (((h.lane id).aside hs hname' hcall' (Ne.symm hid)).sharing honward)
  obtain ⟨hresult', hlane'⟩ := perform_twin (Shared.counts_ahead κ' δ') (by simp [hclose]) hname'
    hcall' hunused' (((h.lane id').aside hs hname hcall hid).sharing hahead')
  obtain ⟨hpool', hreplacements'⟩ := (h.perform hname hcall hunused).2.quiet hname' hcall'
    ((hcalls.perform hs).unused call' List.mem_cons_self) hclose
  refine ⟨hresult, hresult', hfirst.perform hname' hcall', hfirst'.perform hname hcall,
    fun third => ?_, honward.meets hlane.executor.shared hahead' hlane'.executor.shared hpool'
      hreplacements'⟩
  by_cases hthird : third = id
  · subst hthird
    exact (hlane.symm.aside hfirst hname' hcall' (Ne.symm hid)).symm
  by_cases hthird' : third = id'
  · subst hthird'
    exact hlane'.symm.aside hfirst' hname hcall hthird
  · have hways := (((h.lane third).aside hs hname hcall hthird).aside hfirst hname' hcall' hthird').symm
    exact (hways.aside hs hname' hcall' hthird').aside hfirst' hname hcall hthird

/-! ## Runs -/

/-- What the calls of one writer answer in a run. -/
def answers (name : String) : List (Call σ α) → Session σ α → List (Except Fault Unit)
  | [], _ => []
  | call :: calls, s =>
      if call.writer? = some name then
        (perform call s).1 :: answers name calls (perform call s).2
      else answers name calls (perform call s).2

theorem answers_mine (h : call.writer? = some name) (calls : List (Call σ α)) (s : Session σ α) :
    answers name (call :: calls) s =
      (perform call s).1 :: answers name calls (perform call s).2 := if_pos h

theorem answers_other (h : call.writer? ≠ some name) (calls : List (Call σ α)) (s : Session σ α) :
    answers name (call :: calls) s = answers name calls (perform call s).2 := if_neg h

theorem answers_append (name : String) (before after : List (Call σ α)) (s : Session σ α) :
    answers name (before ++ after) s = answers name before s ++ answers name after (s.run before) := by
  induction before generalizing s with
  | nil => rfl
  | cons call before ih =>
    simp only [List.cons_append, answers, ih, run_cons]
    split <;> rfl

/-- Two runs in which all writers get the same answers, and after which nobody tells the sessions
apart. -/
structure Agreed (a : Allotment) (calls calls' : List (Call σ α)) (s s' : Session σ α) : Prop where
  answers : ∀ name, answers name calls' s' = answers name calls s
  alike : Alike a (s.run calls) (s'.run calls')

theorem Agreed.symm (h : Agreed a calls calls' s s') : Agreed a calls' calls s' s :=
  ⟨fun name => (h.answers name).symm, h.alike.symm⟩

theorem Agreed.trans (h : Agreed a calls calls' s s') (h' : Agreed a calls' calls'' s' s'') :
    Agreed a calls calls'' s s'' :=
  ⟨fun name => (h'.answers name).trans (h.answers name), h.alike.trans h'.alike⟩

theorem Agreed.cons (h : (perform call s').1 = (perform call s).1)
    (hrest : Agreed a calls calls' (perform call s).2 (perform call s').2) :
    Agreed a (call :: calls) (call :: calls') s s' := by
  refine ⟨fun name => ?_, hrest.alike⟩
  rw [Session.answers, Session.answers, h, hrest.answers name]

theorem run_alike (h : Alike a s s') (hcalls : Pending a s calls) :
    Agreed a calls calls s s' := by
  induction calls generalizing s s' with
  | nil => exact ⟨fun _ => rfl, h⟩
  | cons call calls ih =>
    obtain ⟨name, id, hname, hcall⟩ := hcalls.known call List.mem_cons_self
    obtain ⟨hresult, hnext⟩ := h.perform hname hcall (hcalls.unused call List.mem_cons_self)
    exact .cons hresult (ih hnext (hcalls.perform h.allotted))

/-- Two neighbours change places. -/
theorem run_swap (h : Alike a s s) (hcalls : Pending a s (call :: call' :: calls))
    (hwriter : call'.writer? ≠ call.writer?) (hclose : call'.isClose = false) :
    Agreed a (call :: call' :: calls) (call' :: call :: calls) s s := by
  obtain ⟨hresult, hresult', hboth⟩ := h.swap hcalls hwriter hclose
  obtain ⟨name, id, hname, hcall⟩ := hcalls.known call List.mem_cons_self
  have hrest := run_alike hboth
    ((hcalls.perform h.allotted).perform (h.allotted.perform hname hcall))
  refine ⟨fun other => ?_, hrest.alike⟩
  have hanswers := hrest.answers other
  simp only [run_cons, run_nil] at hanswers
  simp only [answers, hresult, hresult', hanswers]
  by_cases hmine : call.writer? = some other
  · simp [hmine, hmine ▸ hwriter]
  · simp [hmine]

theorem run_exchange (hexchange : Call.Exchange calls calls') (h : Alike a s s')
    (hcalls : Pending a s calls) : Agreed a calls calls' s s' := by
  induction hexchange generalizing s s' with
  | refl calls => exact run_alike h hcalls
  | cons call _ ih =>
    obtain ⟨name, id, hname, hcall⟩ := hcalls.known call List.mem_cons_self
    obtain ⟨hresult, hnext⟩ := h.perform hname hcall (hcalls.unused call List.mem_cons_self)
    exact .cons hresult (ih hnext (hcalls.perform h.allotted))
  | @swap call other calls hfree =>
    have hswapped := hcalls.perm (.swap other call calls)
    refine .trans ?_ (run_alike h hswapped)
    cases hclose : other.isClose with
    | false => exact run_swap (h.trans h.symm) hcalls hfree.writer hclose
    | true =>
      have hclose' : call.isClose = false := by
        rw [Bool.eq_false_iff]
        exact fun hcall => absurd (hfree.close hcall) (by simp [hclose])
      exact (run_swap (h.trans h.symm) hswapped (Ne.symm hfree.writer) hclose').symm
  | trans hfirst _ ih ih' =>
    exact (ih (h.trans h.symm) hcalls).trans (ih' h (hcalls.perm hfirst.perm))

end Session

end ShuffleBuffer
