import Mathlib.Data.UInt
import Mathlib.Tactic.Abel
import ShuffleBuffer.Proofs.Callers

/-! # What the counters count

In a run of any writers, each counter is what the writers of the run add to it, as they were left,
and what the offers and the samples of the run add to it. Each law of this kind is about the few ways
in which counting is done; that it holds throughout a run is proved once for all of them. -/

namespace ShuffleBuffer

open Estimate Step

variable {σ α : Type}

/-! ## Laws -/

/-- A quantity that writers add to by what becomes of them, and that offers and samples add to. -/
structure Law (κ : Type) [AddCommMonoid κ] where
  count : Metrics → List Replacement → κ
  /-- What a writer adds in this state, with these bytes told, and spilled or not. -/
  weight : WriterState → Option UInt64 → Bool → κ := fun _ _ _ => 0
  /-- What an offer of this size adds, refused or not. -/
  offer : Bool → UInt64 → κ := fun _ _ => 0
  sample : κ := 0
  writing : weight .writing none false = 0 := by simp
  omitted : ∀ m r, count m.duplicateOmitted r = count m r + weight .noOp none false := by
    simp [Metrics.duplicateOmitted, WriterState.isCommitted]
  sampled : ∀ m r, count m.trackerSampled r = count m r + sample := by
    simp [Metrics.trackerSampled]
  granted : ∀ m r size, count (m.admissionGranted size) r = count m r + offer false size := by
    simp [Metrics.admissionGranted, add_right_comm, add_assoc]
  denied : ∀ m r size, count (m.admissionDenied size) r = count m r + offer true size := by
    simp [Metrics.admissionDenied, add_assoc]
  kept : ∀ m r store total, count (m.blockCommitted store total) r =
      count m r + weight (.committed store) total false := by
    intro m r store total
    cases store <;> simp [Metrics.blockCommitted, WriterState.committed, StoreKind.isMemoryTier,
      WriterState.isCommitted]
  spilled : ∀ m r replacement total, count (m.blockCommitted .localFile total) (r ++ [replacement]) =
      count m r + weight .committedDisk total true := by
    simp [Metrics.blockCommitted, StoreKind.isMemoryTier, WriterState.isCommitted]

namespace Law

def memoryCommits : Law UInt64 where
  count m _ := m.memoryCommits
  weight state _ _ := if state = .committedMemory then 1 else 0

def fileCommits : Law UInt64 where
  count m _ := m.fileCommits
  weight state _ _ := if state = .committedDisk then 1 else 0

def committedBytes : Law UInt64 where
  count m _ := m.committedBytes
  weight state total _ := if state.isCommitted then total.getD 0 else 0

def duplicatesOmitted : Law UInt64 where
  count m _ := m.duplicatesOmitted
  weight state _ _ := if state = .noOp then 1 else 0

def admissions : Law UInt64 where
  count m _ := m.admissionsGranted + m.admissionsDenied
  offer _ _ := 1

def bytesOffered : Law UInt64 where
  count m _ := m.bytesAdmitted + m.bytesSpilled
  offer _ size := size

def admissionsDenied : Law UInt64 where
  count m _ := m.admissionsDenied
  offer refused _ := if refused then 1 else 0

def trackerSamples : Law UInt64 where
  count m _ := m.trackerSamples
  sample := 1

def replacements : Law Nat where
  count _ r := r.length
  weight _ _ spilled := if spilled then 1 else 0

end Law

namespace Writer

variable {w w' : Writer σ α} {a a' : Account α}

/-- What a close of the writer offers to this pool, refused or not. -/
def offers (w : Writer σ α) (p : Pool) : List (Bool × UInt64) :=
  if w.closable then (w.trackedSize.map fun size => (w.refused p, size)).toList else []

end Writer

namespace Law

open Writer

variable {κ : Type} [AddCommMonoid κ] (l : Law κ) {w w' : Writer σ α} {a a' : Account α}

def weigh (w : Writer σ α) : κ := l.weight w.state w.writtenBytes w.spilled

def weighAll (ws : List (Writer σ α)) : κ := (ws.map l.weigh).sum

def offered (offers : List (Bool × UInt64)) : κ := (offers.map fun o => l.offer o.1 o.2).sum

/-- What an executor has counted. -/
def counted (e : Executor α) : κ := l.count e.metrics e.registry.replacements

@[simp] theorem weighAll_nil : l.weighAll ([] : List (Writer σ α)) = 0 := rfl

@[simp] theorem weighAll_cons (w : Writer σ α) (ws : List (Writer σ α)) :
    l.weighAll (w :: ws) = l.weigh w + l.weighAll ws := by
  simp [weighAll]

@[simp] theorem weighAll_append (ws ws' : List (Writer σ α)) :
    l.weighAll (ws ++ ws') = l.weighAll ws + l.weighAll ws' := by
  simp [weighAll]

@[simp] theorem offered_nil : l.offered [] = 0 := rfl

@[simp] theorem offered_append (os os' : List (Bool × UInt64)) :
    l.offered (os ++ os') = l.offered os + l.offered os' := by
  simp [offered]

theorem weigh_opened {edge : Edge} {id : BlockId} (h : Opened edge id a w a') :
    l.count a'.metrics a'.replacements = l.count a.metrics a.replacements + l.weigh w := by
  cases h with
  | writing _ _ hstate _ _ _ _ _ hbytes hspilled =>
    rw [weigh, hstate, hbytes, hspilled, l.writing, add_zero]
  | omitted _ _ hstate _ _ hbytes hspilled =>
    rw [weigh, hstate, hbytes, hspilled]
    exact l.omitted _ _

theorem count_offered (m : Metrics) (r : List Replacement) {offer : Option UInt64} {p : Pool}
    (hrefused : offer = none → w.refused p = false) :
    l.count (m.offered (w.refused p) offer) r =
      l.count m r + l.offered (offer.map fun size => (w.refused p, size)).toList := by
  cases offer with
  | none => simp [Metrics.offered, offered]
  | some size =>
    cases hyes : w.refused p with
    | true => simpa [Metrics.offered, offered] using l.denied m r size
    | false => simpa [Metrics.offered, offered] using l.granted m r size

theorem weigh_committed {refused : Bool} (h : Committed w a refused w' a')
    (hspilled : w.spilled = false) :
    l.count a'.metrics a'.replacements = l.count a.metrics a.replacements + l.weigh w' := by
  cases h with
  | @kept entry total hstore _ =>
    rw [weigh, hspilled, ← hstore]
    exact l.kept _ _ _ _
  | @spilled entry total hstore _ =>
    show l.count (a.metrics.blockCommitted entry.info.store total) _ = _
    rw [hstore]
    exact l.spilled _ _ _ _

variable {e : Executor α}

/-- Before a close that gets to its block a writer has added nothing. -/
theorem weigh_closable (hstage : Stage w) (hclosable : w.closable = true) (e : Executor α) :
    l.weigh w = 0 ∧ w.spilled = false ∧
    l.count (e.metrics.offered (w.refused e.pool) w.trackedSize) e.registry.replacements =
      l.counted e + l.offered (w.trackedSize.map fun size => (w.refused e.pool, size)).toList := by
  obtain ⟨b, hstate, -, -, hbytes, hspilled⟩ := hstage.of_closable hclosable
  refine ⟨by rw [weigh, hstate, hbytes, hspilled, l.writing], hspilled, ?_⟩
  refine l.count_offered e.metrics e.registry.replacements fun hnone => ?_
  rw [refused, hnone]
  rfl

variable [Measured α]

theorem write_weighed (x : α)
    (hroom : l.sample = 0 ∨ ∀ t, w.tracker = some t → t.samplesTaken.toNat + 1 < 2 ^ 64) :
    l.weigh (write x (w, e)).2.1 = l.weigh w ∧
    l.counted (write x (w, e)).2.2 = l.counted e +
      if w.due = true ∧ (write x (w, e)).1 = .ok () then l.sample else 0 := by
  obtain ⟨hwrote, m, ha, heither, hm⟩ := write_stands (w := w) (e := e) x
  have halike := hwrote.alike
  refine ⟨by rw [weigh, weigh, halike.state, halike.writtenBytes, halike.spilled], ?_⟩
  rw [counted, ← Executor.account_metrics, ← Executor.account_replacements, ha]
  obtain hnone | hroom := hroom
  · rw [hnone, ite_self, add_zero]
    obtain rfl | rfl := heither
    · rfl
    · exact (l.sampled _ _).trans (by rw [hnone, add_zero]; rfl)
  · rw [hm hroom]
    split
    · exact l.sampled _ _
    · exact (add_zero _).symm

theorem close_weighed (hstage : Stage w) (husable : e.estimator.Usable) :
    l.counted (close (w, e)).2.2 + l.weigh w =
      l.counted e + l.weigh (close (w, e)).2.1 + l.offered (w.offers e.pool) := by
  have hends := close_ends hstage e
  generalize close (w, e) = closed at hends
  cases hends with
  | idle result hidle => simp [offers, hidle, offered]
  | @committed w' e' hclosable hcommitted =>
    obtain ⟨hnothing, hspilled, hcount⟩ := l.weigh_closable hstage hclosable e
    rw [hnothing, add_zero, offers, if_pos hclosable, add_right_comm, ← hcount]
    exact l.weigh_committed hcommitted hspilled
  | @failed fault m e' hclosable ha hm =>
    obtain ⟨hnothing, -, hcount⟩ := l.weigh_closable hstage hclosable e
    have hkept : l.weigh { w with block := none, tracker := none } = 0 := hnothing
    show l.count e'.account.metrics e'.account.replacements + _ = _
    rw [hnothing, hkept, add_zero, add_zero, offers, if_pos hclosable, ← hcount, ha, hm husable]
    rfl

end Law

/-- Files can be made under this name. -/
def BlockId.Named (id : BlockId) : Prop := SpillDir.isFileName (Block.fileName id) = true

instance (id : BlockId) : Decidable id.Named :=
  inferInstanceAs (Decidable (SpillDir.isFileName (Block.fileName id) = true))

/-- A file can be made for the block, and nobody else disturbs. -/
def Call.Feasible : Call σ α → Prop
  | .openWriter _ task edge _ _ => (BlockId.of edge.id task).Named
  | .write .. | .close _ | .drop _ | .removeBlock _ => True
  | .disturb _ => False

namespace Call.Feasible

open Executor

theorem within {call : Call σ α} (h : call.Feasible) :
    call.Within (fun _ => True) BlockId.Named (Sited BlockId.Named default 0 0)
      (watched default 0 0) := by
  cases call with
  | openWriter => exact ⟨trivial, h⟩
  | write | close | drop => trivial
  | removeBlock id => exact fun e he => removeBlock_watched (fun hlive => by simp at hlive) he.keyed
  | disturb => exact h.elim

end Call.Feasible

namespace Session

open Writer Executor BlockId

variable [Measured α] {s : Session σ α} {call : Call σ α} {calls : List (Call σ α)} {name : String}

/-! ## What is counted of a run -/

/-- What is noted of each call of a run, from what the call meets. -/
def collect {β : Type} (note : Call σ α → Session σ α → List β) :
    Session σ α → List (Call σ α) → List β
  | _, [] => []
  | s, call :: calls => note call s ++ collect note (perform call s).2 calls

/-- The writer that a call lets go: it is dropped, or another one gets its name. -/
def leaving (call : Call σ α) (s : Session σ α) : List (Writer σ α) :=
  match call with
  | .drop name => (s.writer? name).toList
  | .openWriter name task edge destination p =>
      if (Writer.make task edge destination p s.executor).1.isOk then (s.writer? name).toList else []
  | _ => []

/-- All writers of a run, each as it was left. -/
def everyone (s : Session σ α) (calls : List (Call σ α)) : List (Writer σ α) :=
  collect leaving s calls ++ (s.run calls).writers.map Prod.snd

/-- The sizes that are offered to the pool when writers are closed, and whether they are refused. -/
def offers (call : Call σ α) (s : Session σ α) : List (Bool × UInt64) :=
  match call with
  | .close name => (s.writer? name).elim [] fun w => w.offers s.executor.pool
  | _ => []

/-- The elements that a close replays into a file because the pool refuses them. -/
def replayed (call : Call σ α) (s : Session σ α) : List α :=
  match call with
  | .close name => (s.writer? name).elim [] fun w =>
      if w.closable ∧ w.refused s.executor.pool then w.tracker.elim [] (·.elements.toList) else []
  | _ => []

/-- No encode fails while refused buffers are replayed in a run. -/
def Encodable : Session σ α → List (Call σ α) → Prop
  | _, [] => True
  | s, call :: calls =>
      s.executor.registry.medium.codec.EncodesFrom true s.executor.registry.medium.encodings
        (replayed call s) ∧ Encodable (perform call s).2 calls

instance (s : Session σ α) : ∀ calls : List (Call σ α), Decidable (s.Encodable calls)
  | [] => isTrue trivial
  | call :: calls =>
      have := instDecidableEncodable (perform call s).2 calls
      inferInstanceAs (Decidable (_ ∧ _))

/-- The elements whose writes bring an estimate of a buffer that succeeds. -/
def samplings (call : Call σ α) (s : Session σ α) : List α :=
  match call with
  | .write name x =>
      if (s.writer? name).any (·.due) = true ∧ (perform (.write name x) s).1 = .ok () then [x] else []
  | _ => []

/-! ## Room for samples -/

/-- With these calls to come, no tracker uses up its own count of samples. -/
structure Roomy (s : Session σ α) (calls : List (Call σ α)) : Prop where
  given : ∀ name, (Call.given name calls).length + 2 < 2 ^ 64
  trackers : ∀ name w t, s.writer? name = some w → w.tracker = some t →
    t.Sparse ∧ t.elements.size + (Call.given name calls).length + 2 < 2 ^ 64

omit [Measured α] in
theorem Roomy.start {e : Executor α}
    (h : ∀ name, (Call.given name calls).length + 2 < 2 ^ 64) :
    Roomy ({ executor := e } : Session σ α) calls where
  given := h
  trackers := by
    intro name w t hw
    cases hw

omit [Measured α] in
theorem Roomy.room (h : Roomy s calls) (name : String) (w : Writer σ α) (t : Tracker α)
    (hw : s.writer? name = some w) (ht : w.tracker = some t) :
    t.samplesTaken.toNat + 1 < 2 ^ 64 := by
  obtain ⟨hsparse, hroom⟩ := h.trackers name w t hw ht
  unfold Tracker.Sparse at hsparse
  omega

theorem Roomy.perform (h : Roomy s (call :: calls)) (hstages : s.Each Stage) :
    Roomy (perform call s).2 calls where
  given name := by
    have hlength := h.given name
    rw [given_cons, List.length_append] at hlength
    omega
  trackers := by
    intro name w' t' hw' ht'
    have hlength := h.given name
    rw [given_cons, List.length_append] at hlength
    obtain ⟨hempty, hsparse⟩ | ⟨w, t, hw, ht, hsparse, helements⟩ :=
      perform_tracker hstages call hw' ht'
    · rw [hempty, Array.size_empty]
      exact ⟨hsparse, by omega⟩
    · obtain ⟨hbefore, hroom⟩ := h.trackers name w t hw ht
      rw [given_cons, List.length_append] at hroom
      refine ⟨hsparse hbefore, ?_⟩
      rw [← Array.length_toList, helements, List.length_append, Array.length_toList]
      omega

/-! ## The laws hold -/

variable {κ : Type}

omit [Measured α] in
/-- The writer of a name and the others. -/
theorem weigh_writers [AddCommMonoid κ] (l : Law κ) (h : (s.writers.map Prod.fst).Nodup)
    (name : String) :
    l.weighAll (s.writers.map Prod.snd) = l.weighAll (s.writer? name).toList +
      l.weighAll ((s.writers.filter (·.1 ≠ name)).map Prod.snd) := by
  cases hw : s.writer? name with
  | none => rw [filter_of_lookup_none hw, Option.toList_none, Law.weighAll_nil, zero_add]
  | some w =>
    have hperm := (perm_of_lookup h hw).map Prod.snd
    rw [Law.weighAll, (hperm.map _).sum_eq]
    simp [Law.weighAll]

omit [Measured α] in
theorem weigh_putWriter [AddCommMonoid κ] (l : Law κ) (s : Session σ α) (name : String)
    (w : Writer σ α) :
    l.weighAll ((s.putWriter name w).writers.map Prod.snd) =
      l.weigh w + l.weighAll ((s.writers.filter (·.1 ≠ name)).map Prod.snd) := by
  rw [putWriter, List.map_cons, Law.weighAll_cons]

omit [Measured α] in
theorem counted_dropWriter [AddCommMonoid κ] (l : Law κ) (s : Session σ α) (name : String) :
    l.counted (s.dropWriter name).executor = l.counted s.executor := by
  obtain ⟨medium, hdropped⟩ := executor_dropWriter s name
  rw [hdropped]
  rfl

/-- What a call on a writer adds. -/
theorem step_counts [AddCommMonoid κ] (l : Law κ) {w : Writer σ α} (hstage : Stage w)
    (husable : s.executor.estimator.Usable)
    (hroom : l.sample = 0 ∨ ∀ t, w.tracker = some t → t.samplesTaken.toNat + 1 < 2 ^ 64)
    (hw : s.writer? name = some w) (c : WriterCall α) :
    l.counted (c.step (w, s.executor)).2.2 + l.weigh w =
      l.counted s.executor + l.weigh (c.step (w, s.executor)).2.1 +
        l.offered (offers (c.under name) s) + (samplings (c.under name) s).length • l.sample := by
  cases c with
  | write x =>
    obtain ⟨hweigh, hcount⟩ := l.write_weighed (e := s.executor) x hroom
    rw [WriterCall.step, hweigh, hcount]
    have hresult : (perform (.write name x) s).1 = (write x (w, s.executor)).1 := by
      simp only [perform, callWriter, hw, Option.getD_some]
    simp only [WriterCall.under, offers, samplings, hw, Option.any_some, hresult]
    split
    · rw [List.length_singleton, one_nsmul, Law.offered_nil]
      abel
    · rw [List.length_nil, zero_nsmul, Law.offered_nil]
      abel
  | close =>
    rw [WriterCall.step, l.close_weighed hstage husable]
    simp only [WriterCall.under, offers, samplings, hw, Option.elim_some, List.length_nil,
      zero_nsmul, add_zero]

/-- What one call adds. -/
theorem perform_counts [AddCommMonoid κ] (l : Law κ) (h : s.Regular)
    (hroom : l.sample = 0 ∨ ∀ name w t, s.writer? name = some w → w.tracker = some t →
      t.samplesTaken.toNat + 1 < 2 ^ 64) (call : Call σ α) :
    l.counted (perform call s).2.executor + l.weighAll (s.writers.map Prod.snd) =
      l.counted s.executor + l.weighAll (leaving call s) +
        l.weighAll ((perform call s).2.writers.map Prod.snd) +
        l.offered (offers call s) + (samplings call s).length • l.sample := by
  have hperforms := performs call s
  generalize (perform call s).2 = s' at hperforms
  cases hperforms with
  | @opened name task edge destination p w e hmake hopens =>
    have hcount : l.counted e = l.counted s.executor + l.weigh w := l.weigh_opened hopens
    rw [weigh_writers l h.names name, weigh_putWriter, writers_dropWriter]
    show l.counted (Session.dropWriter name _).executor + _ = _
    rw [counted_dropWriter, hcount]
    simp only [leaving, offers, samplings, hmake, Except.isOk, Except.toBool, if_true,
      List.filter_filter, Bool.and_self, Law.offered_nil, List.length_nil, zero_nsmul]
    abel
  | @unopened name task edge destination p fault e hmake hsame =>
    have hcount : l.counted e = l.counted s.executor :=
      congrArg (fun a : Account α => l.count a.metrics a.replacements) hsame
    simp [leaving, offers, samplings, hmake, Except.isOk, Except.toBool, hcount]
  | @called name w c hw =>
    have hstep := step_counts l (h.stages name w hw) h.usable
      (hroom.imp_right fun hroom t ht => hroom name w t hw ht) hw c
    have hleaving : leaving (c.under name) s = [] := by cases c <;> rfl
    rw [weigh_writers l h.names name, hw, weigh_putWriter, hleaving, Law.weighAll_nil, add_zero,
      Option.toList_some, Law.weighAll_cons, Law.weighAll_nil, add_zero]
    show l.counted (c.step (w, s.executor)).2.2 + _ = _
    rw [← add_assoc, hstep]
    abel
  | @absent name c hnone =>
    cases c <;> simp [WriterCall.under, leaving, offers, samplings, hnone]
  | dropped name =>
    rw [weigh_writers l h.names name, counted_dropWriter, writers_dropWriter]
    simp [leaving, offers, samplings, add_assoc]
  | removed id =>
    have hcount : l.counted (Executor.removeBlock id s.executor).2 = l.counted s.executor := by
      obtain ⟨-, hsame⟩ | ⟨removed, -, hremoved⟩ := removeBlock_cases id s.executor
      · rw [hsame]
      · rw [hremoved]
        rfl
    simp [leaving, offers, samplings, hcount]
  | disturbed dir =>
    simp only [leaving, offers, samplings, Law.weighAll_nil, Law.offered_nil, List.length_nil,
      zero_nsmul, add_zero]
    rfl

theorem collect_cons {β : Type} (note : Call σ α → Session σ α → List β) (s : Session σ α)
    (call : Call σ α) (calls : List (Call σ α)) :
    collect note s (call :: calls) = note call s ++ collect note (perform call s).2 calls := rfl

/-- What a run adds. -/
theorem run_counts [AddCancelCommMonoid κ] (l : Law κ) (h : s.Regular) (calls : List (Call σ α))
    (hroom : l.sample = 0 ∨ Roomy s calls) :
    l.counted (s.run calls).executor + l.weighAll (s.writers.map Prod.snd) =
      l.counted s.executor + l.weighAll (everyone s calls) + l.offered (collect offers s calls) +
        (collect samplings s calls).length • l.sample := by
  induction calls generalizing s with
  | nil => simp [everyone, collect, run_nil]
  | cons call calls ih =>
    have hfirst := perform_counts l h (hroom.imp_right fun hroom => hroom.room) call
    have hrest := ih (h.perform call) (hroom.imp_right fun hroom => hroom.perform h.stages)
    simp only [everyone, collect_cons, List.length_append, Law.weighAll_append, Law.offered_append,
      run_cons, add_nsmul] at hrest ⊢
    generalize l.counted (Session.perform call s).2.executor = between,
      l.weighAll ((Session.perform call s).2.writers.map Prod.snd) = writers at hfirst hrest
    refine add_right_cancel (b := between + writers) ?_
    calc
      _ = (l.counted ((Session.perform call s).2.run calls).executor + writers) +
          (between + l.weighAll (s.writers.map Prod.snd)) := by abel
      _ = _ := by rw [hfirst, hrest]
      _ = _ := by abel

/-! ## Refusals -/

/-- Where files can be made and elements encoded, a refused buffer gets into a file. -/
theorem close_refused {w : Writer σ α} {e : Executor α} (hstage : Stage w)
    (hclosable : w.closable = true) (hrefused : w.refused e.pool = true) (hspace : Spacious w.id e)
    (husable : e.estimator.Usable)
    (hencodes : ∀ t, w.tracker = some t → e.registry.medium.codec.EncodesFrom true
      e.registry.medium.encodings t.elements.toList) :
    (close (w, e)).1 = .ok () := by
  obtain ⟨persistence, reads, b, -, hpersistence, hreads, hblock⟩ := of_closable hclosable
  obtain ⟨size, hsize, hdenied⟩ := Option.any_eq_true _ _ |>.mp hrefused
  obtain ⟨t, ht, rfl⟩ := Option.map_eq_some_iff.mp hsize
  have hdenied := Bool.not_eq_true' _ |>.mp hdenied
  cases hstage with
  | opened hstate hheld htends _ hblank =>
    cases hheld.symm.trans hblock
    have hblank := hblank (spillsToDisk_of_refused htends hrefused)
    obtain ⟨_, s, hsettles, -⟩ := settle_yields w { w with block := none, tracker := none }
      (hblank.holds _) hblank.id hblank.memory hspace t husable
      (by rw [hdenied, if_neg Bool.false_ne_true]; exact hencodes t ht) reads persistence
    rw [close_eq hstate hblock hpersistence hreads, ht, Option.elim_some, hsettles]
  | idle _ hnone | stuck _ hnone | kept _ hnone | spilled _ _ hnone =>
    cases hnone.symm.trans hblock

omit [Measured α] in
theorem countP_offers {w : Writer σ α} (hclosable : w.closable = true) (p : Pool) :
    (w.offers p).countP (·.1) = if w.refused p then 1 else 0 := by
  rw [Writer.offers, if_pos hclosable]
  cases hsize : w.trackedSize with
  | none =>
    have hkept : w.refused p = false := by rw [refused, hsize]; rfl
    simp [hkept]
  | some size => simp

/-- Each refusal of a close that would succeed is told as a replacement, and nothing else is. -/
theorem close_refusals {w : Writer σ α} {e : Executor α} (hstage : Stage w)
    (hok : w.closable = true → w.refused e.pool = true → (close (w, e)).1 = .ok ()) :
    (close (w, e)).2.2.registry.replacements.length =
      e.registry.replacements.length + (w.offers e.pool).countP (·.1) := by
  have hends := close_ends hstage e
  generalize close (w, e) = closed at hends hok
  cases hends with
  | idle result hidle => simp [Writer.offers, hidle]
  | @committed w' e' hclosable hcommitted =>
    rw [countP_offers hclosable]
    show e'.account.replacements.length = _
    generalize e'.account = a' at hcommitted
    generalize w.refused e.pool = refused at hcommitted
    cases hcommitted with
    | kept => rfl
    | spilled => exact List.length_append
  | @failed fault m e' hclosable ha =>
    have hkept : w.refused e.pool = false := by
      by_contra hrefused
      cases hok hclosable (eq_true_of_ne_false hrefused)
    rw [countP_offers hclosable, hkept]
    exact congrArg (fun a : Account α => a.replacements.length) ha

/-- A file can be had for every buffer that is refused. -/
structure Provided (s : Session σ α) : Prop where
  holders : Holders (fun _ => True) Named (Sited Named default 0 0)
    (Executor.Stranger Named default 0 0) s
  free : s.executor.registry.medium.dir.Works

omit [Measured α] in
/-- Where nothing is open yet, this asks for a directory that is as it should be. -/
theorem Provided.start {e : Executor α} (hkeyed : e.registry.Keyed)
    (hformed : e.registry.medium.dir.WellFormed) (hfree : e.registry.medium.dir.Works) :
    ({ executor := e } : Session σ α).Provided := by
  refine ⟨⟨⟨hformed, hkeyed, fun _ => bot_le, fun _ => bot_le⟩, ?_⟩, hfree⟩
  intro name w _ hw
  cases hw

theorem Provided.perform (h : s.Provided) (hcall : call.Feasible) :
    (perform call s).2.Provided := by
  have hfollows := perform_follows (neutral_watched Named default 0 0)
    (fun _ _ => Watched.of_same rfl rfl ⟨rfl, fun h => h⟩) h.holders hcall.within
  exact ⟨hfollows.holders, hfollows.executor.medium.dir.refusals.trans h.free⟩

theorem Provided.close (h : s.Provided) (husable : s.executor.estimator.Usable)
    (hstages : s.Each Stage) {w : Writer σ α} (hw : s.writer? name = some w)
    (hencodes : s.executor.registry.medium.codec.EncodesFrom true
      s.executor.registry.medium.encodings (replayed (.close name) s))
    (hclosable : w.closable = true) (hrefused : w.refused s.executor.pool = true) :
    (Writer.close (w, s.executor)).1 = .ok () := by
  refine close_refused (hstages name w hw) hclosable hrefused
    ⟨h.free, h.holders.suited.formed, (h.holders.writers trivial hw).1⟩ husable fun t ht => ?_
  rwa [replayed, hw, Option.elim_some, if_pos ⟨hclosable, hrefused⟩, ht] at hencodes

/-- In one call, each refusal is told as a replacement, and nothing else is. -/
theorem perform_refusals (h : s.Regular) (hs : s.Provided) (call : Call σ α)
    (hencodes : s.executor.registry.medium.codec.EncodesFrom true
      s.executor.registry.medium.encodings (replayed call s)) :
    (perform call s).2.executor.registry.replacements.length =
      s.executor.registry.replacements.length + (offers call s).countP (·.1) := by
  have hperforms := performs call s
  generalize (perform call s).2 = s' at hperforms
  cases hperforms with
  | @opened name task edge destination p w e _ hopens =>
    have hsame : e.account.replacements = s.executor.account.replacements := by
      generalize e.account = a at hopens
      cases hopens <;> rfl
    show (Session.dropWriter name _).executor.registry.replacements.length = _
    obtain ⟨medium, hdropped⟩ := executor_dropWriter { s with executor := e } name
    rw [hdropped]
    exact congrArg List.length hsame
  | unopened _ hsame => exact congrArg (fun a : Account α => a.replacements.length) hsame
  | @called name w c hw =>
    cases c with
    | write x =>
      obtain ⟨-, m, ha, -⟩ := write_stands (w := w) (e := s.executor) x
      exact congrArg (fun a : Account α => a.replacements.length) ha
    | close =>
      have hclose := close_refusals (h.stages name w hw) (e := s.executor)
        (hs.close h.usable h.stages hw hencodes)
      simp only [WriterCall.under, offers, hw, Option.elim_some]
      exact hclose
  | @absent name c hnone =>
    cases c <;> simp [WriterCall.under, offers, hnone]
  | dropped name =>
    obtain ⟨medium, hdropped⟩ := executor_dropWriter s name
    rw [hdropped]
    rfl
  | removed id =>
    obtain ⟨-, hsame⟩ | ⟨removed, -, hremoved⟩ := removeBlock_cases id s.executor
    · rw [hsame]
      rfl
    · rw [hremoved]
      rfl
  | disturbed dir => rfl

theorem run_refusals (h : s.Regular) (hs : s.Provided) (hcalls : ∀ call ∈ calls, call.Feasible)
    (hencodes : s.Encodable calls) :
    (s.run calls).executor.registry.replacements.length =
      s.executor.registry.replacements.length + (collect offers s calls).countP (·.1) := by
  induction calls generalizing s with
  | nil => rfl
  | cons call calls ih =>
    have hrest := ih (h.perform call) (hs.perform (hcalls call List.mem_cons_self))
      (fun later hlater => hcalls later (List.mem_cons_of_mem _ hlater)) hencodes.2
    rw [run_cons, hrest, perform_refusals h hs call hencodes.1, collect_cons, List.countP_append,
      Nat.add_assoc]

/-! ## Everything that is counted -/

theorem ofNat_eq_nsmul (n : Nat) : UInt64.ofNat n = n • (1 : UInt64) := by
  induction n with
  | zero => exact (zero_nsmul _).symm
  | succ n ih => rw [succ_nsmul, ← ih, UInt64.ofNat_add, UInt64.ofNat_one]

section Counting

variable [AddCommMonoid κ] {l : Law κ} {k : κ}

omit [Measured α] in
theorem weigh_countP {p : Writer σ α → Bool} (h : ∀ w, l.weigh w = if p w then k else 0)
    (ws : List (Writer σ α)) : l.weighAll ws = ws.countP p • k := by
  induction ws with
  | nil => simp
  | cons w ws ih =>
    rw [Law.weighAll_cons, ih, h, List.countP_cons, add_nsmul, add_comm]
    split <;> simp

theorem offered_countP {p : Bool × UInt64 → Bool}
    (h : ∀ o, l.offer o.1 o.2 = if p o then k else 0) (os : List (Bool × UInt64)) :
    l.offered os = os.countP p • k := by
  induction os with
  | nil => simp
  | cons o os ih =>
    rw [Law.offered, List.map_cons, List.sum_cons, ← Law.offered, ih, h, List.countP_cons,
      add_nsmul, add_comm]
    split <;> simp

omit [Measured α] in
theorem weigh_nothing (h : ∀ w : Writer σ α, l.weigh w = 0) (ws : List (Writer σ α)) :
    l.weighAll ws = 0 := by
  simp [Law.weighAll, funext h]

theorem offered_nothing (h : ∀ refused size, l.offer refused size = 0)
    (os : List (Bool × UInt64)) : l.offered os = 0 := by
  simp [Law.offered, h]

end Counting

omit [Measured α] in
theorem weigh_bytes (ws : List (Writer σ α)) :
    Law.committedBytes.weighAll ws =
      ((ws.filter (·.state.isCommitted)).filterMap (·.writtenBytes)).sum := by
  induction ws with
  | nil => rfl
  | cons w ws ih =>
    rw [Law.weighAll_cons, ih, Law.weigh, Law.committedBytes]
    cases hstate : w.state.isCommitted with
    | false => simp [hstate]
    | true => cases hbytes : w.writtenBytes <;> simp [hstate, hbytes]

section New

variable [AddCancelCommMonoid κ] (l : Law κ) {e : Executor α} (husable : e.estimator.Usable)
  (hzero : l.counted e = 0) (calls : List (Call σ α))

include husable hzero

/-- What an executor that has counted nothing counts in a run. -/
theorem run_counts_all
    (hroom : l.sample = 0 ∨ ∀ name, (Call.given name calls).length + 2 < 2 ^ 64) :
    let start : Session σ α := { executor := e }
    l.counted (start.run calls).executor = l.weighAll (start.everyone calls) +
      l.offered (start.collect offers calls) +
        (start.collect samplings calls).length • l.sample := by
  intro start
  have hcounts := run_counts l (.start husable) calls
    (hroom.imp_right (Roomy.start (σ := σ) (e := e)))
  rwa [hzero, List.map_nil, Law.weighAll_nil, add_zero, zero_add] at hcounts

/-- Where only writers matter, those are counted that the law is about. -/
theorem run_counts_writers (hoffer : ∀ refused size, l.offer refused size = 0)
    (hsample : l.sample = 0) {k : κ} {p : Writer σ α → Bool}
    (hweigh : ∀ w, l.weigh w = if p w then k else 0) :
    let start : Session σ α := { executor := e }
    l.counted (start.run calls).executor = (start.everyone calls).countP p • k := by
  intro start
  rw [run_counts_all l husable hzero calls (.inl hsample), offered_nothing hoffer, hsample,
    nsmul_zero, add_zero, add_zero, weigh_countP hweigh]

/-- Where only offers matter, they make up the count. -/
theorem run_counts_offers (hweigh : ∀ w : Writer σ α, l.weigh w = 0) (hsample : l.sample = 0) :
    let start : Session σ α := { executor := e }
    l.counted (start.run calls).executor = l.offered (start.collect offers calls) := by
  intro start
  rw [run_counts_all l husable hzero calls (.inl hsample), weigh_nothing hweigh, hsample,
    nsmul_zero, add_zero, zero_add]

end New

/-- Whatever calls were made on writers that share an executor, in any order, with any codec and any
pool, it holds of all writers of the run, as they were left, and modulo the size of a word:

* there is a memory commit or a file commit for each writer that is committed there, and the
  committed bytes are those that they tell;
* there is a duplicate for each writer that does nothing, and a replacement for each spilled one;
* there is an offer, granted or denied, for each close of a writer with a buffer that gets to its
  block, and the sizes of the buffers are admitted or spilled;
* there is a sample for each write that brings a full estimate and succeeds, unless a buffer takes
  up so many elements that the count of its own samples wraps;
* there is a denial for each spilled writer, if files can be made for the blocks, no encode fails
  while refused buffers are replayed, and nobody else disturbs the spill directory. -/
theorem run_tallies {e : Executor α} (husable : e.estimator.Usable) (hmetrics : e.metrics = {})
    (htold : e.registry.replacements = []) (calls : List (Call σ α)) :
    let start : Session σ α := { executor := e }
    let writers := start.everyone calls
    let offers := start.collect offers calls
    let e' := (start.run calls).executor
    e'.metrics.memoryCommits = .ofNat (writers.countP (·.state = .committedMemory)) ∧
    e'.metrics.fileCommits = .ofNat (writers.countP (·.state = .committedDisk)) ∧
    e'.metrics.committedBytes =
      ((writers.filter (·.state.isCommitted)).filterMap (·.writtenBytes)).sum ∧
    e'.metrics.duplicatesOmitted = .ofNat (writers.countP (·.state = .noOp)) ∧
    e'.registry.replacements.length = writers.countP (·.spilled) ∧
    e'.metrics.admissionsGranted + e'.metrics.admissionsDenied = .ofNat offers.length ∧
    e'.metrics.bytesAdmitted + e'.metrics.bytesSpilled = (offers.map Prod.snd).sum ∧
    ((∀ name, (Call.given name calls).length + 2 < 2 ^ 64) →
      e'.metrics.trackerSamples = .ofNat (start.collect samplings calls).length) ∧
    (e.registry.Keyed → e.registry.medium.dir.WellFormed → e.registry.medium.dir.Works →
      (∀ call ∈ calls, call.Feasible) → start.Encodable calls →
      e'.metrics.admissionsDenied = .ofNat (writers.countP (·.spilled))) := by
  intro start writers offers e'
  have hzero : ∀ l : Law UInt64, l.count {} [] = 0 → l.counted e = 0 := by
    intro l hnothing
    rwa [Law.counted, hmetrics, htold]
  have hwriters : ∀ (l : Law UInt64) (p : Writer σ α → Bool), l.count {} [] = 0 → l.sample = 0 →
      (∀ refused size, l.offer refused size = 0) → (∀ w, l.weigh w = if p w then 1 else 0) →
      l.counted e' = .ofNat (writers.countP p) := by
    intro l p hnothing hsample hoffer hweigh
    rw [ofNat_eq_nsmul]
    exact run_counts_writers l husable (hzero l hnothing) calls hoffer hsample hweigh
  have hreplacements : e'.registry.replacements.length = writers.countP (·.spilled) := by
    have htold' : Law.replacements.counted e = 0 := by
      rw [Law.counted, htold]
      rfl
    have hcounts := run_counts_writers Law.replacements husable htold' calls (fun _ _ => rfl) rfl
      (k := 1) (p := (·.spilled)) fun _ => rfl
    dsimp only at hcounts
    rwa [smul_eq_mul, mul_one] at hcounts
  refine ⟨?_, ?_, ?_, ?_, hreplacements, ?_, ?_, fun hroom => ?_,
    fun hkeyed hformed hfree hcalls hencodes => ?_⟩
  · exact hwriters .memoryCommits (·.state = .committedMemory) rfl rfl (fun _ _ => rfl)
      fun w => by simp [Law.weigh, Law.memoryCommits]
  · exact hwriters .fileCommits (·.state = .committedDisk) rfl rfl (fun _ _ => rfl)
      fun w => by simp [Law.weigh, Law.fileCommits]
  · have hbytes := run_counts_all Law.committedBytes husable (hzero _ rfl) calls (.inl rfl)
    dsimp only at hbytes
    rwa [offered_nothing (fun _ _ => rfl), add_zero, show Law.committedBytes.sample = 0 from rfl,
      nsmul_zero, add_zero, weigh_bytes] at hbytes
  · exact hwriters .duplicatesOmitted (·.state = .noOp) rfl rfl (fun _ _ => rfl)
      fun w => by simp [Law.weigh, Law.duplicatesOmitted]
  · have hadmissions := run_counts_offers Law.admissions husable (hzero _ rfl) calls
      (fun _ => rfl) rfl
    dsimp only at hadmissions
    rwa [offered_countP (p := fun _ => true) (k := 1) (fun _ => rfl), List.countP_true,
      ← ofNat_eq_nsmul] at hadmissions
  · exact run_counts_offers Law.bytesOffered husable (hzero _ rfl) calls (fun _ => rfl) rfl
  · have hsamples := run_counts_all Law.trackerSamples husable (hzero _ rfl) calls (.inr hroom)
    dsimp only at hsamples
    rwa [weigh_nothing (fun _ => rfl), zero_add, offered_nothing (fun _ _ => rfl), zero_add,
      show Law.trackerSamples.sample = 1 from rfl, ← ofNat_eq_nsmul] at hsamples
  · have hdenied := run_counts_offers Law.admissionsDenied husable (hzero _ rfl) calls
      (fun _ => rfl) rfl
    dsimp only at hdenied
    rw [offered_countP (p := (·.1)) (k := 1) (fun _ => rfl), ← ofNat_eq_nsmul] at hdenied
    have hrefusals := run_refusals (.start husable) (.start hkeyed hformed hfree) hcalls hencodes
    rw [htold, List.length_nil, Nat.zero_add] at hrefusals
    rw [← hreplacements, hrefusals]
    exact hdenied

/-- A buffer that the pool refuses, one that it admits, and an edge that another one carries. -/
theorem run_tallies_three :
    let edge : Edge := {
      id := ⟨"e"⟩
      store := some .memoryFile
      pattern := some .oneToOne
      persistence := some .keep }
    let e : Executor UInt64 := {
      registry := { medium := { codec := .json } }
      pool := .ofCapacity 150
      estimator := .ofOptions {} }
    let calls : List (Call UInt32 UInt64) := [
      .openWriter "a" ⟨"t"⟩ edge ⟨⟨"v"⟩, none⟩ .intact,
      .openWriter "b" ⟨"u"⟩ edge ⟨⟨"v"⟩, none⟩ .intact,
      .openWriter "c" ⟨"t"⟩ { edge with group := some ⟨"g", 2, ⟨"f"⟩⟩ } ⟨⟨"v"⟩, none⟩ .intact,
      .write "a" 7, .write "b" 8, .close "a", .close "b"]
    let start : Session UInt32 UInt64 := { executor := e }
    (start.everyone calls).map (fun w => (w.state, w.spilled)) =
      [(.committedDisk, true), (.committedMemory, false), (.noOp, false)] ∧
    let m := (start.run calls).executor.metrics
    m.memoryCommits = 1 ∧ m.fileCommits = 1 ∧ m.duplicatesOmitted = 1 ∧
      m.admissionsGranted + m.admissionsDenied = 2 ∧ m.admissionsDenied = 1 ∧
      m.trackerSamples = 2 := by
  intro edge e calls start
  have hwriters : (start.everyone calls).map (fun w => (w.state, w.spilled)) =
      [(.committedDisk, true), (.committedMemory, false), (.noOp, false)] := by
    decide +kernel
  refine ⟨hwriters, ?_⟩
  have hcount : ∀ p : WriterState × Bool → Bool,
      (start.everyone calls).countP (fun w => p (w.state, w.spilled)) =
        [(WriterState.committedDisk, true), (.committedMemory, false), (.noOp, false)].countP p := by
    intro p
    rw [← hwriters, List.countP_map]
    rfl
  have honMemory : (start.everyone calls).countP (·.state = .committedMemory) = 1 :=
    hcount (·.1 = .committedMemory)
  have honDisk : (start.everyone calls).countP (·.state = .committedDisk) = 1 :=
    hcount (·.1 = .committedDisk)
  have homitted : (start.everyone calls).countP (·.state = .noOp) = 1 := hcount (·.1 = .noOp)
  have hspilled : (start.everyone calls).countP (·.spilled) = 1 := hcount (·.2)
  have hfeasible : ∀ call ∈ calls, call.Feasible := by
    have hnamed : ∀ task ∈ ["t", "u"], (BlockId.of edge.id ⟨task⟩).Named := by decide +kernel
    simp only [calls, List.forall_mem_cons]
    exact ⟨hnamed "t" (by decide), hnamed "u" (by decide), hnamed "t" (by decide),
      trivial, trivial, trivial, trivial, List.forall_mem_nil _⟩
  have hencodes : start.Encodable calls := by decide +kernel
  have hoffered : (start.collect offers calls).length = 2 := by decide +kernel
  have hsampled : (start.collect samplings calls).length = 2 := by decide +kernel
  obtain ⟨hmemory, hfile, -, hduplicates, -, hoffers, -, hsamples, hdenied⟩ :=
    run_tallies (σ := UInt32) (e := e) (SizeEstimator.usable_ofOptions (by decide)) rfl rfl calls
  refine ⟨?_, ?_, ?_, ?_, ?_, ?_⟩
  · rw [hmemory, honMemory]
    rfl
  · rw [hfile, honDisk]
    rfl
  · rw [hduplicates, homitted]
    rfl
  · rw [hoffers, hoffered]
    rfl
  · rw [hdenied (List.forall_mem_nil _) (.of_unnamed rfl) rfl hfeasible hencodes, hspilled]
    rfl
  · rw [hsamples fun name => ?_, hsampled]
    · rfl
    · simp only [calls, Call.given]
      split <;> split <;> decide

end Session

end ShuffleBuffer
